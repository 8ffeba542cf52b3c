/-
  Tables that keep the order in which their keys were first entered.

  `Table.insert` puts a new key at the end and replaces the value of a known
  one in its place.  `remaining` counts the names that are not yet among those
  seen; recursions that visit every name of a table once end by it.
-/

namespace Bindery

universe u

/-- Values under names, in the order in which the names were entered. -/
structure Table (α : Type u) where
  entries : List (String × α) := []
deriving DecidableEq, Repr

namespace Table

variable {α : Type u}

instance : Inhabited (Table α) := ⟨{}⟩

def keys (t : Table α) : List String := t.entries.map (·.1)

def values (t : Table α) : List α := t.entries.map (·.2)

def size (t : Table α) : Nat := t.entries.length

def get? (t : Table α) (key : String) : Option α := t.entries.lookup key

def contains (t : Table α) (key : String) : Bool := (t.get? key).isSome

/-- The entries with `value` under `key`: in its place if `key` is known, at
    the end otherwise. -/
def insertEntry (key : String) (value : α) : List (String × α) → List (String × α)
  | [] => [(key, value)]
  | (k, v) :: rest => if k = key then (key, value) :: rest else (k, v) :: insertEntry key value rest

def insert (t : Table α) (key : String) (value : α) : Table α :=
  ⟨insertEntry key value t.entries⟩

/-- The table with the value under `key` changed by `f`, if there is one. -/
def modify (t : Table α) (key : String) (f : α → α) : Table α :=
  match t.get? key with
  | some value => t.insert key (f value)
  | none => t

/-- The table of the pairs, later ones over earlier ones. -/
def ofList (entries : List (String × α)) : Table α :=
  entries.foldl (fun t (key, value) => t.insert key value) {}

/-! ## What entering does to the view by keys -/

@[simp]
theorem get?_insert_self (t : Table α) (key : String) (value : α) :
    (t.insert key value).get? key = some value := by
  obtain ⟨entries⟩ := t
  simp only [insert, get?]
  induction entries with
  | nil => simp [insertEntry]
  | cons e rest ih =>
    obtain ⟨k, v⟩ := e
    by_cases h : k = key
    · simp [insertEntry, h]
    · rw [insertEntry, if_neg h, List.lookup_cons, ih]
      have : (key == k) = false := by simpa using Ne.symm h
      simp [this]

theorem get?_insert_of_ne (t : Table α) {key other : String} (value : α) (h : other ≠ key) :
    (t.insert key value).get? other = t.get? other := by
  obtain ⟨entries⟩ := t
  simp only [insert, get?]
  have hk : (other == key) = false := by simpa using h
  induction entries with
  | nil => simp [insertEntry, List.lookup_cons, hk]
  | cons e rest ih =>
    obtain ⟨k, v⟩ := e
    by_cases hkey : k = key
    · subst hkey
      simp [insertEntry, List.lookup_cons, hk]
    · rw [insertEntry, if_neg hkey, List.lookup_cons, List.lookup_cons, ih]

theorem get?_insert_cases {t : Table α} {key other : String} {value found : α}
    (h : (t.insert key value).get? other = some found) :
    other = key ∧ found = value ∨ other ≠ key ∧ t.get? other = some found := by
  by_cases hkey : other = key
  · rw [hkey, get?_insert_self] at h
    exact .inl ⟨hkey, (Option.some.inj h).symm⟩
  · rw [get?_insert_of_ne _ _ hkey] at h
    exact .inr ⟨hkey, h⟩

theorem get?_insert_of_free {t : Table α} {key other : String} {value found : α}
    (hfree : t.get? key = none) (h : t.get? other = some found) :
    (t.insert key value).get? other = some found := by
  rw [get?_insert_of_ne]
  · exact h
  · rintro rfl
    rw [hfree] at h
    cases h

theorem mem_entries_of_get? {t : Table α} {key : String} {value : α}
    (h : t.get? key = some value) : (key, value) ∈ t.entries := by
  obtain ⟨before, after, heq, -⟩ := List.lookup_eq_some_iff.1 h
  simp [heq]

theorem mem_keys_of_get? {t : Table α} {key : String} {value : α} (h : t.get? key = some value) :
    key ∈ t.keys :=
  List.mem_map.2 ⟨_, mem_entries_of_get? h, rfl⟩

theorem contains_iff {t : Table α} {key : String} : t.contains key = true ↔ key ∈ t.keys := by
  constructor
  · intro h
    obtain ⟨value, hv⟩ := Option.isSome_iff_exists.1 h
    exact mem_keys_of_get? hv
  · intro h
    obtain ⟨entry, he, rfl⟩ := List.mem_map.1 h
    cases hl : t.entries.lookup entry.1 with
    | some value => simp [contains, get?, hl]
    | none => simpa using List.lookup_eq_none_iff.1 hl entry he

/-- What is among the entries is found, if no key stands twice. -/
theorem get?_of_mem_entries {t : Table α} {key : String} {value : α} (hkeys : t.keys.Nodup)
    (h : (key, value) ∈ t.entries) : t.get? key = some value := by
  obtain ⟨before, after, heq⟩ := List.append_of_mem h
  rw [keys, heq, List.map_append, List.map_cons] at hkeys
  refine List.lookup_eq_some_iff.2 ⟨before, after, heq, fun entry he => ?_⟩
  have hne := (List.nodup_append.1 hkeys).2.2 entry.1 (List.mem_map_of_mem he) key
    List.mem_cons_self
  simpa using Ne.symm hne

/-! ## What entering does to the entries -/

section
variable {t : Table α} {key : String} {value : α}

theorem mem_entries_insert {entry : String × α} (h : entry ∈ (t.insert key value).entries) :
    entry = (key, value) ∨ entry ∈ t.entries := by
  obtain ⟨entries⟩ := t
  simp only [insert] at h
  induction entries with
  | nil => exact .inl (by simpa [insertEntry] using h)
  | cons e rest ih =>
    obtain ⟨k, v⟩ := e
    rw [insertEntry] at h
    split at h
    · rcases List.mem_cons.1 h with h | h
      · exact .inl h
      · exact .inr (List.mem_cons_of_mem _ h)
    · rcases List.mem_cons.1 h with h | h
      · exact .inr (h ▸ List.mem_cons_self)
      · exact (ih h).imp_right (List.mem_cons_of_mem _)

/-- A new key comes last, a known one keeps its place. -/
theorem keys_insert : (t.insert key value).keys =
    if key ∈ t.keys then t.keys else t.keys ++ [key] := by
  have hentries : ∀ entries : List (String × α), (insertEntry key value entries).map (·.1) =
      if key ∈ entries.map (·.1) then entries.map (·.1) else entries.map (·.1) ++ [key] := by
    intro entries
    induction entries with
    | nil => simp [insertEntry]
    | cons e rest ih =>
      obtain ⟨k, v⟩ := e
      rw [insertEntry]
      by_cases hk : k = key
      · simp [hk]
      · rw [if_neg hk, List.map_cons, ih]
        by_cases hm : key ∈ rest.map (·.1)
        · simp [hm]
        · have hcons : ¬ (key = k ∨ key ∈ rest.map (·.1)) := not_or.2 ⟨Ne.symm hk, hm⟩
          simp only [List.map_cons, List.mem_cons, if_neg hm, if_neg hcons, List.cons_append]
  exact hentries t.entries

theorem mem_keys_insert {name : String} :
    name ∈ (t.insert key value).keys ↔ name = key ∨ name ∈ t.keys := by
  rw [keys_insert]
  split
  · rename_i hkey
    constructor
    · exact .inr
    · rintro (rfl | h)
      · exact hkey
      · exact h
  · rw [List.mem_append, List.mem_singleton]
    exact or_comm

theorem nodup_keys_insert (h : t.keys.Nodup) : (t.insert key value).keys.Nodup := by
  rw [keys_insert]
  split
  · exact h
  · rename_i hk
    refine List.nodup_append.2 ⟨h, by simp, ?_⟩
    rintro a ha b hb rfl
    rw [List.mem_singleton.1 hb] at ha
    exact hk ha

theorem keys_modify (t : Table α) (key : String) (f : α → α) :
    (t.modify key f).keys = t.keys := by
  unfold modify
  split
  · rename_i old hget
    rw [keys_insert, if_pos (mem_keys_of_get? hget)]
  · rfl

/-- A changed entry stems from one under the key, the others are as they were. -/
theorem mem_entries_modify {f : α → α} {entry : String × α}
    (h : entry ∈ (t.modify key f).entries) :
    entry ∈ t.entries ∨ ∃ old, (key, old) ∈ t.entries ∧ entry = (key, f old) := by
  unfold modify at h
  split at h
  · rename_i old hget
    rcases mem_entries_insert h with rfl | h
    · exact .inr ⟨old, mem_entries_of_get? hget, rfl⟩
    · exact .inl h
  · exact .inl h

end

end Table

/-- The number of names that have not been seen. -/
def remaining : List String → List String → Nat
  | [], _ => 0
  | n :: names, seen => (if n ∈ seen then 0 else 1) + remaining names seen

theorem remaining_cons_le (names seen : List String) (n : String) :
    remaining names (n :: seen) ≤ remaining names seen := by
  induction names with
  | nil => exact Nat.le_refl _
  | cons m names ih =>
    simp only [remaining, List.mem_cons]
    split <;> split <;> simp_all <;> omega

theorem remaining_cons_lt {names seen : List String} {n : String} (hn : n ∈ names)
    (hs : n ∉ seen) : remaining names (n :: seen) < remaining names seen := by
  induction names with
  | nil => cases hn
  | cons m names ih =>
    have hle := remaining_cons_le names seen n
    simp only [remaining, List.mem_cons]
    by_cases hm : m = n
    · subst hm
      simp only [true_or, ↓reduceIte, hs]
      omega
    · have := ih ((List.mem_cons.1 hn).resolve_left (Ne.symm hm))
      simp only [hm, false_or]
      omega

end Bindery
