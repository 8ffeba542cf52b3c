/-
  Names that are not taken.

  `unique` tries a name, then the name with 2, 3 and so on after it.  It looks no
  further than there are names taken; a search that knows no bound (`Search`) tests
  one name after the other, or adds them until one is new.

  * `exists_firstFree`: the first free of distinct candidates is found, and all
    before it are taken;
  * `unique_of_not_mem`, `exists_least_unique`: `unique` gives the name itself, or
    the name with the least number that is free;
  * `Search.start_of_step`: a search without a bound ends with that name;
  * `Search.number_le`: its numbers grow no larger than there are names.
-/
import Mathlib.Data.List.Nodup
import Mathlib.Data.List.Perm.Subperm
import Mathlib.Logic.Relation
import Mathlib.Order.Bounds.Defs
import Bindery.Code.Name
import Bindery.Proofs.Document.Identifier

namespace Bindery.Code

open Schema (numberMark)

def numbered (base : String) (n : Nat) : String :=
  if n = 0 then base else s!"{base}{n + 1}"

theorem toList_numbered (base : String) (n : Nat) :
    (numbered base n).toList = base.toList ++ numberMark [] n := by
  cases n with
  | zero => simp [numbered, numberMark]
  | succ n => simp [numbered, numberMark, Nat.toList_repr, ToString.toString]

theorem isDigit_of_mem_numberMark {n : Nat} {c : Char} (h : c ∈ numberMark [] n) :
    c.isDigit = true := by
  cases n with
  | zero => cases h
  | succ n => exact Nat.isDigit_of_mem_toDigits (by decide) (by decide) h

theorem numbered_injective (base : String) : Function.Injective (numbered base) := by
  intro m n h
  have hl : base.toList ++ numberMark [] m = base.toList ++ numberMark [] n := by
    rw [← toList_numbered, h, toList_numbered]
  exact Schema.numberMark_inj (List.append_cancel_left hl)

/-- Of distinct candidates, more than there are names, the first free one is
    found. -/
theorem exists_firstFree {candidate : Nat → String} (hinj : Function.Injective candidate)
    (taken : List String) : ∃ n, firstFree candidate taken = candidate n ∧ candidate n ∉ taken ∧
      (∀ m < n, candidate m ∈ taken) ∧ n ≤ taken.length := by
  rw [firstFree]
  cases hfind : (List.range taken.length).find? (candidate · ∉ taken) with
  | some n =>
    obtain ⟨hfree, hn, hbefore⟩ := List.find?_range_eq_some.1 hfind
    refine ⟨n, rfl, by simpa using hfree, by simpa using hbefore, ?_⟩
    exact Nat.le_of_lt (List.mem_range.1 hn)
  | none =>
    have hall : ∀ m < taken.length, candidate m ∈ taken := by simpa using hfind
    refine ⟨taken.length, rfl, fun hlast => ?_, hall, Nat.le_refl _⟩
    -- otherwise more candidates than there are names would be among them
    have hsub : (List.range (taken.length + 1)).map candidate ⊆ taken := by
      intro name hname
      obtain ⟨n, hn, rfl⟩ := List.mem_map.1 hname
      rcases Nat.lt_succ_iff_lt_or_eq.1 (List.mem_range.1 hn) with hn | rfl
      · exact hall n hn
      · exact hlast
    have hlength := ((List.nodup_range.map hinj).subperm hsub).length_le
    rw [List.length_map, List.length_range] at hlength
    omega

theorem firstFree_not_mem {candidate : Nat → String} (hinj : Function.Injective candidate)
    (taken : List String) : firstFree candidate taken ∉ taken := by
  obtain ⟨n, hn, hfree, -⟩ := exists_firstFree hinj taken
  exact hn ▸ hfree

theorem unique_not_mem (taken : List String) (base : String) : unique taken base ∉ taken :=
  firstFree_not_mem (numbered_injective base) taken

/-- The name is the base itself, or the base and a number, and all before it are
    taken. -/
theorem exists_unique_eq (taken : List String) (base : String) :
    ∃ n, unique taken base = numbered base n ∧ numbered base n ∉ taken ∧
      (∀ m < n, numbered base m ∈ taken) ∧ n ≤ taken.length :=
  exists_firstFree (numbered_injective base) taken

theorem unique_of_not_mem {taken : List String} {base : String} (h : base ∉ taken) :
    unique taken base = base := by
  obtain ⟨n, hn, -, hbefore, -⟩ := exists_unique_eq taken base
  cases n with
  | zero => exact hn
  | succ n => exact absurd (hbefore 0 n.succ_pos) h

theorem exists_least_unique {taken : List String} {base : String} (h : base ∈ taken) :
    ∃ k ≤ taken.length + 1, unique taken base = s!"{base}{k}" ∧
      IsLeast {k | 2 ≤ k ∧ s!"{base}{k}" ∉ taken} k := by
  obtain ⟨n, hn, hfree, hbefore, hle⟩ := exists_unique_eq taken base
  cases n with
  | zero => exact absurd h hfree
  | succ n =>
    refine ⟨n + 2, by omega, hn, ⟨by omega, hfree⟩, ?_⟩
    rintro k ⟨hk, hfree'⟩
    obtain ⟨m, rfl⟩ : ∃ m, k = m + 2 := ⟨k - 2, by omega⟩
    by_contra hlt
    exact hfree' (hbefore (m + 1) (by omega))

/-! ## Searching without a bound -/

/-- A search for a free name: the name that is tried, and the number for the next. -/
structure Search where
  base : String
  taken : List String
  name : String := base
  number : Nat := 2

namespace Search

def next (s : Search) : Search :=
  { s with name := s!"{s.base}{s.number}", number := s.number + 1 }

/-- Tests names until one is not there, and adds it; `none` stands for a search
    without end. -/
def byTest (s : Search) : Option (String × List String) :=
  if s.name ∈ s.taken then s.next |>.byTest else some (s.name, s.name :: s.taken)
partial_fixpoint

def add (s : Search) : Bool × Search :=
  (s.name ∉ s.taken, { s with taken := s.taken.insert s.name })

def byAdding (s : Search) : Option (String × List String) :=
  if s.add.1 then some (s.name, s.add.2.taken) else s.add.2.next |>.byAdding
partial_fixpoint

theorem byAdding_eq (s : Search) : s.byAdding =
    if s.name ∈ s.taken then s.next.byAdding else some (s.name, s.name :: s.taken) := by
  rw [byAdding]
  by_cases h : s.name ∈ s.taken <;> simp [add, h]

/-- Whether a search goes on from the one state to the other, by testing or by
    adding. -/
def GoesOn (s t : Search) : Prop :=
  s.name ∈ s.taken ∧ (t = s.next ∨ t = s.add.2.next)

def trial (base : String) (taken : List String) (n : Nat) : Search :=
  ⟨base, taken, numbered base n, n + 2⟩

section
variable {search : Search → Option (String × List String)}
  (hstep : ∀ s, search s =
    if s.name ∈ s.taken then search s.next else some (s.name, s.name :: s.taken))
include hstep

theorem trial_of_taken {base : String} {taken : List String} {n : Nat}
    (h : ∀ m < n, numbered base m ∈ taken) :
    search (trial base taken 0) = search (trial base taken n) := by
  induction n with
  | zero => rfl
  | succ n ih =>
    rw [ih fun m hm => h m (by omega), hstep]
    exact if_pos (h n n.lt_succ_self)

/-- A search that tries one name after the other ends, at the name that `unique`
    gives. -/
theorem start_of_step (base : String) (taken : List String) :
    search { base, taken } = some (unique taken base, unique taken base :: taken) := by
  obtain ⟨n, hn, hfree, hbefore, -⟩ := exists_unique_eq taken base
  calc search { base, taken }
    _ = search (trial base taken n) := trial_of_taken hstep hbefore
    _ = some (numbered base n, numbered base n :: taken) := (hstep _).trans (if_neg hfree)
    _ = some (unique taken base, unique taken base :: taken) := by rw [hn]

end

theorem exists_trial {base : String} {taken : List String} {s : Search}
    (h : Relation.ReflTransGen GoesOn { base, taken } s) :
    ∃ n, s = trial base taken n ∧ ∀ m < n, numbered base m ∈ taken := by
  induction h with
  | refl => exact ⟨0, rfl, fun _ hm => absurd hm (Nat.not_lt_zero _)⟩
  | tail _ hstep ih =>
    obtain ⟨n, rfl, hbefore⟩ := ih
    have htaken : numbered base n ∈ taken := hstep.1
    have hadd : (trial base taken n).add.2 = trial base taken n := by
      simp [add, trial, List.insert_of_mem htaken]
    refine ⟨n + 1, ?_, fun m hm => ?_⟩
    · rcases hstep.2 with rfl | rfl
      · rfl
      · rw [hadd]
        rfl
    · rcases Nat.lt_succ_iff_lt_or_eq.1 hm with hm | rfl
      · exact hbefore m hm
      · exact htaken

theorem number_le {base : String} {taken : List String} {s : Search}
    (h : Relation.ReflTransGen GoesOn { base, taken } s) : s.number ≤ taken.length + 2 := by
  obtain ⟨n, rfl, hbefore⟩ := exists_trial h
  obtain ⟨k, -, hfree, -, hk⟩ := exists_unique_eq taken base
  have hn : n ≤ k := by
    by_contra hlt
    exact hfree (hbefore k (by omega))
  exact Nat.add_le_add_right (Nat.le_trans hn hk) 2

end Search

end Bindery.Code
