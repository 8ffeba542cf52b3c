/-
  The identifiers of a document.

  Elements are identified by their name, and those of one name that differ by
  their number; attributes by the element and their name.

  * `Built.Numbered`: how identifiers are given out while a document is built;
  * `Built.Numbered.unique`: an identifier names one element, if no name
    contains `#`;
  * `attributeIdentifier_inj`: the identifier of an attribute tells the element
    and the name, if that of the element does not contain `@`.
-/
import Mathlib.Data.List.Basic
import Bindery.Schema.Build

namespace Bindery.Schema

open ElementPattern

/-! ## Names and numbers -/

/-- The identifier of the element of a name that comes after `k` others. -/
def numberedName (name : String) : Nat → String
  | 0 => name
  | k + 1 => name ++ "#" ++ toString (k + 2)

theorem Built.fresh_eq (built : Built) (e : ElementPattern) :
    built.fresh e = numberedName e.name (built.count e.name) := by
  unfold Built.fresh
  cases built.count e.name <;> rfl

theorem toDigits_inj {m n : Nat} (h : Nat.toDigits 10 m = Nat.toDigits 10 n) : m = n := by
  rw [← Nat.ofDigitChars_ten_toDigits (n := m), h, Nat.ofDigitChars_ten_toDigits]

/-- What follows a name that comes after `k` others: nothing, or a number from 2
    behind `sep`. -/
def numberMark (sep : List Char) : Nat → List Char
  | 0 => []
  | k + 1 => sep ++ Nat.toDigits 10 (k + 2)

theorem numberMark_inj {sep : List Char} {j k : Nat} (h : numberMark sep j = numberMark sep k) :
    j = k := by
  cases j with
  | zero =>
    cases k with
    | zero => rfl
    | succ k => exact absurd (List.append_eq_nil_iff.1 h.symm).2 Nat.toDigits_ne_nil
  | succ j =>
    cases k with
    | zero => exact absurd (List.append_eq_nil_iff.1 h).2 Nat.toDigits_ne_nil
    | succ k =>
      have hd := toDigits_inj (List.append_cancel_left h)
      omega

theorem toList_numberedName (name : String) (k : Nat) :
    (numberedName name k).toList = name.toList ++ numberMark ['#'] k := by
  cases k with
  | zero => simp [numberedName, numberMark]
  | succ k =>
    simp [numberedName, numberMark, Nat.toString_eq_repr, Nat.toList_repr]

theorem takeWhile_mark {c : Char} {before after : List Char} (h : c ∉ before)
    (ha : ∀ x ∈ after.head?, x = c) : (before ++ after).takeWhile (· != c) = before := by
  rw [List.takeWhile_append_of_pos fun x hx => by
    simp only [bne_iff_ne]
    exact fun heq => h (heq ▸ hx)]
  cases after with
  | nil => simp
  | cons x after =>
    cases ha x rfl
    simp

theorem head?_numberMark (k : Nat) : ∀ x ∈ (numberMark ['#'] k).head?, x = '#' := by
  cases k with
  | zero => nofun
  | succ k =>
    rintro x ⟨⟩
    rfl

theorem numberedName_right_inj {n : String} {j k : Nat} (h : numberedName n j = numberedName n k) :
    j = k := by
  have hl : n.toList ++ numberMark ['#'] j = n.toList ++ numberMark ['#'] k := by
    rw [← toList_numberedName, h, toList_numberedName]
  exact numberMark_inj (List.append_cancel_left hl)

theorem numberedName_inj {n m : String} {j k : Nat} (hn : '#' ∉ n.toList) (hm : '#' ∉ m.toList)
    (h : numberedName n j = numberedName m k) : n = m ∧ j = k := by
  have hl : n.toList ++ numberMark ['#'] j = m.toList ++ numberMark ['#'] k := by
    rw [← toList_numberedName, h, toList_numberedName]
  have hname : n.toList = m.toList := by
    rw [← takeWhile_mark hn (head?_numberMark j), hl, takeWhile_mark hm (head?_numberMark k)]
  cases String.toList_inj.1 hname
  exact ⟨rfl, numberedName_right_inj h⟩

theorem identifier?_withPattern (built : Built) (e : ElementPattern) (p : Pattern) :
    built.identifier? { e with pattern := p } = built.identifier? e := rfl

theorem eq_of_sameContent {a b : ElementPattern} (h : a.sameContent b = true) :
    a = { b with pattern := a.pattern } := by
  simpa [sameContent] using h

theorem Built.mem_of_identifier? {built : Built} {x : ElementPattern} {id : String}
    (h : built.identifier? x = some id) :
    ∃ p, ({ x with pattern := p }, id) ∈ built := by
  obtain ⟨⟨e, id'⟩, hfind, rfl⟩ := Option.map_eq_some_iff.1 h
  have hsame := List.find?_some hfind
  have hm := List.mem_of_find?_eq_some hfind
  exact ⟨e.pattern, eq_of_sameContent hsame ▸ hm⟩

/-! ## Elements -/

/-- The elements built, each with an identifier of its own when it was new. -/
inductive Built.Numbered : Built → Prop
  | nil : Numbered []
  | append {built e} : Numbered built → built.identifier? e = none →
      Numbered (built ++ [(e, built.fresh e)])

theorem Built.count_append (built : Built) (e : ElementPattern) (id name : String) :
    Built.count (built ++ [(e, id)]) name = built.count name + if e.name = name then 1 else 0 := by
  simp [Built.count, List.countP_append, List.countP_cons]

namespace Built.Numbered

variable {built : Built}

theorem identifier? (h : built.Numbered) {e : ElementPattern} {id : String}
    (hm : (e, id) ∈ built) : built.identifier? e = some id := by
  induction h with
  | nil => cases hm
  | append _ hnone ih =>
    rw [Built.identifier?_append]
    rcases List.mem_append.1 hm with hm | hm
    · rw [ih hm, Option.some_or]
    · cases List.mem_singleton.1 hm
      rw [hnone, sameContent_self, Option.none_or, if_pos rfl]

theorem exists_number (h : built.Numbered) {e : ElementPattern} {id : String}
    (hm : (e, id) ∈ built) : ∃ k < built.count e.name, id = numberedName e.name k := by
  induction h with
  | nil => cases hm
  | @append built new _ _ ih =>
    rw [Built.count_append]
    rcases List.mem_append.1 hm with hm | hm
    · obtain ⟨k, hk, rfl⟩ := ih hm
      exact ⟨k, by omega, rfl⟩
    · cases List.mem_singleton.1 hm
      exact ⟨built.count e.name, by simp, built.fresh_eq e⟩

theorem fresh_ne (h : built.Numbered) {e new : ElementPattern} {id : String}
    (hm : (e, id) ∈ built) (he : '#' ∉ e.name.toList) (hnew : '#' ∉ new.name.toList) :
    id ≠ built.fresh new := by
  obtain ⟨k, hk, rfl⟩ := h.exists_number hm
  rw [Built.fresh_eq]
  intro heq
  obtain ⟨hname, rfl⟩ := numberedName_inj he hnew heq
  rw [hname] at hk
  exact Nat.lt_irrefl _ hk

theorem unique_of_name (h : built.Numbered) {e e' : ElementPattern} {id : String}
    (hm : (e, id) ∈ built) (hm' : (e', id) ∈ built) (hname : e.name = e'.name) : e = e' := by
  induction h with
  | nil => cases hm
  | @append built new hbuilt _ ih =>
    have hfresh : ∀ old, (old, built.fresh new) ∈ built → old.name ≠ new.name := by
      intro old hold heq
      obtain ⟨k, hk, hid⟩ := hbuilt.exists_number hold
      rw [Built.fresh_eq, heq] at hid
      rw [heq, numberedName_right_inj hid] at hk
      exact Nat.lt_irrefl _ hk
    rcases List.mem_append.1 hm with h | h
    · rcases List.mem_append.1 hm' with h' | h'
      · exact ih h h'
      · cases List.mem_singleton.1 h'
        exact absurd hname (hfresh e h)
    · rcases List.mem_append.1 hm' with h' | h'
      · cases List.mem_singleton.1 h
        exact absurd hname.symm (hfresh e' h')
      · have heq := (List.mem_singleton.1 h).trans (List.mem_singleton.1 h').symm
        exact congrArg Prod.fst heq

theorem unique (h : built.Numbered)
    (hsharp : ∀ e id, (e, id) ∈ built → '#' ∉ e.name.toList) {e e' : ElementPattern}
    {id : String} (hm : (e, id) ∈ built) (hm' : (e', id) ∈ built) : e = e' := by
  obtain ⟨k, -, hk⟩ := h.exists_number hm
  obtain ⟨k', -, hk'⟩ := h.exists_number hm'
  have hname := (numberedName_inj (hsharp _ _ hm) (hsharp _ _ hm') (hk.symm.trans hk')).1
  exact h.unique_of_name hm hm' hname

end Built.Numbered

/-! ## Attributes -/

theorem attributeIdentifier_inj {id id' name name' : String} (h : '@' ∉ id.toList)
    (h' : '@' ∉ id'.toList) (heq : id ++ "@" ++ name = id' ++ "@" ++ name') :
    id = id' ∧ name = name' := by
  have hl : id.toList ++ '@' :: name.toList = id'.toList ++ '@' :: name'.toList := by
    have := congrArg String.toList heq
    simpa using this
  have hid : id.toList = id'.toList := by
    have hhead : ∀ rest : List Char, ∀ x ∈ ('@' :: rest).head?, x = '@' := by
      rintro rest x ⟨⟩
      rfl
    rw [← takeWhile_mark h (hhead name.toList), hl, takeWhile_mark h' (hhead name'.toList)]
  rw [hid] at hl
  exact ⟨String.toList_inj.1 hid,
    String.toList_inj.1 (List.cons.inj (List.append_cancel_left hl)).2⟩

theorem not_mem_numberedName {mark : Char} (hmark : mark ≠ '#' ∧ mark.isDigit = false)
    {name : String} (h : mark ∉ name.toList) (k : Nat) :
    mark ∉ (numberedName name k).toList := by
  rw [toList_numberedName, List.mem_append, not_or]
  refine ⟨h, ?_⟩
  cases k with
  | zero => nofun
  | succ k =>
    intro hm
    rcases List.mem_cons.1 hm with heq | hm
    · exact hmark.1 heq
    · have hdigit := Nat.isDigit_of_mem_toDigits (by decide) (by decide) hm
      rw [hmark.2] at hdigit
      cases hdigit

end Bindery.Schema
