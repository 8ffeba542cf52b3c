/-
  Names that functions can be derived from.

  From the name of a member come those of its setter and of the function that
  adds to it, and from a label those of two conversions.  A name is ordinary if
  it is none of such names itself, nor that of a function that reads or writes
  whole documents.

  * `Ordinary.accessor_ne`, `Ordinary.conversion_ne` and
    `Ordinary.accessor_ne_conversion`: what is derived from ordinary names can
    be told apart.
-/
import Bindery.Proofs.Code.Unique

namespace Bindery.Code

def rootFunctionNames : List String := ["parse_string", "parse_file", "write_string", "write_file"]

/-- What stands before a member in the names of functions. -/
def accessMarks : List String := ["set_", "add_"]

/-- What stands after a label in the names of functions. -/
def conversionMarks : List String := ["_from_string", "_to_string"]

/-- Whether a name is not one that is derived from others. -/
structure Ordinary (name : String) : Prop where
  word : name ∉ "set" :: "add" :: rootFunctionNames
  begins : ∀ mark ∈ accessMarks, ¬ mark.toList <+: name.toList
  ends : ∀ mark ∈ conversionMarks, ¬ mark.toList <:+ name.toList

instance : DecidablePred Ordinary := fun name =>
  decidable_of_iff (name ∉ "set" :: "add" :: rootFunctionNames ∧
      (∀ mark ∈ accessMarks, ¬ mark.toList <+: name.toList) ∧
      ∀ mark ∈ conversionMarks, ¬ mark.toList <:+ name.toList)
    ⟨fun h => ⟨h.1, h.2.1, h.2.2⟩, fun h => ⟨h.word, h.begins, h.ends⟩⟩

/-! ## Beginnings and ends -/

theorem prefix_append {p a b : List Char} (h : p <+: a ++ b) :
    p <+: a ∨ ∃ c q, p = a ++ c :: q ∧ c :: q <+: b := by
  obtain ⟨t, ht⟩ := h
  rcases List.append_eq_append_iff.1 ht with ⟨q, rfl, -⟩ | ⟨q, rfl, hb⟩
  · exact .inl (List.prefix_append p q)
  · cases q with
    | nil => exact .inl (by simp)
    | cons c q => exact .inr ⟨c, q, rfl, ⟨t, hb.symm⟩⟩

theorem getLast?_of_suffix {p a b : List Char} (h : p <:+ a ++ b) (hp : p ≠ []) (hb : b ≠ []) :
    p.getLast? = b.getLast? := by
  obtain ⟨t, ht⟩ := h
  have hlast := congrArg List.getLast? ht
  rw [List.getLast?_append_of_ne_nil _ hp, List.getLast?_append_of_ne_nil _ hb] at hlast
  exact hlast

theorem accessMark_cut {mark : String} (h : mark ∈ accessMarks) {a q : List Char}
    (heq : mark.toList = a ++ '_' :: q) : a = "set".toList ∨ a = "add".toList := by
  have hmarks : ∀ mark ∈ accessMarks, '_' ∉ mark.toList.dropLast ∧
      (mark.toList.dropLast = "set".toList ∨ mark.toList.dropLast = "add".toList) := by decide
  obtain ⟨hnot, hwords⟩ := hmarks mark h
  rw [heq] at hnot hwords
  cases q with
  | nil => simpa using hwords
  | cons c q => simp at hnot

theorem conversionMark_last : ∀ mark ∈ conversionMarks, mark.toList ≠ [] ∧
    mark.toList.getLast? = some 'g' := by decide

/-! ## Ordinary names -/

theorem Ordinary.numbered {base : String} (h : Ordinary base) (n : Nat) :
    Ordinary (numbered base n) := by
  cases n with
  | zero => exact h
  | succ n =>
    have hlist := toList_numbered base (n + 1)
    have hdigits : Schema.numberMark [] (n + 1) ≠ [] := Nat.toDigits_ne_nil
    constructor
    case word =>
      intro hmem
      have hwords : ∀ word ∈ "set" :: "add" :: rootFunctionNames,
          word.toList.any Char.isDigit = false := by decide
      obtain ⟨c, hc⟩ := List.exists_mem_of_ne_nil _ hdigits
      have hfalse := List.any_eq_false.1 (hwords _ hmem) c
        (by rw [hlist]; exact List.mem_append_right _ hc)
      exact hfalse (isDigit_of_mem_numberMark hc)
    case begins =>
      intro mark hmark hbegins
      rw [hlist] at hbegins
      rcases prefix_append hbegins with hbase | ⟨c, q, heq, hq⟩
      · exact h.begins mark hmark hbase
      · have hmarks : ∀ mark ∈ accessMarks, mark.toList.getLast? = some '_' := by decide
        have hlast : '_' ∈ c :: q := by
          have hget := hmarks mark hmark
          rw [heq, List.getLast?_append_of_ne_nil _ (List.cons_ne_nil c q)] at hget
          exact List.mem_of_getLast? hget
        exact absurd (isDigit_of_mem_numberMark (hq.subset hlast)) (by decide)
    case ends =>
      intro mark hmark hends
      rw [hlist] at hends
      have hlast := getLast?_of_suffix hends (conversionMark_last mark hmark).1 hdigits
      rw [(conversionMark_last mark hmark).2] at hlast
      exact absurd (isDigit_of_mem_numberMark (List.mem_of_getLast? hlast.symm)) (by decide)

/-- What is added to the name of a child, an attribute or a text. -/
def memberAffixes : List String := ["_list", "_attr", "_text"]

theorem Ordinary.append {base affix : String} (h : Ordinary base) (ha : affix ∈ memberAffixes) :
    Ordinary (base ++ affix) := by
  have hlist : (base ++ affix).toList = base.toList ++ affix.toList := String.toList_append ..
  have haffix : ∀ affix ∈ memberAffixes, affix.toList ≠ [] ∧ affix.toList.head? = some '_' ∧
      affix.toList.getLast? ≠ some 'g' ∧
      ∀ word ∈ "set" :: "add" :: rootFunctionNames, ¬ affix.toList <:+ word.toList := by decide
  obtain ⟨hne, hhead, hlast, hwords⟩ := haffix affix ha
  constructor
  case word =>
    intro hmem
    exact hwords _ hmem (hlist ▸ List.suffix_append _ _)
  case begins =>
    intro mark hmark hbegins
    rw [hlist] at hbegins
    rcases prefix_append hbegins with hbase | ⟨c, q, heq, hq⟩
    · exact h.begins mark hmark hbase
    · obtain ⟨t, ht⟩ := hq
      obtain rfl : c = '_' := by
        rw [← ht] at hhead
        simpa using hhead
      have hbase := accessMark_cut hmark heq
      rw [String.toList_inj, String.toList_inj] at hbase
      exact h.word (by rcases hbase with rfl | rfl <;> simp)
  case ends =>
    intro mark hmark hends
    rw [hlist] at hends
    have heq := getLast?_of_suffix hends (conversionMark_last mark hmark).1 hne
    exact hlast (heq.symm.trans (conversionMark_last mark hmark).2)

/-! ## What is derived from ordinary names -/

section
variable {name mark mark' : String}

theorem Ordinary.accessor_ne (h : Ordinary name) (hm : mark ∈ accessMarks) (x : String) :
    mark ++ x ≠ name := by
  rintro rfl
  refine h.begins mark hm ?_
  rw [String.toList_append]
  exact List.prefix_append _ _

theorem Ordinary.conversion_ne (h : Ordinary name) (hm : mark ∈ conversionMarks) (x : String) :
    x ++ mark ≠ name := by
  rintro rfl
  refine h.ends mark hm ?_
  rw [String.toList_append]
  exact List.suffix_append _ _

theorem Ordinary.accessor_ne_conversion (h : Ordinary name) (hm : mark ∈ accessMarks)
    (hm' : mark' ∈ conversionMarks) (x : String) : mark ++ x ≠ name ++ mark' := by
  intro heq
  have hbegins : mark.toList <+: name.toList ++ mark'.toList := by
    rw [← String.toList_append, ← heq, String.toList_append]
    exact List.prefix_append _ _
  have hmarks : ∀ mark ∈ conversionMarks, mark.toList.head? = some '_' := by decide
  rcases prefix_append hbegins with hname | ⟨c, q, hcut, t, ht⟩
  · exact h.begins mark hm hname
  · obtain rfl : c = '_' := by
      have hhead := hmarks mark' hm'
      rw [← ht] at hhead
      simpa using hhead
    have hword := accessMark_cut hm hcut
    rw [String.toList_inj, String.toList_inj] at hword
    exact h.word (by rcases hword with rfl | rfl <;> simp)

end

theorem accessMarks_ne (x y : String) : "set_" ++ x ≠ "add_" ++ y := by
  intro heq
  have hlist := congrArg String.toList heq
  simp [String.toList_append] at hlist

theorem conversionMarks_ne (x y : String) : x ++ "_from_string" ≠ y ++ "_to_string" := by
  intro heq
  have hfrom : "_from_string".toList <:+ (x ++ "_from_string").toList := by
    rw [String.toList_append]
    exact List.suffix_append _ _
  have hto : "_to_string".toList <:+ (x ++ "_from_string").toList := by
    rw [heq, String.toList_append]
    exact List.suffix_append _ _
  exact absurd (List.suffix_of_suffix_length_le hto hfrom (by decide)) (by decide)

theorem accessor_not_root {mark : String} (hm : mark ∈ accessMarks) (x : String) :
    mark ++ x ∉ rootFunctionNames := by
  intro hmem
  have hroots : ∀ mark ∈ accessMarks, ∀ root ∈ rootFunctionNames,
      ¬ mark.toList <+: root.toList := by decide
  refine hroots mark hm _ hmem ?_
  rw [String.toList_append]
  exact List.prefix_append _ _

theorem conversion_not_root {mark : String} (hm : mark ∈ conversionMarks) (x : String) :
    x ++ mark ∉ rootFunctionNames := by
  intro hmem
  have hroots : ∀ mark ∈ conversionMarks, ∀ root ∈ rootFunctionNames,
      ¬ mark.toList <:+ root.toList := by decide
  refine hroots mark hm _ hmem ?_
  rw [String.toList_append]
  exact List.suffix_append _ _

end Bindery.Code
