/-
  Names that can be written.

  The names of a generated file are made from those of classes, members and
  variants: they are numbered, words are added to them, and a type takes the
  name of its class and the capitalised name of a member.

  * `isLegal_iff`: the names that can be written are the identifiers, keywords
    among them;
  * `isLegal_append`, `isLegal_unique`, `isLegal_append_pascal`: what is made
    from names that can be written can be written;
  * `isLegal_variants`: so can the variants of an enumeration.
-/
import Bindery.Proofs.Code.Unique
import Bindery.Proofs.Text.Identifier

namespace Bindery.Code

open Text

theorem keywords_identifiers :
    keywords.all (fun word => isIdentifier word.toList) = true := by decide

theorem isLegal_iff {name : String} : isLegal name = true ↔ isIdentifier name.toList = true := by
  rw [isLegal, Bool.or_eq_true, or_iff_right_iff_imp]
  intro hword
  exact List.all_eq_true.1 keywords_identifiers name (List.contains_iff_mem.1 hword)

/-- A class name can be told from a type with another one in it. -/
theorem className_plain (name : String) : '<' ∉ (className name).toList := by
  have hbase : ∀ c ∈ (pascal (sanitize name)).toList, c ≠ '<' := by
    refine caseClosed_ne.pascal ?_
    rintro _ - halpha rfl
    exact absurd halpha (by decide)
  have hplain : '<' ∉ (pascal (sanitize name)).toList := fun h => hbase _ h rfl
  simp only [className]
  split
  · decide
  · split
    · simpa using hplain
    · split
      · simpa using hplain
      · exact hplain

theorem isIdentContinue_of_isDigit {c : Char} (h : c.isDigit = true) : isIdentContinue c = true := by
  have hascii : c.toNat < 128 := by
    simp only [Char.isDigit, Bool.and_eq_true, decide_eq_true_eq, ge_iff_le, UInt32.le_iff_toNat_le]
      at h
    exact Nat.lt_of_le_of_lt h.2 (by decide)
  rw [isIdentContinue, if_pos hascii, Char.isAlphanum, h]
  simp

section
variable {name : String} (h : isLegal name = true)

include h

theorem isIdentContinue_of_isLegal : ∀ c ∈ name.toList, isIdentContinue c = true := by
  intro c hc
  rw [isLegal_iff] at h
  cases hname : name.toList with
  | nil =>
    rw [hname] at hc
    cases hc
  | cons first rest =>
    rw [hname, isIdentifier, Bool.and_eq_true] at h
    rw [hname] at hc
    rcases List.mem_cons.1 hc with rfl | hc
    · exact isIdentContinue_of_isIdentStart h.1
    · exact List.all_eq_true.1 h.2 c hc

theorem isLegal_of_toList {longer : String} {cs : List Char}
    (hlist : longer.toList = name.toList ++ cs) (hcs : cs.all isIdentContinue = true) :
    isLegal longer = true := by
  rw [isLegal_iff] at h ⊢
  cases hname : name.toList with
  | nil =>
    rw [hname] at h
    cases h
  | cons first rest =>
    rw [hname, isIdentifier, Bool.and_eq_true] at h
    rw [hlist, hname, List.cons_append, isIdentifier, List.all_append, h.1, h.2, hcs]
    rfl

theorem isLegal_append {affix : String} (ha : affix.toList.all isIdentContinue = true) :
    isLegal (name ++ affix) = true :=
  isLegal_of_toList h (String.toList_append ..) ha

theorem isLegal_append_pascal {label : String} (hl : isLegal label = true) :
    isLegal (name ++ pascal label) = true :=
  isLegal_append h (List.all_eq_true.2
    (caseClosed_continues.pascal fun c hc _ => isIdentContinue_of_isLegal hl c hc))

theorem isLegal_append_number (n : Nat) : isLegal s!"{name}{n}" = true := by
  have hlist : (s!"{name}{n}").toList = name.toList ++ Nat.toDigits 10 n := by
    simp [Nat.toList_repr, ToString.toString]
  refine isLegal_of_toList h hlist (List.all_eq_true.2 fun c hc => ?_)
  exact isIdentContinue_of_isDigit (Nat.isDigit_of_mem_toDigits (by decide) (by decide) hc)

theorem isLegal_unique (taken : List String) : isLegal (unique taken name) = true := by
  obtain ⟨n, hunique, -⟩ := exists_unique_eq taken name
  rw [hunique, numbered]
  split
  · exact h
  · exact isLegal_append_number h _

theorem isLegal_unique_ite {affix : String} (ha : affix.toList.all isIdentContinue = true)
    {taken : List String} {marked : Prop} [Decidable marked] :
    isLegal (unique taken (if marked then name ++ affix else name)) = true := by
  refine isLegal_unique ?_ taken
  split
  · exact isLegal_append h ha
  · exact h

theorem isLegal_variantCandidate (n : Nat) : isLegal (variantCandidate name n) = true := by
  rw [variantCandidate]
  split
  · exact h
  · split
    · exact isLegal_append h (by decide)
    · exact isLegal_append_number h n

end

theorem isLegal_variants {values : List String}
    (h : ∀ value ∈ values, isLegal (variantName value) = true) :
    ∀ x ∈ variants values, isLegal x.1 = true := by
  have haux : ∀ (values taken : List String), (∀ v ∈ values, isLegal (variantName v) = true) →
      ∀ x ∈ variantsFrom taken values, isLegal x.1 = true := by
    intro values
    induction values with
    | nil =>
      intro _ _ x hx
      cases hx
    | cons value values ih =>
      intro taken hvalues x hx
      rcases List.mem_cons.1 hx with rfl | hx
      · exact isLegal_variantCandidate (hvalues value List.mem_cons_self) _
      · exact ih _ (fun v hv => hvalues v (List.mem_cons_of_mem _ hv)) x hx
  exact haux values _ h

end Bindery.Code
