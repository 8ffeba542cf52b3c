/-
  Names from ASCII texts.

  Names are put together from the words of a text.  The words are all of its letters
  and digits, in order, so that the first of these begins the name, and what is asked
  of a name can be told from its first character: letters begin identifiers, and
  keywords, but for one, begin with small letters.

  * `IsWord`, `isWord_spell`: names are spelled as identifiers;
  * `names_ascii`: the names of classes, members and variants can be written.
-/
import Bindery.Proofs.Code.Legal
import Bindery.Proofs.Text.Whitespace

namespace Bindery.Code

open Text

/-! ## Words -/

def isPlain (c : Char) : Bool := c.toNat < 128 && isIdentContinue c

theorem isPlain_case {c : Char} (h : c.toNat < 128) (hc : isAlphanumeric c = true) :
    isPlain c.toUpper = true ∧ isPlain c.toLower = true ∧ c.toUpper.isLower = false ∧
      isAlphabetic c.toUpper = isAlphabetic c := by
  have hall : ∀ n < 128, isAlphanumeric (Char.ofNat n) = true →
      isPlain (Char.ofNat n).toUpper = true ∧ isPlain (Char.ofNat n).toLower = true ∧
        (Char.ofNat n).toUpper.isLower = false ∧
        isAlphabetic (Char.ofNat n).toUpper = isAlphabetic (Char.ofNat n) := by decide
  have hcode := hall c.toNat h
  rw [Char.ofNat_toNat] at hcode
  exact hcode hc

theorem lowerWord_plain {w : List Char} (h : ∀ c ∈ w, c.toNat < 128 ∧ isAlphanumeric c = true) :
    ∀ c ∈ lowerWord w, isPlain c = true := by
  fun_induction lowerWord w with
  | case1 => exact fun _ hc => by cases hc
  | case2 => exact absurd (h 'Σ' List.mem_cons_self).1 (by decide)
  | case3 c rest _ ih =>
    obtain ⟨⟨hascii, hc⟩, hrest⟩ := List.forall_mem_cons.1 h
    rw [toLower, if_pos hascii]
    exact List.forall_mem_cons.2 ⟨(isPlain_case hascii hc).2.1, ih hrest⟩

section
variable {ws : List (List Char)} (h : ∀ c ∈ ws.flatten, c.toNat < 128 ∧ isAlphanumeric c = true)

include h

theorem capitalWords_plain : ∀ c ∈ ws.flatMap capitalWord, isPlain c = true := by
  intro c hc
  obtain ⟨w, hw, hc⟩ := List.mem_flatMap.1 hc
  have hword : ∀ x ∈ w, x.toNat < 128 ∧ isAlphanumeric x = true :=
    fun x hx => h x (List.mem_flatten.2 ⟨w, hw, hx⟩)
  cases w with
  | nil => cases hc
  | cons first rest =>
    obtain ⟨⟨hascii, hfirst⟩, hrest⟩ := List.forall_mem_cons.1 hword
    rw [capitalWord, toUpper, if_pos hascii] at hc
    rcases List.mem_cons.1 hc with rfl | hc
    · exact (isPlain_case hascii hfirst).1
    · exact lowerWord_plain hrest c hc

theorem lowerWords_plain : ∀ c ∈ ['_'].intercalate (ws.map lowerWord), isPlain c = true := by
  have hword : ∀ w ∈ ws, ∀ c ∈ lowerWord w, isPlain c = true := fun w hw =>
    lowerWord_plain fun x hx => h x (List.mem_flatten.2 ⟨w, hw, hx⟩)
  cases ws with
  | nil => exact fun _ hc => by cases hc
  | cons w ws =>
    intro c hc
    rw [List.map_cons, intercalate_cons, List.mem_append, List.flatMap_map] at hc
    rcases hc with hc | hc
    · exact hword w List.mem_cons_self c hc
    · obtain ⟨v, hv, hc⟩ := List.mem_flatMap.1 hc
      rcases List.mem_cons.1 hc with rfl | hc
      · decide
      · exact hword v (List.mem_cons_of_mem _ hv) c hc

theorem head?_capitalWords :
    (ws.flatMap capitalWord).head? = ws.flatten.head?.map Char.toUpper := by
  induction ws with
  | nil => rfl
  | cons w ws ih =>
    cases w with
    | nil => exact ih h
    | cons c w =>
      rw [List.flatMap_cons, capitalWord, toUpper, if_pos (h c List.mem_cons_self).1]
      rfl

end

theorem flatten_sanitize (s : String) :
    (caseWords (sanitize s)).flatten = s.toList.filter isAlphanumeric := by
  have hmark : isAlphanumeric '_' = false := by decide
  have hsame : (isAlphanumeric ∘ fun c => if isAlphanumeric c then c else '_') =
      isAlphanumeric := by
    funext c
    simp only [Function.comp_apply]
    split <;> simp [*]
  rw [flatten_caseWords, sanitize, String.toList_ofList, List.filter_map, hsame]
  exact (List.map_congr_left fun c hc => if_pos (List.mem_filter.1 hc).2).trans (List.map_id _)

/-! ## Identifiers -/

def isName (name : String) : Bool := isIdentifier name.toList && name != "_"

theorem isLegal_of_isName {name : String} (h : isName name = true) : isLegal name = true :=
  isLegal_iff.2 (Bool.and_eq_true_iff.1 h).1

/-- But for `Self`, keywords begin with a small letter. -/
theorem not_mem_keywords {name : String} (h : name.toList.head?.any Char.isLower = false)
    (hself : name ≠ "Self") : name ∉ keywords := by
  have hall : keywords.all (fun word => word == "Self" || word.toList.head?.any Char.isLower) =
      true := by decide
  intro hmem
  simpa [h, hself] using List.all_eq_true.1 hall name hmem

section
variable {base : String} (h : ∀ c ∈ base.toList, isPlain c = true)

include h

theorem isName_of_letter (hstart : startsWithLetter base = true) : isName base = true := by
  rw [isName, Bool.and_eq_true, bne_iff_ne]
  refine ⟨?_, ?_⟩
  · cases hbase : base.toList with
    | nil => simp [startsWithLetter, hbase] at hstart
    | cons c cs =>
      rw [hbase] at h
      obtain ⟨hc, hcs⟩ := List.forall_mem_cons.1 h
      have hascii : c.toNat < 128 := by simpa using (Bool.and_eq_true_iff.1 hc).1
      have hletter : c.isAlpha = true := by
        simpa [startsWithLetter, hbase, isAlphabetic, hascii] using hstart
      rw [isIdentifier, isIdentStart, if_pos hascii, hletter, Bool.true_or, Bool.true_and,
        List.all_eq_true]
      exact fun x hx => (Bool.and_eq_true_iff.1 (hcs x hx)).2
  · rintro rfl
    cases hstart

theorem isName_mark (hne : base ≠ "") : isName ("_" ++ base) = true ∧
    "_" ++ base ∉ keywords ∧ "_" ++ base ∉ reservedTypes := by
  have hlist : ("_" ++ base).toList = '_' :: base.toList := String.toList_append ..
  have hall : base.toList.all isIdentContinue = true :=
    List.all_eq_true.2 fun c hc => (Bool.and_eq_true_iff.1 (h c hc)).2
  have hwords : (keywords ++ reservedTypes).all (·.toList.head? != some '_') = true := by decide
  have hnone : "_" ++ base ∉ keywords ++ reservedTypes := fun hmem => by
    simpa [hlist] using List.all_eq_true.1 hwords _ hmem
  rw [List.mem_append, not_or] at hnone
  refine ⟨?_, hnone⟩
  rw [isName, hlist, isIdentifier, hall, Bool.and_true, Bool.and_eq_true, bne_iff_ne]
  refine ⟨by decide, fun heq => hne ?_⟩
  rw [← String.toList_inj] at heq ⊢
  simpa using heq

end

/-- Whether the text is an identifier of the generated source: a word other than `_`
    that is no keyword, or a keyword that may be written raw. -/
def IsWord (text : String) : Prop :=
  isName text = true ∧ text ∉ keywords ∨
    ∃ word ∈ keywords, word ∉ pathKeywords ∧ text = "r#" ++ word

theorem spell_of_not_mem {name : String} (h : name ∉ keywords) : spell name = name := by
  have hpath : pathKeywords.all keywords.contains = true := by decide
  have hname : name ∉ pathKeywords := fun hmem =>
    h (List.contains_iff_mem.1 (List.all_eq_true.1 hpath name hmem))
  rw [spell, if_neg (by simpa using hname), if_neg (by simpa using h)]

theorem isWord_spell {name : String} (h : isName name = true) : IsWord (spell name) := by
  by_cases hpath : name ∈ pathKeywords
  · have hall : pathKeywords.all (fun word => isName (spell word) &&
        !keywords.contains (spell word)) = true := by decide
    exact .inl (by simpa using List.all_eq_true.1 hall name hpath)
  · by_cases hword : name ∈ keywords
    · exact .inr ⟨name, hword, hpath, by simp [spell, hpath, hword]⟩
    · rw [spell_of_not_mem hword]
      exact .inl ⟨h, hword⟩

/-! ## Derived names -/

section
variable {s : String} (h : ∀ c ∈ s.toList, c.toNat < 128)

include h

theorem words_ascii :
    ∀ c ∈ (caseWords (sanitize s)).flatten, c.toNat < 128 ∧ isAlphanumeric c = true := by
  intro c hc
  rw [flatten_sanitize] at hc
  obtain ⟨hmem, hc⟩ := List.mem_filter.1 hc
  exact ⟨h c hmem, hc⟩

theorem pascal_plain : ∀ c ∈ (pascal (sanitize s)).toList, isPlain c = true := by
  rw [pascal, String.toList_ofList]
  exact capitalWords_plain (words_ascii h)

/-- **A capitalised name begins with the first letter or digit.** -/
theorem head?_pascal : (pascal (sanitize s)).toList.head? =
    (s.toList.filter isAlphanumeric).head?.map Char.toUpper := by
  rw [pascal, String.toList_ofList, head?_capitalWords (words_ascii h), flatten_sanitize]

theorem pascal_capital : (pascal (sanitize s)).toList.head?.any Char.isLower = false := by
  rw [head?_pascal h]
  cases hhead : (s.toList.filter isAlphanumeric).head? with
  | none => rfl
  | some c =>
    obtain ⟨hmem, hc⟩ := List.mem_filter.1 (List.mem_of_mem_head? hhead)
    exact (isPlain_case (h c hmem) hc).2.2.1

theorem className_ascii : isName (className s) = true ∧ className s ∉ keywords ∧
    className s ∉ reservedTypes := by
  have hplain := pascal_plain h
  have hcapital := pascal_capital h
  simp only [className]
  generalize pascal (sanitize s) = base at *
  split
  · decide
  · rename_i hne
    split
    · exact isName_mark hplain (by simpa using hne)
    · rename_i hstart
      split
      · rename_i hreserved
        have hall : reservedTypes.all (fun name => isName (name ++ "Type") &&
            !keywords.contains (name ++ "Type") && !reservedTypes.contains (name ++ "Type")) =
              true := by decide
        simpa [and_assoc] using List.all_eq_true.1 hall base (List.contains_iff_mem.1 hreserved)
      · rename_i hreserved
        have hfree : base ∉ reservedTypes := by simpa using hreserved
        refine ⟨isName_of_letter hplain (by simpa using hstart), not_mem_keywords hcapital ?_, hfree⟩
        rintro rfl
        exact hfree (by decide)

theorem memberName_ascii : isName (memberName s) = true := by
  have hplain : ∀ c ∈ (snake (sanitize s)).toList, isPlain c = true := by
    rw [snake, String.toList_ofList]
    exact lowerWords_plain (words_ascii h)
  simp only [memberName]
  generalize snake (sanitize s) = base at *
  split
  · decide
  · rename_i hne
    split
    · exact (isName_mark hplain (by simpa using hne)).1
    · rename_i hstart
      exact isName_of_letter hplain (by simpa using hstart)

theorem variantName_ascii (hs : s = "" ∨ ∃ c ∈ s.toList, c.isAlphanum = true) :
    isName (variantName s) = true ∧ (variantName s).toList.head?.any Char.isLower = false := by
  have hplain := pascal_plain h
  have hcapital := pascal_capital h
  rcases hs with rfl | ⟨d, hd, halnum⟩
  · decide
  · -- the first letter or digit of the text begins the name
    have hkept : d ∈ s.toList.filter isAlphanumeric := List.mem_filter.2
      ⟨hd, by simpa [isAlphanumeric, isAlphabetic, isNumeric, h d hd, Char.isAlphanum] using halnum⟩
    obtain ⟨c, cs, hfirst⟩ := List.exists_cons_of_ne_nil (List.ne_nil_of_mem hkept)
    obtain ⟨hmem, hc⟩ := List.mem_filter.1 (hfirst ▸ List.mem_cons_self : c ∈ s.toList.filter _)
    have hhead := head?_pascal h
    rw [hfirst] at hhead
    have hempty : ¬ s.isEmpty = true := by
      rw [String.isEmpty_iff]
      rintro rfl
      cases hd
    rw [variantName, if_neg hempty]
    generalize pascal (sanitize s) = base at *
    split
    · refine ⟨(isName_mark hplain ?_).1, by rw [String.toList_append]; rfl⟩
      rintro rfl
      cases hhead
    · rename_i hstart
      refine ⟨isName_of_letter hplain ?_, hcapital⟩
      have hletter : isAlphabetic c = true := by
        cases htext : s.toList with
        | nil => simp [htext] at hd
        | cons x rest =>
          have hx : isAlphabetic x = true := by simpa [startsWithLetter, htext] using hstart
          rw [htext, List.filter_cons_of_pos (by simp [isAlphanumeric, hx])] at hfirst
          rwa [← (List.cons.inj hfirst).1]
      rw [startsWithLetter, hhead]
      exact (isPlain_case (h c hmem) hc).2.2.2.trans hletter

end

/-- **Names from ASCII texts can be written.**  The name of a class is an identifier,
    neither a keyword nor a reserved type; that of a member is one, or a keyword that
    can be spelled; and that of a variant is spelled as an identifier, if the value is
    empty or has a letter or digit. -/
theorem names_ascii {s : String} (h : ∀ c ∈ s.toList, c.toNat < 128) :
    (isName (className s) = true ∧ className s ∉ keywords ∧ className s ∉ reservedTypes) ∧
    (isName (memberName s) = true ∧ IsWord (spell (memberName s))) ∧
    (s = "" ∨ (∃ c ∈ s.toList, c.isAlphanum = true) →
      isLegal (variantName s) = true ∧ isName (spell (variantName s)) = true ∧
        spell (variantName s) ∉ keywords) ∧
    isLegal (className s) = true ∧ isLegal (memberName s) = true := by
  have hclass := className_ascii h
  have hmember := memberName_ascii h
  refine ⟨hclass, ⟨hmember, isWord_spell hmember⟩, fun hs => ?_, isLegal_of_isName hclass.1,
    isLegal_of_isName hmember⟩
  obtain ⟨hvariant, hcapital⟩ := variantName_ascii h hs
  refine ⟨isLegal_of_isName hvariant, ?_⟩
  by_cases hself : variantName s = "Self"
  · rw [hself]
    decide
  · have hword := not_mem_keywords hcapital hself
    rw [spell_of_not_mem hword]
    exact ⟨hvariant, hword⟩

/-- The names from a word that cannot be written raw. -/
theorem names_ascii_self :
    className "self" = "SelfType" ∧ spell (memberName "self") = "self_" ∧
    spell (variantName "self") = "Self_" ∧ className "self" ∉ keywords ∧
    IsWord (spell (memberName "self")) ∧ spell (variantName "self") ∉ keywords := by
  have hascii : ∀ c ∈ "self".toList, c.toNat < 128 := by simp
  obtain ⟨hclass, hmember, hvariant, -⟩ := names_ascii hascii
  exact ⟨by decide, by decide, by decide, hclass.2.1, hmember.2,
    (hvariant (.inr ⟨'s', List.mem_cons_self, rfl⟩)).2.2⟩

end Bindery.Code
