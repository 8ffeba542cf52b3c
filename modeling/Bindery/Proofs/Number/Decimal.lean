/-
  Numbers are read from their decimals.

  A floating point number is written as a special value or as a decimal, which
  is digits and, behind a point, more digits.  Reading takes every such text,
  whatever the digits are.

  * `isDecimal_positional`: digits with an exponent are written as a decimal;
  * `exists_read?_write`: some number is read from the text of every number.
-/
import Mathlib.Data.List.TakeWhile
import Bindery.Number.Binary64
import Bindery.Proofs.Number.Integer

namespace Bindery.Number

open Text

namespace Binary64

/-! ## Decimals -/

/-- Whether the text is digits and, if there is a point, digits behind it. -/
inductive IsDecimal : List Char → Prop
  | whole {whole : List Char} : isDigits whole = true → IsDecimal whole
  | point {whole fraction : List Char} : isDigits whole = true →
      (∀ c ∈ fraction, c.isDigit = true) → IsDecimal (whole ++ '.' :: fraction)

theorem IsDecimal.mem {cs : List Char} (h : IsDecimal cs) :
    ∀ c ∈ cs, c.isDigit = true ∨ c = '.' := by
  intro c hc
  cases h with
  | whole hwhole => exact .inl ((isDigits_iff.1 hwhole).2 c hc)
  | point hwhole hfraction =>
    rcases List.mem_append.1 hc with hc | hc
    · exact .inl ((isDigits_iff.1 hwhole).2 c hc)
    · rcases List.mem_cons.1 hc with rfl | hc
      · exact .inr rfl
      · exact .inl (hfraction c hc)

theorem IsDecimal.eq_cons {cs : List Char} (h : IsDecimal cs) :
    ∃ c rest, cs = c :: rest ∧ c.isDigit = true := by
  have hfirst : ∀ {whole : List Char}, isDigits whole = true →
      ∃ c rest, whole = c :: rest ∧ c.isDigit = true := by
    intro whole hwhole
    obtain ⟨hne, hdigits⟩ := isDigits_iff.1 hwhole
    obtain ⟨c, rest, rfl⟩ := List.exists_cons_of_ne_nil hne
    exact ⟨c, rest, rfl, hdigits c List.mem_cons_self⟩
  cases h with
  | whole hwhole => exact hfirst hwhole
  | point hwhole _ =>
    obtain ⟨c, rest, rfl, hc⟩ := hfirst hwhole
    exact ⟨c, _, rfl, hc⟩

theorem IsDecimal.readDigits? {cs : List Char} (h : IsDecimal cs) :
    ∃ digits places, Binary64.readDigits? cs = some (digits, places, []) := by
  cases h with
  | whole hwhole =>
    obtain ⟨hne, hdigits⟩ := isDigits_iff.1 hwhole
    have htake : cs.takeWhile Char.isDigit = cs := List.takeWhile_eq_self_iff.2 hdigits
    simp [Binary64.readDigits?, htake, hne]
  | @point whole fraction hwhole hfraction =>
    obtain ⟨hne, hdigits⟩ := isDigits_iff.1 hwhole
    have htake : (whole ++ '.' :: fraction).takeWhile Char.isDigit = whole := by
      rw [List.takeWhile_append_of_pos hdigits,
        List.takeWhile_cons_of_neg (by decide), List.append_nil]
    have hrest : fraction.dropWhile Char.isDigit = [] := List.dropWhile_eq_nil_iff.2 hfraction
    simp [Binary64.readDigits?, htake, hne, hrest]

theorem isDecimal_positional {digits : List Char} (h : isDigits digits = true) (p : Int) :
    IsDecimal (positional digits p) := by
  obtain ⟨hne, hdigits⟩ := isDigits_iff.1 h
  have hzeros : ∀ n, ∀ c ∈ List.replicate n '0', c.isDigit = true := by
    intro n c hc
    rw [List.eq_of_mem_replicate hc]
    decide
  unfold positional
  by_cases hp : 0 ≤ p
  · rw [if_pos hp]
    refine .whole (isDigits_iff.2 ⟨by simp [hne], fun c hc => ?_⟩)
    rcases List.mem_append.1 hc with hc | hc
    · exact hdigits c hc
    · exact hzeros _ c hc
  · rw [if_neg hp]
    dsimp only
    split
    · rename_i hplaces
      -- some digits stand before the point
      refine .point (isDigits_iff.2 ⟨?_, fun c hc => hdigits c (List.mem_of_mem_take hc)⟩)
        fun c hc => hdigits c (List.mem_of_mem_drop hc)
      intro hnil
      rcases List.take_eq_nil_iff.1 hnil with hzero | hnil
      · omega
      · exact hne hnil
    · show IsDecimal (['0'] ++ '.' :: (_ ++ digits))
      refine .point rfl fun c hc => ?_
      rcases List.mem_append.1 hc with hc | hc
      · exact hzeros _ c hc
      · exact hdigits c hc

/-! ## Signs -/

theorem exists_read?_sign (negative : Bool) {cs : List Char} (h : IsDecimal cs) :
    ∃ x, read? ((sign negative).toList ++ cs) = some x := by
  have hsign : splitSign ((sign negative).toList ++ cs) = (negative, cs) := by
    cases negative with
    | true => rfl
    | false =>
      obtain ⟨c, rest, rfl, hc⟩ := h.eq_cons
      exact splitSign_of_isDigit hc rest
  obtain ⟨digits, places, hdigits⟩ := h.readDigits?
  unfold read?
  rw [hsign]
  dsimp only
  split
  · exact ⟨_, rfl⟩
  · exact ⟨_, rfl⟩
  · exact ⟨_, rfl⟩
  · rw [hdigits]
    exact ⟨_, rfl⟩

/-! ## Numbers -/

theorem write_eq (x : Binary64) :
    (write x).toList ∈ ["NaN".toList, "inf".toList, "-inf".toList] ∨
      ∃ negative cs, IsDecimal cs ∧ (write x).toList = (sign negative).toList ++ cs := by
  cases x with
  | nan => exact .inl (by decide)
  | infinite negative => exact .inl (by cases negative <;> decide)
  | finite negative m e =>
    refine .inr ?_
    cases m with
    | zero => exact ⟨negative, ['0'], .whole rfl, by simp [write]⟩
    | succ m =>
      refine ⟨negative, positional (decimal (m + 1) e).1 (decimal (m + 1) e).2, ?_,
        by simp [write]⟩
      exact isDecimal_positional (isDigits_toDigits _) _

def symbols : List Char := ['-', '.', 'N', 'a', 'i', 'n', 'f']

theorem mem_write {x : Binary64} {c : Char} (hc : c ∈ (write x).toList) :
    c.isDigit = true ∨ c ∈ symbols := by
  rcases write_eq x with hspecial | ⟨negative, cs, hcs, heq⟩
  · have hall : ∀ cs ∈ ["NaN".toList, "inf".toList, "-inf".toList],
        cs.all symbols.contains = true := by decide
    exact .inr (by simpa using List.all_eq_true.1 (hall _ hspecial) c hc)
  · rw [heq] at hc
    rcases List.mem_append.1 hc with hc | hc
    · cases negative with
      | true =>
        rw [List.mem_singleton.1 hc]
        exact .inr (by decide)
      | false => cases hc
    · rcases hcs.mem c hc with hdigit | rfl
      · exact .inl hdigit
      · exact .inr (by decide)

theorem exists_read?_write (x : Binary64) :
    ∃ y, read? (trimChars (write x).toList) = some y := by
  have hsolid : ∀ c ∈ (write x).toList, isBlank c = false := by
    intro c hc
    have hsymbols : symbols.all (!isBlank ·) = true := by decide
    rcases mem_write hc with hdigit | hsymbol
    · exact isBlank_of_isDigit hdigit
    · simpa using List.all_eq_true.1 hsymbols c hsymbol
  rw [trimChars_of_solid hsolid]
  rcases write_eq x with hspecial | ⟨negative, cs, hcs, heq⟩
  · have hread : ∀ cs ∈ ["NaN".toList, "inf".toList, "-inf".toList],
        (read? cs).isSome = true := by decide
    exact Option.isSome_iff_exists.1 (hread _ hspecial)
  · rw [heq]
    exact exists_read?_sign negative hcs

end Binary64

end Bindery.Number
