/-
  Integers and their numerals.

  `Denotes` is what a decimal numeral stands for, of any length and with any
  number of zeros in front.  The range is no part of it: numbers are read from
  their numerals, and then have to fit into a word.

  * `readInteger?_eq_some_iff`: the texts that a number is read from;
  * `read_integerTypes`: the literals of the types of integers.
-/
import Bindery.Instance.Scalar
import Bindery.Proofs.Text.Whitespace

namespace Bindery.Number

/-! ## Digits -/

theorem digitsValue_eq (ds : List Char) : digitsValue ds = Nat.ofDigitChars 10 ds 0 :=
  Nat.ofDigitChars_eq_foldl.symm

theorem digitsValue_toDigits (n : Nat) : digitsValue (Nat.toDigits 10 n) = n := by
  rw [digitsValue_eq, Nat.ofDigitChars_ten_toDigits]

theorem isDigits_iff {cs : List Char} :
    isDigits cs = true ↔ cs ≠ [] ∧ ∀ c ∈ cs, c.isDigit = true := by
  simp [isDigits]

theorem isDigit_of_mem_toDigits {n : Nat} {c : Char} (hc : c ∈ Nat.toDigits 10 n) :
    c.isDigit = true :=
  Nat.isDigit_of_mem_toDigits (by decide) (by decide) hc

theorem isDigits_toDigits (n : Nat) : isDigits (Nat.toDigits 10 n) = true :=
  isDigits_iff.2 ⟨by simp, fun _ => isDigit_of_mem_toDigits⟩

theorem toNat_of_isDigit {c : Char} (h : c.isDigit = true) : 48 ≤ c.toNat ∧ c.toNat ≤ 57 := by
  simpa [Char.isDigit, UInt32.le_iff_toNat_le] using h

theorem isBlank_of_isDigit {c : Char} (h : c.isDigit = true) : Text.isBlank c = false := by
  have hc := toNat_of_isDigit h
  simp [Text.isBlank]
  omega

theorem mem_writeInteger {n : Int} {c : Char} (hc : c ∈ (writeInteger n).toList) :
    c = '-' ∨ c.isDigit = true := by
  rw [writeInteger] at hc
  split at hc
  · rcases List.mem_cons.1 (by simpa using hc : c ∈ '-' :: Nat.toDigits 10 n.natAbs) with hc | hc
    · exact .inl hc
    · exact .inr (isDigit_of_mem_toDigits hc)
  · exact .inr (isDigit_of_mem_toDigits (by simpa using hc))

/-! ## Numerals -/

/-- A decimal numeral and the number it denotes: digits, with a sign or without. -/
inductive Denotes : List Char → Int → Prop
  | plain {ds : List Char} : ds ≠ [] → (∀ c ∈ ds, c.isDigit = true) →
      Denotes ds (Nat.ofDigitChars 10 ds 0)
  | plus {ds : List Char} : ds ≠ [] → (∀ c ∈ ds, c.isDigit = true) →
      Denotes ('+' :: ds) (Nat.ofDigitChars 10 ds 0)
  | minus {ds : List Char} : ds ≠ [] → (∀ c ∈ ds, c.isDigit = true) →
      Denotes ('-' :: ds) (-Nat.ofDigitChars 10 ds 0)

theorem Denotes.solid {cs : List Char} {n : Int} (h : Denotes cs n) :
    ∀ c ∈ cs, Text.isBlank c = false := by
  have hsigned : ∀ {sign : Char} {ds : List Char}, Text.isBlank sign = false →
      (∀ c ∈ ds, c.isDigit = true) → ∀ c ∈ sign :: ds, Text.isBlank c = false := by
    intro sign ds hsign hds c hc
    rcases List.mem_cons.1 hc with rfl | hc
    · exact hsign
    · exact isBlank_of_isDigit (hds c hc)
  cases h with
  | plain _ hds => exact fun c hc => isBlank_of_isDigit (hds c hc)
  | plus _ hds => exact hsigned (by decide) hds
  | minus _ hds => exact hsigned (by decide) hds

theorem denotes_writeInteger (n : Int) : Denotes (writeInteger n).toList n := by
  have hne : Nat.toDigits 10 n.natAbs ≠ [] := by simp
  rw [writeInteger]
  split
  · have h := Denotes.minus hne fun _ => isDigit_of_mem_toDigits
    rw [Nat.ofDigitChars_ten_toDigits, show -(n.natAbs : Int) = n by omega] at h
    simpa using h
  · have h := Denotes.plain hne fun _ => isDigit_of_mem_toDigits
    rw [Nat.ofDigitChars_ten_toDigits, show (n.natAbs : Int) = n by omega] at h
    rwa [String.toList_ofList]

/-! ## Reading -/

theorem splitSign_of_isDigit {c : Char} (hc : c.isDigit = true) (cs : List Char) :
    splitSign (c :: cs) = (false, c :: cs) := by
  rw [splitSign]
  · rintro _ ⟨⟩
    cases hc
  · rintro _ ⟨⟩
    cases hc

theorem splitSign_cases {cs ds : List Char} {negative : Bool} (h : splitSign cs = (negative, ds)) :
    negative = true ∧ cs = '-' :: ds ∨ negative = false ∧ (cs = '+' :: ds ∨ cs = ds) := by
  unfold splitSign at h
  split at h <;> cases h <;> simp

theorem readInteger?_of_splitSign {bits : Nat} {cs ds : List Char} {negative : Bool} {n : Int}
    (h : splitSign cs = (negative, ds)) : readInteger? bits cs = some n ↔
      (ds ≠ [] ∧ ∀ c ∈ ds, c.isDigit = true) ∧ inRange bits n = true ∧
        n = if negative then -(Nat.ofDigitChars 10 ds 0 : Int) else Nat.ofDigitChars 10 ds 0 := by
  rw [readInteger?, h, ← isDigits_iff, ← digitsValue_eq]
  grind

/-- **A number in range is read from its numerals**, and from no other text. -/
theorem readInteger?_eq_some_iff {bits : Nat} {cs : List Char} {n : Int} :
    readInteger? bits cs = some n ↔ inRange bits n = true ∧ Denotes cs n := by
  constructor
  · intro h
    obtain ⟨negative, ds, hsplit⟩ : ∃ negative ds, splitSign cs = (negative, ds) := ⟨_, _, rfl⟩
    obtain ⟨⟨hne, hdigits⟩, hrange, rfl⟩ := (readInteger?_of_splitSign hsplit).1 h
    refine ⟨hrange, ?_⟩
    rcases splitSign_cases hsplit with ⟨rfl, rfl⟩ | ⟨rfl, rfl | rfl⟩
    · exact .minus hne hdigits
    · exact .plus hne hdigits
    · exact .plain hne hdigits
  · rintro ⟨hrange, h⟩
    cases h with
    | plain hne hdigits =>
      obtain ⟨c, rest, rfl⟩ := List.exists_cons_of_ne_nil hne
      exact (readInteger?_of_splitSign (splitSign_of_isDigit (hdigits c List.mem_cons_self) rest)).2
        ⟨⟨hne, hdigits⟩, hrange, rfl⟩
    | plus hne hdigits => exact (readInteger?_of_splitSign rfl).2 ⟨⟨hne, hdigits⟩, hrange, rfl⟩
    | minus hne hdigits => exact (readInteger?_of_splitSign rfl).2 ⟨⟨hne, hdigits⟩, hrange, rfl⟩

theorem readInteger?_trimChars {bits : Nat} {cs : List Char} {n : Int} :
    readInteger? bits (Text.trimChars cs) = some n ↔ inRange bits n = true ∧
      ∃ before numeral after, cs = before ++ numeral ++ after ∧
        (∀ c ∈ before ++ after, Text.isBlank c = true) ∧ Denotes numeral n := by
  rw [readInteger?_eq_some_iff]
  refine and_congr_right fun _ => ⟨fun h => ?_, ?_⟩
  · obtain ⟨before, after, hcs, hblank⟩ := Text.exists_trimmed cs
    exact ⟨before, _, after, hcs, hblank, h⟩
  · rintro ⟨before, numeral, after, rfl, hblank, h⟩
    rwa [Text.trimChars_append hblank, Text.trimChars_of_solid h.solid]

theorem readInteger?_writeInteger {bits : Nat} {n : Int} (h : inRange bits n = true) :
    readInteger? bits (Text.trimChars (writeInteger n).toList) = some n :=
  readInteger?_trimChars.2 ⟨h, [], _, [], by simp, by simp, denotes_writeInteger n⟩

end Bindery.Number

namespace Bindery.Instance

open Number Schema Text

/-! ## Literals -/

/-- The types of integers, with the bits of a word and the name in errors. -/
def integerTypes : List (DataType × Nat × String) := [(.int, 32, "int"), (.integer, 64, "integer")]

theorem read_of_integerTypes {type : DataType} {bits : Nat} {name : String}
    (h : (type, bits, name) ∈ integerTypes) (s : String) : Scalar.read type s =
      Scalar.integer <$> Scalar.checked s name (readInteger? bits (trimChars s.toList)) := by
  simp only [integerTypes, List.mem_cons, Prod.mk.injEq, List.not_mem_nil, or_false] at h
  obtain ⟨rfl, rfl, rfl⟩ | ⟨rfl, rfl, rfl⟩ := h <;> rfl

theorem checked_eq_ok_iff {s name : String} {n : Int} {result : Option Int} :
    Scalar.integer <$> Scalar.checked s name result = .ok (.integer n) ↔ result = some n := by
  cases result <;> simp [Scalar.checked, Functor.map, Except.map]

/-- **A literal of an integer type is a numeral in the range of a word**, with blanks
    around it or without.  All other literals are errors, and a number is read from
    what it is written as, whatever blanks are around it. -/
theorem read_integerTypes {type : DataType} {bits : Nat} {name : String}
    (h : (type, bits, name) ∈ integerTypes) (s : String) :
    (∀ n : Int, Scalar.read type s = .ok (.integer n) ↔
      (-(Nat.pow 2 (bits - 1) : Int) ≤ n ∧ n < Nat.pow 2 (bits - 1)) ∧
        ∃ before numeral after, s.toList = before ++ numeral ++ after ∧
          (∀ c ∈ before ++ after, isBlank c = true) ∧ Denotes numeral n) ∧
    ((∀ n : Int, Scalar.read type s ≠ .ok (.integer n)) →
      Scalar.read type s = .error (.invalidValue s name)) ∧
    ∀ (n : Int) (before after : String),
      -(Nat.pow 2 (bits - 1) : Int) ≤ n → n < Nat.pow 2 (bits - 1) →
      (∀ c ∈ before.toList ++ after.toList, isBlank c = true) →
        Scalar.read type (before ++ (Scalar.integer n).write ++ after) = .ok (.integer n) := by
  have hok : ∀ (s : String) (n : Int), Scalar.read type s = .ok (.integer n) ↔
      (-(Nat.pow 2 (bits - 1) : Int) ≤ n ∧ n < Nat.pow 2 (bits - 1)) ∧
        ∃ before numeral after, s.toList = before ++ numeral ++ after ∧
          (∀ c ∈ before ++ after, isBlank c = true) ∧ Denotes numeral n := by
    intro s n
    rw [read_of_integerTypes h, checked_eq_ok_iff, readInteger?_trimChars]
    simp only [inRange, Bool.and_eq_true, decide_eq_true_eq]
  refine ⟨hok s, fun hno => ?_, fun n before after hmin hmax hblank => ?_⟩
  · simp only [read_of_integerTypes h, ne_eq, checked_eq_ok_iff] at hno ⊢
    rw [Option.eq_none_iff_forall_ne_some.2 hno]
    rfl
  · refine (hok _ n).2 ⟨⟨hmin, hmax⟩, _, _, _, ?_, hblank, denotes_writeInteger n⟩
    rw [String.toList_append, String.toList_append, Scalar.write]

theorem bounds_read :
    Scalar.read .int "\u2003-0002147483648\n" = .ok (.integer (-2147483648)) ∧
    Scalar.read .integer ("\t" ++ (Scalar.integer 9223372036854775807).write ++ " ") =
      .ok (.integer 9223372036854775807) :=
  ⟨((read_integerTypes List.mem_cons_self _).1 _).2 ⟨by decide, ['\u2003'],
    '-' :: "0002147483648".toList, ['\n'], rfl, List.all_eq_true.1 rfl,
    .minus (by decide) (List.all_eq_true.1 rfl)⟩,
  (read_integerTypes (List.mem_cons_of_mem _ List.mem_cons_self) "").2.2 _ "\t" " " (by decide)
    (by decide) (List.all_eq_true.1 rfl)⟩

end Bindery.Instance
