/-
  Literals that give the value back.

  `Datum.Lossless` says which values of a type survive being written: texts
  that the white space facet of their type leaves alone, numbers in the range of
  their type, truth values, and variants for texts that reading does not take
  apart.  Decimal numbers are left out.

  * `readValue_writeValue`: a lossless value is read from its literal.
-/
import Mathlib.Data.List.Nodup
import Bindery.Instance.Convert
import Bindery.Proofs.Number.Integer

namespace Bindery.Instance

/-! ## Values -/

open Binding Number Schema Text

/-- Whether a value of the scalar type is read from its literal as it was: a
    text that the white space facet leaves alone, a number in range, a truth
    value. -/
def Scalar.Lossless : DataType → Scalar → Prop
  | .integer, .integer n => inRange 64 n = true
  | .int, .integer n => inRange 32 n = true
  | .boolean, .boolean _ => True
  | .string, .text _ => True
  | .normalizedString, .text s => Whitespace.replace.normalize s = s
  | .token, .text s | .date, .text s | .dateTime, .text s => Whitespace.collapse.normalize s = s
  | _, _ => False

/-- Whether a value of the type is read from its literal as it was.  Of an
    enumeration these are the declared variants: one whose text is its own
    collapsed form or, where they are combined, those whose texts are words. -/
def Datum.Lossless : ValueType → Datum → Prop
  | .scalar type, .scalar s => s.Lossless type
  | .enumeration e, .variant name => e.combinable = false ∧ ∃ text,
      e.variants.lookup name = some text ∧ Whitespace.collapse.normalize text = text
  | .enumeration e, .list ds => e.combinable = true ∧ ∀ d ∈ ds, ∃ name text,
      d = .variant name ∧ e.variants.lookup name = some text ∧ text ≠ "" ∧ IsSolid text
  | _, _ => False

theorem readBoolean?_write (b : Bool) :
    Scalar.readBoolean? (Scalar.boolean b).write = some b := by
  cases b <;> decide

theorem Scalar.read_write {type : DataType} {s : Scalar} (h : s.Lossless type) :
    Scalar.read type ((whitespace type).normalize s.write) = .ok s := by
  cases s with
  | text s =>
    cases type with
    | string => rfl
    | normalizedString | token | date | dateTime =>
      have hs : _ = s := h
      simp only [whitespace, Scalar.write, hs]
      rfl
    | integer | int | decimal | boolean => cases h
  | integer n =>
    cases type with
    | integer | int =>
      simp only [whitespace, Whitespace.normalize, Scalar.write, Scalar.read,
        readInteger?_writeInteger h]
      rfl
    | _ => cases h
  | boolean b =>
    cases type with
    | boolean =>
      simp only [whitespace, Whitespace.normalize, Scalar.read, readBoolean?_write]
      rfl
    | _ => cases h
  | decimal x => cases type <;> cases h

/-! ## Variants -/

theorem variantsFrom_texts : ∀ (values taken : List String),
    (Code.variantsFrom taken values).map (·.2) = values
  | [], _ => rfl
  | v :: vs, taken => by
    rw [Code.variantsFrom, List.map_cons, variantsFrom_texts vs]

theorem Enumeration.variants_texts (e : Enumeration) : e.variants.map (·.2) = e.values :=
  variantsFrom_texts e.values _

theorem variantOf_eq {e : Enumeration} (hv : e.values.Nodup) {name text : String}
    (h : e.variants.lookup name = some text) : variantOf e text = name := by
  obtain ⟨before, after, heq, -⟩ := List.lookup_eq_some_iff.1 h
  have hmem : (name, text) ∈ e.variants := by simp [heq]
  have hnodup : (e.variants.map (·.2)).Nodup := (Enumeration.variants_texts e).symm ▸ hv
  rw [variantOf]
  cases hf : e.variants.find? (·.2 == text) with
  | none => exact absurd (List.find?_eq_none.1 hf _ hmem) (by simp)
  | some found =>
    have htext : found.2 = text := by simpa using List.find?_some hf
    have hsame : found = (name, text) :=
      List.inj_on_of_nodup_map hnodup (List.mem_of_find?_eq_some hf) hmem htext
    rw [hsame]

theorem textOf_eq {e : Enumeration} {name text : String}
    (h : e.variants.lookup name = some text) : textOf e name = text := by
  rw [textOf, h, Option.getD_some]

theorem variantOf_words {e : Enumeration} (hv : e.values.Nodup) {ds : List Datum}
    (h : ∀ d ∈ ds, ∃ name text, d = .variant name ∧ e.variants.lookup name = some text ∧
      text ≠ "" ∧ IsSolid text) :
    (words (" ".intercalate (ds.map (variantLiteral e)))).map
      (fun w => Datum.variant (variantOf e w)) = ds := by
  rw [words_intercalate, List.map_map]
  · refine (List.map_congr_left fun d hd => ?_).trans (List.map_id ds)
    obtain ⟨name, text, rfl, hl, -, -⟩ := h d hd
    simp only [Function.comp_apply, variantLiteral, textOf_eq hl, variantOf_eq hv hl, id]
  · intro w hw
    obtain ⟨d, hd, rfl⟩ := List.mem_map.1 hw
    obtain ⟨name, text, rfl, hl, hne, hs⟩ := h d hd
    rw [variantLiteral, textOf_eq hl]
    exact ⟨hne, hs⟩

theorem readValue_writeValue {type : ValueType} {d : Datum} (h : d.Lossless type)
    (hv : ∀ e, type = .enumeration e → e.values.Nodup) :
    readValue type (writeValue type d) = .ok d := by
  cases type with
  | scalar t =>
    cases d with
    | scalar s => simp only [readValue, writeValue, Scalar.read_write h]; rfl
    | _ => cases h
  | enumeration e =>
    cases d with
    | variant name =>
      obtain ⟨hc, text, hl, hn⟩ := h
      simp only [readValue, writeValue, variantLiteral, hc, textOf_eq hl, hn,
        variantOf_eq (hv e rfl) hl]
      rfl
    | list ds =>
      obtain ⟨hc, hds⟩ := h
      simp only [readValue, writeValue, hc, if_true, variantOf_words (hv e rfl) hds]
    | _ => cases h
  | object name boxed => cases d <;> cases h

end Bindery.Instance
