/-
  The pattern tree that grammars are read into.

  An element pattern has child patterns, attribute patterns and references to
  named definitions.  The same type is the body of a definition, whose name it
  then carries, and the nameless wrapper around the start of a grammar.

  `ElementPattern.sameContent` compares two element patterns wherever they
  stand.
-/
import Bindery.Schema.Occurs
import Bindery.Schema.DataType

namespace Bindery.Schema

structure AttributePattern where
  name : String
  /-- How the attribute occurs; made by `Pattern.forAttribute`. -/
  pattern : Pattern := {}
  dataType : Option DataType := none
  facet : Option Facet := none
  /-- The definition that describes the value, if it is given so. -/
  valueReference : Option String := none
deriving DecidableEq, Repr, Inhabited

namespace AttributePattern

def under (name : String) (pattern : Pattern) : AttributePattern :=
  { name, pattern := pattern.forAttribute }

def mergePattern (a : AttributePattern) (pattern : Pattern) : AttributePattern :=
  { a with pattern := (a.pattern.merge pattern).forAttribute }

def isRequired (a : AttributePattern) : Bool :=
  0 < a.pattern.occurs.min

end AttributePattern

/-- A use of a named definition. -/
structure Reference where
  name : String
  /-- The modifiers of the use, which pass on to what is put in its place. -/
  pattern : Pattern := {}
  /-- Whether the reference has been dealt with. -/
  substituted : Bool := false
deriving DecidableEq, Repr, Inhabited

structure ElementPattern where
  name : String := ""
  hasText : Bool := false
  isEmpty : Bool := false
  elements : List ElementPattern := []
  attributes : List AttributePattern := []
  references : List Reference := []
  /-- How the element occurs in its parent. -/
  pattern : Pattern := {}
  dataType : Option DataType := none
  facet : Option Facet := none
deriving Repr, Inhabited

namespace ElementPattern

/-! ## Equality -/

mutual

def decEq : (a b : ElementPattern) → Decidable (a = b)
  | ⟨n₁, t₁, m₁, es₁, as₁, rs₁, p₁, d₁, f₁⟩, ⟨n₂, t₂, m₂, es₂, as₂, rs₂, p₂, d₂, f₂⟩ =>
    if h : n₁ = n₂ ∧ t₁ = t₂ ∧ m₁ = m₂ ∧ as₁ = as₂ ∧ rs₁ = rs₂ ∧ p₁ = p₂ ∧ d₁ = d₂ ∧ f₁ = f₂ then
      match decEqList es₁ es₂ with
      | .isTrue h' =>
        .isTrue (by
          obtain ⟨rfl, rfl, rfl, rfl, rfl, rfl, rfl, rfl⟩ := h
          rw [h'])
      | .isFalse h' => .isFalse (by rintro ⟨⟩; exact h' rfl)
    else .isFalse (by rintro ⟨⟩; exact h ⟨rfl, rfl, rfl, rfl, rfl, rfl, rfl, rfl⟩)

def decEqList : (as bs : List ElementPattern) → Decidable (as = bs)
  | [], [] => .isTrue rfl
  | [], _ :: _ => .isFalse nofun
  | _ :: _, [] => .isFalse nofun
  | a :: as, b :: bs =>
    match decEq a b with
    | .isTrue h =>
      match decEqList as bs with
      | .isTrue h' => .isTrue (by rw [h, h'])
      | .isFalse h' => .isFalse (by rintro ⟨⟩; exact h' rfl)
    | .isFalse h => .isFalse (by rintro ⟨⟩; exact h rfl)

end

instance : DecidableEq ElementPattern := decEq

/-! ## Operations -/

def pushValue (e : ElementPattern) (value : String) : ElementPattern :=
  { e with facet := some ((e.facet.getD {}).push value) }

/-- Whether two patterns describe the same element, wherever each occurs: only
    their occurrence may differ. -/
def sameContent (a b : ElementPattern) : Bool :=
  a = { b with pattern := a.pattern }

def unresolved (e : ElementPattern) : List Reference :=
  e.references.filter (!·.substituted)

mutual

/-- The element and all elements below it, parents first. -/
def walk : ElementPattern → List ElementPattern
  | ⟨n, t, m, es, as, rs, p, d, f⟩ => ⟨n, t, m, es, as, rs, p, d, f⟩ :: walkList es

def walkList : List ElementPattern → List ElementPattern
  | [] => []
  | e :: es => walk e ++ walkList es

end

end ElementPattern

end Bindery.Schema
