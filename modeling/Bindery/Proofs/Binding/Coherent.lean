/-
  Classes that fit together.

  `Coherent` is what reading a value back relies on: the slots of a class have
  the shapes their segment calls for, no two of them want the same tag, the
  class of a child element has the tag of the slot, and a class does not hold
  itself without a box.  All of it can be checked by evaluation.

  `Shaped` is the part of it that writing relies on, where several child
  elements may still want the same tag.
-/
import Bindery.Instance.Datum

namespace Bindery.Binding

namespace ValueType

def isLiteral : ValueType → Bool
  | object .. => false
  | _ => true

def class? : ValueType → Option String
  | object name _ => some name
  | _ => none

end ValueType

namespace Slot

def attributeTags (s : Slot) : List String :=
  match s.place with
  | .attr tag _ => [tag]
  | _ => []

/-- The child elements that go to a slot: their tags, and their types. -/
def children (s : Slot) : List (String × ValueType) :=
  match s.place with
  | .child tag type => [(tag, type)]
  | .choice _ _ alternatives => alternatives.map fun a => (a.tag, a.type)
  | _ => []

def isAttribute (s : Slot) : Bool :=
  match s.place with
  | .attr _ type => type.isLiteral && s.cardinality != .list
  | _ => false

def isText (s : Slot) : Bool :=
  match s.place with
  | .text type => type.isLiteral && s.cardinality == .one
  | _ => false

/-- Whether the slot is one for child elements.  An alternative may always be
    missing. -/
def isElement (s : Slot) : Bool :=
  match s.place with
  | .child .. => true
  | .choice .. => s.cardinality != .one
  | _ => false

end Slot

/-! ## Shapes of slots -/

theorem isAttribute_place {s : Slot} (h : s.isAttribute = true) :
    ∃ tag type, s.place = .attr tag type ∧ type.isLiteral = true ∧ s.cardinality ≠ .list := by
  unfold Slot.isAttribute at h
  split at h
  · rename_i tag type hp
    exact ⟨tag, type, hp, by simpa using h⟩
  · cases h

theorem isText_place {s : Slot} (h : s.isText = true) :
    ∃ type, s.place = .text type ∧ type.isLiteral = true ∧ s.cardinality = .one := by
  unfold Slot.isText at h
  split at h
  · rename_i type hp
    exact ⟨type, hp, by simpa using h⟩
  · cases h

theorem isElement_place {s : Slot} (h : s.isElement = true) :
    (∃ tag type, s.place = .child tag type) ∨
      ∃ union group alternatives, s.place = .choice union group alternatives ∧
        s.cardinality ≠ .one := by
  unfold Slot.isElement at h
  split at h
  · rename_i tag type hp
    exact .inl ⟨tag, type, hp⟩
  · rename_i union group alternatives hp
    exact .inr ⟨union, group, alternatives, hp, by simpa using h⟩
  · cases h

theorem attributeTags_of_isText {s : Slot} (h : s.isText = true) : s.attributeTags = [] := by
  obtain ⟨type, hp, -⟩ := isText_place h
  simp [Slot.attributeTags, hp]

theorem attributeTags_of_isElement {s : Slot} (h : s.isElement = true) : s.attributeTags = [] := by
  rcases isElement_place h with ⟨_, _, hp⟩ | ⟨_, _, _, hp, -⟩ <;> simp [Slot.attributeTags, hp]

theorem children_of_isAttribute {s : Slot} (h : s.isAttribute = true) : s.children = [] := by
  obtain ⟨tag, type, hp, -⟩ := isAttribute_place h
  simp [Slot.children, hp]

theorem children_of_isText {s : Slot} (h : s.isText = true) : s.children = [] := by
  obtain ⟨type, hp, -⟩ := isText_place h
  simp [Slot.children, hp]

/-- Whether a child element of the type has the tag `tag`. -/
def ValueType.bears (cs : Instance.Classes) (tag : String) (type : ValueType) : Bool :=
  match type.class? with
  | some name => (cs.get? name).any (·.tag == tag)
  | none => true

/-- The slots of a class have the shapes their segment calls for, and no two
    attributes have one name. -/
structure Class.Shaped (c : Class) : Prop where
  attributes : ∀ s ∈ c.attributes, s.isAttribute = true
  attributeTags : (c.attributes.flatMap (·.attributeTags)).Nodup
  text : ∀ s ∈ c.text.toList, s.isText = true
  elements : ∀ s ∈ c.elements, s.isElement = true

/-- The slots of a class are read apart, and lead to the classes they name. -/
structure Class.Coherent (cs : Instance.Classes) (c : Class) : Prop where
  attributes : ∀ s ∈ c.attributes, s.isAttribute = true
  attributeTags : (c.attributes.flatMap (·.attributeTags)).Nodup
  text : ∀ s ∈ c.text.toList, s.isText = true
  elements : ∀ s ∈ c.elements, s.isElement = true
  childTags : (c.elements.flatMap (·.children.map (·.1))).Nodup
  bears : ∀ s ∈ c.elements, ∀ x ∈ s.children, x.2.bears cs x.1 = true
  /-- A class that always holds a value holds none of itself. -/
  apart : ∀ s ∈ c.elements, s.cardinality = .one → ∀ x ∈ s.children, x.2.class? ≠ some c.name

theorem Class.Coherent.shaped {cs : Instance.Classes} {c : Class} (h : c.Coherent cs) :
    c.Shaped :=
  ⟨h.attributes, h.attributeTags, h.text, h.elements⟩

instance (cs : Instance.Classes) (c : Class) : Decidable (c.Coherent cs) :=
  decidable_of_iff
    ((∀ s ∈ c.attributes, s.isAttribute = true) ∧
      (c.attributes.flatMap (·.attributeTags)).Nodup ∧ (∀ s ∈ c.text.toList, s.isText = true) ∧
      (∀ s ∈ c.elements, s.isElement = true) ∧
      (c.elements.flatMap (·.children.map (·.1))).Nodup ∧
      (∀ s ∈ c.elements, ∀ x ∈ s.children, x.2.bears cs x.1 = true) ∧
      ∀ s ∈ c.elements, s.cardinality = .one → ∀ x ∈ s.children, x.2.class? ≠ some c.name)
    ⟨fun ⟨h₁, h₂, h₃, h₄, h₅, h₆, h₇⟩ => ⟨h₁, h₂, h₃, h₄, h₅, h₆, h₇⟩,
      fun ⟨h₁, h₂, h₃, h₄, h₅, h₆, h₇⟩ => ⟨h₁, h₂, h₃, h₄, h₅, h₆, h₇⟩⟩

end Bindery.Binding

namespace Bindery.Instance

/-- The classes are found by their names, and fit together. -/
structure Classes.Coherent (cs : Classes) : Prop where
  found : ∀ c ∈ cs, cs.get? c.name = some c
  each : ∀ c ∈ cs, c.Coherent cs
  /-- An enumeration has no text twice. -/
  values : ∀ c ∈ cs, ∀ e ∈ c.enumerations, e.values.Nodup

theorem Classes.Coherent.shaped {cs : Classes} (h : cs.Coherent) : ∀ c ∈ cs, c.Shaped :=
  fun c hc => (h.each c hc).shaped

instance (cs : Classes) : Decidable cs.Coherent :=
  decidable_of_iff
    ((∀ c ∈ cs, cs.get? c.name = some c) ∧ (∀ c ∈ cs, c.Coherent cs) ∧
      ∀ c ∈ cs, ∀ e ∈ c.enumerations, e.values.Nodup)
    ⟨fun ⟨h₁, h₂, h₃⟩ => ⟨h₁, h₂, h₃⟩, fun ⟨h₁, h₂, h₃⟩ => ⟨h₁, h₂, h₃⟩⟩

theorem Classes.mem_of_get? {cs : Classes} {name : String} {c : Binding.Class}
    (h : cs.get? name = some c) : c ∈ cs ∧ c.name = name :=
  ⟨List.mem_of_find?_eq_some h, by simpa using List.find?_some h⟩

end Bindery.Instance
