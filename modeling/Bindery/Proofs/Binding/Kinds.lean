/-
  Children of one kind.

  Reading takes a child element to the first slot that has its tag.  Where
  several children of an element share a tag, or a class has the tag of another
  element, it need not be the slot that the child was written for.  It takes the
  child all the same if the two hold values of one kind (`ValueType.Alike`):
  objects of one class, or literals that must be of one data type, or literals
  that may be any text.

  * `ClassFor.leads`: a slot for child elements is for relations of the element;
  * `plan_unmixed`: whatever is written with the tag of a slot is of its kind, if
    the tags of the document tell the kinds of children.
-/
import Bindery.Proofs.Binding.Finite
import Bindery.Proofs.Binding.Members
import Bindery.Proofs.Instance.Legible

namespace Bindery

namespace Schema

open Code (className)
open Markup (isLocalName)

/-- Whether there are literals that are none of the type. -/
def DataType.isStrict : DataType → Bool
  | integer | int | decimal | boolean => true
  | string | normalizedString | token | date | dateTime => false

/-- The type itself, if there are literals that are none of it. -/
def DataType.strict? (type : DataType) : Option DataType := (some type).filter (·.isStrict)

/-- The data type that a literal must be of, under a facet; none where any
    literal will do. -/
def demanded (dataType : Option DataType) (facet : Option Facet) : Option DataType :=
  match Facet.proper facet with
  | some _ => none
  | none => (dataType.getD .string).strict?

/-- The names of elements and attributes have no prefix, and no attribute
    declares a namespace. -/
structure Document.LocalNames (d : Document) : Prop where
  element : ∀ id e, d.elements.get? id = some e → isLocalName e.name = true
  attr : ∀ id a, d.attributes.get? id = some a → isLocalName a.name = true ∧ a.name ≠ "xmlns"

/-- The attributes of an element that becomes a class have different names. -/
def Document.AttributesApart (d : Document) : Prop :=
  ∀ id e, d.Classed id → d.elements.get? id = some e →
    (e.attributeRelations.map d.attributeName).Nodup

def Document.Siblings (d : Document) (a b : Element) : Prop :=
  ∃ id e, d.Classed id ∧ d.elements.get? id = some e ∧
    (∃ r ∈ e.elementRelations, d.elements.get? r.target = some a) ∧
    ∃ r ∈ e.elementRelations, d.elements.get? r.target = some b

/-- The tag of a child tells its kind: literals with one tag must be of the same
    type, and a class whose name is that of a child is never made for the tag of
    a literal beside it. -/
structure Document.KindsByTag (d : Document) : Prop where
  literals : ∀ a b, d.Siblings a b → a.isTextOnly = true → b.isTextOnly = true →
    a.name = b.name → demanded a.dataType a.facet = demanded b.dataType b.facet
  objects : ∀ a b, d.Siblings a b → a.isTextOnly = false → b.isTextOnly = true →
    ∀ id k, d.Classed id → d.elements.get? id = some k → className k.name = className a.name →
      k.name ≠ b.name

/-! Each of these can be checked entry by entry. -/

section
variable {d : Document}

theorem Document.localNames_of_entries
    (helements : ∀ x ∈ d.elements.entries, isLocalName x.2.name = true)
    (hattributes : ∀ x ∈ d.attributes.entries,
      isLocalName x.2.name = true ∧ x.2.name ≠ "xmlns") : d.LocalNames :=
  ⟨fun id e he => helements (id, e) (Table.mem_entries_of_get? he),
    fun id a ha => hattributes (id, a) (Table.mem_entries_of_get? ha)⟩

theorem Document.attributesApart_of_entries
    (h : ∀ x ∈ d.elements.entries, (x.2.attributeRelations.map d.attributeName).Nodup) :
    d.AttributesApart :=
  fun id e _ he => h (id, e) (Table.mem_entries_of_get? he)

/-- Whether the tag of the text-only element `b` tells it from `a`, or both are
    literals of which the same is demanded. -/
def Document.Tells (d : Document) (a b : Element) : Prop :=
  if a.isTextOnly then
    a.name = b.name → demanded a.dataType a.facet = demanded b.dataType b.facet
  else ∀ x ∈ d.elements.entries, className x.2.name = className a.name → x.2.name ≠ b.name

instance (a b : Element) : Decidable (d.Tells a b) :=
  inferInstanceAs (Decidable (ite _ _ _))

theorem Document.kindsByTag_of_entries
    (h : ∀ x ∈ d.elements.entries, ∀ r ∈ x.2.elementRelations, ∀ q ∈ x.2.elementRelations,
      ∀ a ∈ d.elements.get? r.target, ∀ b ∈ d.elements.get? q.target, b.isTextOnly = true →
        d.Tells a b) : d.KindsByTag := by
  have htells : ∀ {a b : Element}, d.Siblings a b → b.isTextOnly = true → d.Tells a b := by
    rintro a b ⟨id, e, -, he, ⟨r, hr, ha⟩, q, hq, hb⟩
    exact h (id, e) (Table.mem_entries_of_get? he) r hr q hq a ha b hb
  constructor
  · intro a b hab hta htb
    have hname := htells hab htb
    rwa [Document.Tells, if_pos hta] at hname
  · intro a b hab hta htb id k _ hk
    have hname := htells hab htb
    rw [Document.Tells, if_neg (by simp [hta])] at hname
    exact hname (id, k) (Table.mem_entries_of_get? hk)

end

end Schema

namespace Binding

open Schema
open Code (className memberName)
open Instance (Classes isSpellable)

/-! ## Kinds -/

namespace ValueType

/-- The data type that literals of the type must be of; none where any literal
    will do. -/
def demanded : ValueType → Option DataType
  | scalar type => type.strict?
  | _ => none

/-- Whether the values are objects of one class, or literals of which the same
    is demanded. -/
def Alike (a b : ValueType) : Prop := a.class? = b.class? ∧ a.demanded = b.demanded

end ValueType

/-- The tag that values of the type are written with in a slot for the tag: an
    object has that of its class. -/
def writtenTag (cs : Classes) (x : String × ValueType) : String :=
  match x.2.class? with
  | some name => ((cs.get? name).map (·.tag)).getD x.1
  | none => x.1

/-- The slots of a class have their shapes, and whatever is written with the tag
    of a slot for child elements is of its kind. -/
structure Class.Unmixed (cs : Classes) (c : Class) : Prop extends c.Shaped where
  alike : ∀ s ∈ c.elements, ∀ t ∈ c.elements, ∀ x ∈ s.children, ∀ y ∈ t.children,
    writtenTag cs x = y.1 → x.2.Alike y.2

/-! ## Where the slots of a class come from -/

section
variable {d : Document} {path : List String} {rs : List Relation} {taken taken' : List String}
  {slots : List Slot} {hs : List Holding} {type : ValueType}

theorem ScalarTyped.isLiteral {label : String} {dataType : Option DataType}
    {facet : Option Facet} (h : ScalarTyped label dataType facet type hs) :
    type.isLiteral = true := by
  cases h <;> rfl

theorem ScalarTyped.demanded_eq {label : String} {dataType : Option DataType}
    {facet : Option Facet} (h : ScalarTyped label dataType facet type hs) :
    type.demanded = Schema.demanded dataType facet := by
  cases h with
  | scalar hnone => simp [Schema.demanded, hnone, ValueType.demanded]
  | enumeration hsome => simp [Schema.demanded, hsome, ValueType.demanded]

theorem Typed.kind {label : String} {boxable : Bool} {target : Element}
    (h : Typed path label boxable target type hs) :
    (target.isTextOnly = true ∧ type.class? = none ∧
        type.demanded = Schema.demanded target.dataType target.facet) ∨
      (target.isTextOnly = false ∧ type.class? = some (className target.name) ∧
        type.demanded = none) := by
  cases h with
  | text htext hscalar =>
    refine .inl ⟨htext, ?_, hscalar.demanded_eq⟩
    have hliteral := hscalar.isLiteral
    cases type with
    | object => cases hliteral
    | _ => rfl
  | object htext hclass => exact .inr ⟨htext, by rw [hclass]; rfl, rfl⟩

/-- Whether the tag and the type of a child are those that one of the relations
    leads to. -/
def Child (d : Document) (path : List String) (rs : List Relation) (x : String × ValueType) :
    Prop :=
  ∃ r ∈ rs, ∃ target label boxable hs, d.elements.get? r.target = some target ∧
    x.1 = target.name ∧ Typed path label boxable target x.2 hs

theorem ElementSlotsFor.leads {all : List Relation} {groups : List String}
    (h : ElementSlotsFor d path all groups taken rs slots taken' hs) (hrs : rs ⊆ all)
    {s : Slot} (hslot : s ∈ slots) :
    s.isElement = true ∧ ∀ x ∈ s.children, Child d path all x := by
  cases h.slotFor hslot with
  | @child r target _ _ hr _ ht hfor =>
    obtain ⟨type, hplace, htyped⟩ := hfor.place
    refine ⟨by simp [Slot.isElement, hplace], fun x hx => ?_⟩
    obtain rfl : x = (target.name, type) := by simpa [Slot.children, hplace] using hx
    exact ⟨r, hrs hr, target, _, _, _, ht, rfl, htyped⟩
  | choice hfor =>
    obtain ⟨union, as, _, hplace, -, has⟩ := hfor.place
    refine ⟨by simp [Slot.isElement, hplace, hfor.many], fun x hx => ?_⟩
    rw [Slot.children, hplace] at hx
    obtain ⟨a, ha, rfl⟩ := List.mem_map.1 hx
    rcases has.exists_relation ha with hnil | ⟨r, hr, target, _, _, ht, -, htag, htyped, -⟩
    · cases hnil
    · exact ⟨r, List.mem_of_mem_filter hr, target, _, _, _, ht, htag, htyped⟩

theorem AttributeSlotsFor.attribute (h : AttributeSlotsFor d taken rs slots taken' hs) {s : Slot}
    (hslot : s ∈ slots) :
    s.isAttribute = true ∧ ∃ id a type, d.attributes.get? id = some a ∧
      s.place = .attr a.name type := by
  obtain ⟨_, -, _, _, _, ha, hfor⟩ := h.exists_relation hslot
  obtain ⟨type, hplace, htyped⟩ := hfor.place
  exact ⟨by simp [Slot.isAttribute, hplace, htyped.isLiteral, hfor.single], _, _, type, ha, hplace⟩

theorem AttributeSlotsFor.tags_sublist (h : AttributeSlotsFor d taken rs slots taken' hs) :
    (slots.flatMap (·.attributeTags)).Sublist (rs.map d.attributeName) := by
  induction h with
  | nil => exact .slnil
  | dangling _ _ ih => exact ih.cons _
  | @cons _ _ r _ a s _ _ _ ha hfor _ ih =>
    obtain ⟨type, hplace, -⟩ := hfor.place
    have htags : s.attributeTags = [d.attributeName r] := by
      simp [Slot.attributeTags, hplace, Document.attributeName, ha]
    rw [List.flatMap_cons, htags, List.map_cons]
    exact ih.cons_cons _

theorem TextSlotFor.isText {e : Element} {text : Option Slot} (h : TextSlotFor taken e text hs) :
    ∀ s ∈ text.toList, s.isText = true := by
  cases h with
  | none => exact fun _ h => by cases h
  | some _ _ htyped =>
    intro s hs
    rw [Option.toList_some, List.mem_singleton] at hs
    rw [hs]
    simp [Slot.isText, htyped.isLiteral]

end

section
variable {site : Site} {path : List String} {e : Element} {c : Class} {hs : List Holding}

theorem ClassFor.leads (h : ClassFor site path e c hs) {s : Slot} (hslot : s ∈ c.elements) :
    s.isElement = true ∧ ∀ x ∈ s.children, Child site.document path e.elementRelations x := by
  obtain ⟨_, _, _, _, _, -, helements, -, -⟩ := h.slots
  exact helements.leads (List.Subset.refl _) hslot

theorem ClassFor.shaped (h : ClassFor site path e c hs)
    (hapart : (e.attributeRelations.map site.document.attributeName).Nodup) : c.Shaped := by
  obtain ⟨_, _, _, _, _, -, -, hattributes, htext⟩ := h.slots
  exact {
    attributes := fun s hs => (hattributes.attribute hs).1
    attributeTags := hattributes.tags_sublist.nodup hapart
    text := htext.isText
    elements := fun s hs => (h.leads hs).1 }

theorem ClassFor.isSpellable (h : ClassFor site path e c hs) (hnames : site.document.LocalNames) :
    ∀ s ∈ c.slots, isSpellable s.place = true := by
  obtain ⟨_, _, _, _, _, -, -, hattributes, htext⟩ := h.slots
  intro s hs
  simp only [Class.slots, List.mem_append] at hs
  rcases hs with (hs | hs) | hs
  · obtain ⟨-, id, a, type, ha, hplace⟩ := hattributes.attribute hs
    simpa [hplace, Instance.isSpellable] using hnames.attr id a ha
  · obtain ⟨type, hplace, -⟩ := isText_place (htext.isText s hs)
    rw [hplace]
    rfl
  · obtain ⟨hshape, hchildren⟩ := h.leads hs
    have hlocal : ∀ x ∈ s.children, Markup.isLocalName x.1 = true := by
      intro x hx
      obtain ⟨r, -, target, _, _, _, ht, htag, -⟩ := hchildren x hx
      rw [htag]
      exact hnames.element _ _ ht
    rcases isElement_place hshape with ⟨tag, type, hplace⟩ | ⟨_, _, as, hplace, -⟩
    · simpa [hplace, Slot.children, Instance.isSpellable] using hlocal
    · simpa [hplace, Slot.children, Instance.isSpellable] using hlocal

end

/-! ## Plans -/

section
variable {site : Site} (hd : site.document.Keyed) {classes : List Class}
  (hok : (plan site).1 = .ok classes)

include hd hok

theorem plan_found {c : Class} (hc : c ∈ classes) : Classes.get? classes c.name = some c := by
  obtain ⟨p, rfl, hp⟩ := (kept_uncontested site hd).plan hd (Uncontested.start _) hok
  exact get?_values hp.keys hp.named c hc

theorem plan_spellable (hnames : site.document.LocalNames) : Classes.Spellable classes := by
  intro c hc
  obtain ⟨id, e, path, hs, -, he, hfor⟩ := plan_rooted site hd hok hc
  exact ⟨hfor.tag ▸ hnames.element id e he, hfor.isSpellable hnames⟩

theorem plan_writtenTag {a : Element} {id : String} (hid : site.document.Classed id)
    (ha : site.document.elements.get? id = some a) {x : String × ValueType} (htag : x.1 = a.name)
    (hclass : x.2.class? = some (className a.name)) :
    ∃ id k, site.document.Classed id ∧ site.document.elements.get? id = some k ∧
      className k.name = className a.name ∧ writtenTag classes x = k.name := by
  cases hget : Classes.get? classes (className a.name) with
  | none => exact ⟨id, a, hid, ha, rfl, by simp [writtenTag, hclass, hget, htag]⟩
  | some c =>
    obtain ⟨hmem, hname⟩ := Classes.mem_of_get? hget
    obtain ⟨id', k, _, _, hid', hk, hfor⟩ := plan_rooted site hd hok hmem
    exact ⟨id', k, hid', hk, hfor.name.symm.trans hname,
      by simp [writtenTag, hclass, hget, hfor.tag]⟩

theorem plan_unmixed (hapart : site.document.AttributesApart)
    (hkinds : site.document.KindsByTag) : ∀ c ∈ classes, c.Unmixed classes := by
  intro c hc
  obtain ⟨id, e, path, hs, hid, he, hfor⟩ := plan_rooted site hd hok hc
  refine { hfor.shaped (hapart id e hid he) with alike := ?_ }
  intro s hs t ht x hx y hy htag
  obtain ⟨r, hr, a, _, _, _, ha, hxa, hxtyped⟩ := (hfor.leads hs).2 x hx
  obtain ⟨q, hq, b, _, _, _, hb, hyb, hytyped⟩ := (hfor.leads ht).2 y hy
  have hab : site.document.Siblings a b := ⟨id, e, hid, he, ⟨r, hr, ha⟩, q, hq, hb⟩
  have hba : site.document.Siblings b a := ⟨id, e, hid, he, ⟨q, hq, hb⟩, r, hr, ha⟩
  rw [hyb] at htag
  rcases hxtyped.kind with ⟨hta, hxc, hxd⟩ | ⟨hta, hxc, hxd⟩
  · -- a literal has the tag of its slot
    have hname : a.name = b.name := by rw [← hxa, ← htag, writtenTag, hxc]
    rcases hytyped.kind with ⟨htb, hyc, hyd⟩ | ⟨htb, -, -⟩
    · exact ⟨hxc.trans hyc.symm, by rw [hxd, hyd, hkinds.literals a b hab hta htb hname]⟩
    · exact absurd hname.symm
        (hkinds.objects b a hba htb hta q.target b (hid.child he hq hb htb) hb rfl)
  · obtain ⟨id', k, hid', hk, hclass, hwritten⟩ :=
      plan_writtenTag hd hok (hid.child he hr ha hta) ha hxa hxc
    have hname : k.name = b.name := hwritten.symm.trans htag
    rcases hytyped.kind with ⟨htb, -, -⟩ | ⟨htb, hyc, hyd⟩
    · exact absurd hname (hkinds.objects a b hab hta htb id' k hid' hk hclass)
    · exact ⟨by rw [hxc, hyc, ← hclass, hname], hxd.trans hyd.symm⟩

end

end Binding

end Bindery
