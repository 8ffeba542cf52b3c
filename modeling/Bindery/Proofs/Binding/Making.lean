/-
  How classes are made.

  `ClassFor` says what the class of an element is: which slots it has for which
  relations, what they are called and what they hold.  While it is made, a
  class takes hold of type names and of the classes of other elements
  (`Holding`).

  `Claimed` says what claiming a class name does.  `Kept` is what an invariant of
  planning has to survive: taking a type name, claiming a class name, and entering
  a class that is finished.  `Faults` says how planning fails: at a name that cannot
  be written, or at a class name that two elements want.

  * `Kept.buildClass`: the class of an element is as `ClassFor` says, and the
    invariant accounts for all that it holds;
  * `Kept.createClass`: making a class, with all that is reached from it, keeps
    the invariant, or fails as `Faults` says;
  * `Kept.plan`: the invariant holds of every plan;
  * `exists_plan`: the classes of a generated file are those of a plan.
-/
import Bindery.Code.Compose
import Bindery.Proofs.Binding.Steps
import Bindery.Proofs.Code.Legal

namespace Bindery

namespace Schema

def Document.Keyed (d : Document) : Prop :=
  ∀ id e, d.elements.get? id = some e → e.identifier = id

theorem Document.keyed_of_entries {d : Document}
    (h : ∀ entry ∈ d.elements.entries, entry.2.identifier = entry.1) : d.Keyed :=
  fun _ _ he => h _ (Table.mem_entries_of_get? he)

/-- Whether the names of the document give names that can be written: those of
    elements as classes and as members, those of attributes as members, and the
    values of facets as variants. -/
structure Document.LegalNames (d : Document) : Prop where
  cls : ∀ id e, d.elements.get? id = some e → Code.isLegal (Code.className e.name) = true
  child : ∀ id e, d.elements.get? id = some e → Code.isLegal (Code.memberName e.name) = true
  attr : ∀ id a, d.attributes.get? id = some a → Code.isLegal (Code.memberName a.name) = true
  childValue : ∀ id e, d.elements.get? id = some e → ∀ f ∈ e.facet, ∀ value ∈ f.values,
    Code.isLegal (Code.variantName value) = true
  attrValue : ∀ id a, d.attributes.get? id = some a → ∀ f ∈ a.facet, ∀ value ∈ f.values,
    Code.isLegal (Code.variantName value) = true

instance (d : Document) : Decidable d.LegalNames :=
  decidable_of_iff
    ((∀ id ∈ d.elements.keys, ∀ e ∈ d.elements.get? id,
        Code.isLegal (Code.className e.name) = true ∧ Code.isLegal (Code.memberName e.name) = true ∧
        ∀ f ∈ e.facet, ∀ value ∈ f.values, Code.isLegal (Code.variantName value) = true) ∧
      ∀ id ∈ d.attributes.keys, ∀ a ∈ d.attributes.get? id,
        Code.isLegal (Code.memberName a.name) = true ∧
        ∀ f ∈ a.facet, ∀ value ∈ f.values, Code.isLegal (Code.variantName value) = true)
    ⟨fun h => {
      cls := fun id e he => (h.1 id (Table.mem_keys_of_get? he) e he).1
      child := fun id e he => (h.1 id (Table.mem_keys_of_get? he) e he).2.1
      attr := fun id a ha => (h.2 id (Table.mem_keys_of_get? ha) a ha).1
      childValue := fun id e he => (h.1 id (Table.mem_keys_of_get? he) e he).2.2
      attrValue := fun id a ha => (h.2 id (Table.mem_keys_of_get? ha) a ha).2 },
    fun h => ⟨fun id _ e he => ⟨h.cls id e he, h.child id e he, h.childValue id e he⟩,
      fun id _ a ha => ⟨h.attr id a ha, h.attrValue id a ha⟩⟩⟩

/-- The ways down from some elements through elements that become classes, the
    last element first. -/
inductive Document.Trail (d : Document) (starts : List String) : List String → Prop
  | root {id : String} : id ∈ starts → Trail d starts [id]
  | child {id : String} {path : List String} {e target : Element} {r : Relation} :
      Trail d starts (id :: path) → d.elements.get? id = some e → r ∈ e.elementRelations →
      d.elements.get? r.target = some target → target.isTextOnly = false →
      Trail d starts (r.target :: id :: path)

theorem Element.isTextOnly_of_child (e : Element) {r : Relation} (hr : r ∈ e.elementRelations) :
    e.isTextOnly = false := by
  cases hc : e.elementRelations with
  | nil =>
    rw [hc] at hr
    cases hr
  | cons => simp [isTextOnly, hc]

theorem Element.isTextOnly_of_attribute (e : Element) {r : Relation}
    (hr : r ∈ e.attributeRelations) : e.isTextOnly = false := by
  cases hc : e.attributeRelations with
  | nil =>
    rw [hc] at hr
    cases hr
  | cons => simp [isTextOnly, hc]

end Schema

namespace Binding

open Schema
open Code (className memberName unique isLegal)

/-- What a class takes hold of while it is made: the names of its enumerations
    and unions, and the classes of other elements.  A class is held directly if
    its values stand neither in a box nor in a list. -/
inductive Holding where
  | typeName (name : String)
  | object (id name : String) (direct : Bool)

/-! ## The class of an element -/

inductive ScalarTyped (label : String) (dataType : Option DataType) (facet : Option Facet) :
    ValueType → List Holding → Prop
  | scalar : Facet.proper facet = none →
      ScalarTyped label dataType facet (.scalar (dataType.getD .string)) []
  | enumeration {f : Facet} {name : String} : Facet.proper facet = some f →
      ScalarTyped label dataType facet
        (.enumeration { name, label, values := f.values, combinable := f.combinable })
        [.typeName name]

/-- The type of one value of the element `target`, in a class made on `path`. -/
inductive Typed (path : List String) (label : String) (boxable : Bool) (target : Element) :
    ValueType → List Holding → Prop
  | text {type : ValueType} {hs : List Holding} : target.isTextOnly = true →
      ScalarTyped label target.dataType target.facet type hs → Typed path label boxable target type hs
  | object {cls : String} : target.isTextOnly = false → className target.name = cls →
      Typed path label boxable target (.object cls (boxable && path.contains target.identifier))
        [.object target.identifier cls (boxable && !path.contains target.identifier)]

/-- The slot for a relation to `target` outside of choices. -/
structure ChildSlotFor (path taken : List String) (r : Relation) (target : Element) (s : Slot)
    (hs : List Holding) : Prop where
  member : s.member = unique taken
    (if r.isList then memberName target.name ++ "_list" else memberName target.name)
  item : s.item = memberName target.name
  list : s.cardinality = .list ↔ r.isList = true
  unboxed : s.cardinality = .one → ∀ tag cls, s.place ≠ .child tag (.object cls true)
  place : ∃ type, s.place = .child target.name type ∧
    Typed path s.member (!r.isList) target type hs

/-- The variant for `target`, after the alternatives `made`. -/
def variantFor (made : List Alternative) (target : Element) : String :=
  if made.any (·.name == className target.name) then s!"Alternative{made.length}"
  else className target.name

/-- The alternatives for relations, after the alternatives `made`. -/
inductive AlternativesFor (d : Document) (path : List String) :
    List Alternative → List Relation → List Alternative → List Holding → Prop
  | nil {made : List Alternative} : AlternativesFor d path made [] made []
  | dangling {made as : List Alternative} {r : Relation} {rs : List Relation}
      {hs : List Holding} : d.elements.get? r.target = none → AlternativesFor d path made rs as hs →
      AlternativesFor d path made (r :: rs) as hs
  | cons {made as : List Alternative} {r : Relation} {rs : List Relation} {target : Element}
      {type : ValueType} {hs hs' : List Holding} : d.elements.get? r.target = some target →
      Typed path (memberName target.name) true target type hs →
      AlternativesFor d path (made ++ [⟨variantFor made target, target.name, type⟩]) rs as hs' →
      AlternativesFor d path made (r :: rs) as (hs ++ hs')

theorem AlternativesFor.length_le {d : Document} {path : List String}
    {made as : List Alternative} {rs : List Relation} {hs : List Holding}
    (h : AlternativesFor d path made rs as hs) : made.length ≤ as.length := by
  induction h with
  | nil => exact Nat.le_refl _
  | dangling _ _ ih => exact ih
  | cons _ _ _ ih =>
    rw [List.length_append] at ih
    exact Nat.le_trans (Nat.le_add_right _ _) ih

theorem AlternativesFor.holds_nil {d : Document} {path : List String}
    {made as : List Alternative} {rs : List Relation} {hs : List Holding}
    (h : AlternativesFor d path made rs as hs) (has : as = []) : hs = [] := by
  induction h with
  | nil => rfl
  | dangling _ _ ih => exact ih has
  | cons _ _ hrest _ =>
    have hle := hrest.length_le
    simp [has] at hle

def choiceOf (all : List Relation) (group : String) : List Relation :=
  all.filter (·.choice == some group)

/-- The slot for the choice `group` of the relations `all`. -/
structure ChoiceSlotFor (d : Document) (path taken : List String) (all : List Relation)
    (group : String) (s : Slot) (hs : List Holding) : Prop where
  member : s.member = unique taken
    (if (choiceOf all group).any (·.isList) then "choice_list" else "choice")
  item : s.item = "choice"
  list : s.cardinality = .list ↔ (choiceOf all group).any (·.isList) = true
  many : s.cardinality ≠ .one
  place : ∃ union as hs', s.place = .choice union group as ∧ hs = .typeName union :: hs' ∧
    AlternativesFor d path [] (choiceOf all group) as hs'

/-- The slots for relations to child elements, where the choices `groups` have
    their slots and the member names `taken` are taken, and the names that are
    taken afterwards. -/
inductive ElementSlotsFor (d : Document) (path : List String) (all : List Relation) :
    List String → List String → List Relation → List Slot → List String → List Holding → Prop
  | nil {groups taken : List String} : ElementSlotsFor d path all groups taken [] [] taken []
  | dangling {groups taken taken' : List String} {r : Relation} {rs : List Relation}
      {slots : List Slot} {hs : List Holding} : r.choice = none →
      d.elements.get? r.target = none → ElementSlotsFor d path all groups taken rs slots taken' hs →
      ElementSlotsFor d path all groups taken (r :: rs) slots taken' hs
  | child {groups taken taken' : List String} {r : Relation} {rs : List Relation}
      {target : Element} {s : Slot} {slots : List Slot} {hs hs' : List Holding} : r.choice = none →
      d.elements.get? r.target = some target → ChildSlotFor path taken r target s hs →
      ElementSlotsFor d path all groups (s.member :: taken) rs slots taken' hs' →
      ElementSlotsFor d path all groups taken (r :: rs) (s :: slots) taken' (hs ++ hs')
  | seen {groups taken taken' : List String} {group : String} {r : Relation} {rs : List Relation}
      {slots : List Slot} {hs : List Holding} : r.choice = some group → group ∈ groups →
      ElementSlotsFor d path all groups taken rs slots taken' hs →
      ElementSlotsFor d path all groups taken (r :: rs) slots taken' hs
  | barren {groups taken taken' : List String} {group : String} {r : Relation}
      {rs : List Relation} {slots : List Slot} {hs : List Holding} : r.choice = some group →
      group ∉ groups → AlternativesFor d path [] (choiceOf all group) [] [] →
      ElementSlotsFor d path all (group :: groups) taken rs slots taken' hs →
      ElementSlotsFor d path all groups taken (r :: rs) slots taken' hs
  | choice {groups taken taken' : List String} {group : String} {r : Relation}
      {rs : List Relation} {s : Slot} {slots : List Slot} {hs hs' : List Holding} :
      r.choice = some group → group ∉ groups → ChoiceSlotFor d path taken all group s hs →
      ElementSlotsFor d path all (group :: groups) (s.member :: taken) rs slots taken' hs' →
      ElementSlotsFor d path all groups taken (r :: rs) (s :: slots) taken' (hs ++ hs')

/-- The slot for a relation to the attribute `a`. -/
structure AttributeSlotFor (taken : List String) (r : Relation) (a : Attribute) (s : Slot)
    (hs : List Holding) : Prop where
  member : s.member = unique taken
    (if memberName a.name ∈ taken then memberName a.name ++ "_attr" else memberName a.name)
  item : s.item = s.member
  single : s.cardinality ≠ .list
  optional : s.cardinality = .optional ↔ r.isOptional = true
  place : ∃ type, s.place = .attr a.name type ∧ ScalarTyped s.member a.dataType a.facet type hs

/-- The slots for relations to attributes, and the member names that are taken
    afterwards. -/
inductive AttributeSlotsFor (d : Document) :
    List String → List Relation → List Slot → List String → List Holding → Prop
  | nil {taken : List String} : AttributeSlotsFor d taken [] [] taken []
  | dangling {taken taken' : List String} {r : Relation} {rs : List Relation} {slots : List Slot}
      {hs : List Holding} : d.attributes.get? r.target = none →
      AttributeSlotsFor d taken rs slots taken' hs →
      AttributeSlotsFor d taken (r :: rs) slots taken' hs
  | cons {taken taken' : List String} {r : Relation} {rs : List Relation} {a : Attribute}
      {s : Slot} {slots : List Slot} {hs hs' : List Holding} :
      d.attributes.get? r.target = some a → AttributeSlotFor taken r a s hs →
      AttributeSlotsFor d (s.member :: taken) rs slots taken' hs' →
      AttributeSlotsFor d taken (r :: rs) (s :: slots) taken' (hs ++ hs')

inductive TextSlotFor (taken : List String) (e : Element) : Option Slot → List Holding → Prop
  | none : e.text = false → TextSlotFor taken e none []
  | some {type : ValueType} {hs : List Holding} {member : String} : e.text = true →
      member = unique taken (if "value" ∈ taken then "value_text" else "value") →
      ScalarTyped member e.dataType e.facet type hs →
      TextSlotFor taken e (some ⟨member, member, .one, .text type⟩) hs

/-- The class of the element `e`, made on `path`. -/
structure ClassFor (site : Site) (path : List String) (e : Element) (c : Class)
    (hs : List Holding) : Prop where
  name : c.name = className e.name
  element : c.element = e.identifier
  tag : c.tag = e.name
  root : c.root = (site.rootFunctions && site.document.roots.contains e.identifier)
  slots : ∃ taken taken' hs₁ hs₂ hs₃, hs = hs₁ ++ hs₂ ++ hs₃ ∧
    ElementSlotsFor site.document path e.elementRelations [] [] e.elementRelations c.elements
      taken hs₁ ∧
    AttributeSlotsFor site.document taken e.attributeRelations c.attributes taken' hs₂ ∧
    TextSlotFor taken' e c.text hs₃

/-! ## The relations of slots -/

section
variable {d : Document} {path groups taken taken' : List String} {all rs : List Relation}
  {slots : List Slot} {s : Slot} {hs : List Holding}

theorem AlternativesFor.exists_relation {made as : List Alternative}
    (h : AlternativesFor d path made rs as hs) {a : Alternative} (ha : a ∈ as) :
    a ∈ made ∨ ∃ r ∈ rs, ∃ target made' hs', d.elements.get? r.target = some target ∧
      a.name = variantFor made' target ∧ a.tag = target.name ∧
      Typed path (memberName target.name) true target a.type hs' ∧ hs' ⊆ hs := by
  induction h with
  | nil => exact .inl ha
  | dangling _ _ ih =>
    refine (ih ha).imp_right ?_
    rintro ⟨r, hr, hrest⟩
    exact ⟨r, List.mem_cons_of_mem _ hr, hrest⟩
  | cons ht htyped _ ih =>
    rcases ih ha with hmade | ⟨r, hr, target, made', hs', ht, hname, htag, htyped, hsub⟩
    · rcases List.mem_append.1 hmade with hmade | hnew
      · exact .inl hmade
      · rw [List.mem_singleton.1 hnew]
        exact .inr ⟨_, List.mem_cons_self, _, _, _, ht, rfl, rfl, htyped,
          List.subset_append_left _ _⟩
    · exact .inr ⟨r, List.mem_cons_of_mem _ hr, target, made', hs', ht, hname, htag, htyped,
        fun _ hx => List.mem_append_right _ (hsub hx)⟩

/-- What a slot for child elements is for: one of the relations, or a choice. -/
inductive SlotFor (d : Document) (path : List String) (all rs : List Relation) (s : Slot)
    (hs : List Holding) : Prop
  | child {r : Relation} {target : Element} {taken : List String} {hs' : List Holding} :
      r ∈ rs → r.choice = none → d.elements.get? r.target = some target →
      ChildSlotFor path taken r target s hs' → hs' ⊆ hs → SlotFor d path all rs s hs
  | choice {group : String} {taken : List String} {hs' : List Holding} :
      ChoiceSlotFor d path taken all group s hs' → hs' ⊆ hs → SlotFor d path all rs s hs

theorem SlotFor.mono {rs' : List Relation} {hs' : List Holding} (h : SlotFor d path all rs s hs)
    (hrs : rs ⊆ rs') (hhs : hs ⊆ hs') : SlotFor d path all rs' s hs' := by
  cases h with
  | child hr hc ht hfor hsub => exact .child (hrs hr) hc ht hfor (List.Subset.trans hsub hhs)
  | choice hfor hsub => exact .choice hfor (List.Subset.trans hsub hhs)

theorem ElementSlotsFor.slotFor (h : ElementSlotsFor d path all groups taken rs slots taken' hs)
    (hslot : s ∈ slots) : SlotFor d path all rs s hs := by
  induction h with
  | nil => cases hslot
  | dangling _ _ _ ih | seen _ _ _ ih | barren _ _ _ _ ih =>
    exact (ih hslot).mono (List.subset_cons_self _ _) (List.Subset.refl _)
  | child hc ht hfor _ ih =>
    rcases List.mem_cons.1 hslot with rfl | hslot
    · exact .child List.mem_cons_self hc ht hfor (List.subset_append_left _ _)
    · exact (ih hslot).mono (List.subset_cons_self _ _) (List.subset_append_right _ _)
  | choice _ _ hfor _ ih =>
    rcases List.mem_cons.1 hslot with rfl | hslot
    · exact .choice hfor (List.subset_append_left _ _)
    · exact (ih hslot).mono (List.subset_cons_self _ _) (List.subset_append_right _ _)

theorem AttributeSlotsFor.exists_relation (h : AttributeSlotsFor d taken rs slots taken' hs)
    (hslot : s ∈ slots) : ∃ r ∈ rs, ∃ a taken hs, d.attributes.get? r.target = some a ∧
      AttributeSlotFor taken r a s hs := by
  induction h with
  | nil => cases hslot
  | dangling _ _ ih =>
    obtain ⟨r, hr, hfor⟩ := ih hslot
    exact ⟨r, List.mem_cons_of_mem _ hr, hfor⟩
  | cons ha hfor _ ih =>
    rcases List.mem_cons.1 hslot with rfl | hslot
    · exact ⟨_, List.mem_cons_self, _, _, _, ha, hfor⟩
    · obtain ⟨r, hr, hfor⟩ := ih hslot
      exact ⟨r, List.mem_cons_of_mem _ hr, hfor⟩

end

/-! ## Names that can be written -/

def Slot.Legal (s : Slot) : Prop := ∀ name ∈ s.names, isLegal name = true

def Alternative.Legal (a : Alternative) : Prop :=
  isLegal a.name = true ∧ ∀ e ∈ a.type.enumeration?, isLegal e.label = true

theorem Slot.legal_of_labels {s : Slot} (hmember : isLegal s.member = true)
    (hlabels : ∀ e ∈ s.place.enumerations, isLegal e.label = true)
    (hchoice : ∀ union group as, s.place = .choice union group as →
      isLegal union = true ∧ ∀ a ∈ as, isLegal a.name = true) : s.Legal := by
  intro name hname
  rw [Slot.names] at hname
  rcases List.mem_append.1 hname with hname | hname
  · rcases List.mem_cons.1 hname with rfl | hname
    · exact hmember
    · obtain ⟨e, he, hname⟩ := List.mem_flatMap.1 hname
      rcases List.mem_pair.1 hname with rfl | rfl
      · exact Code.isLegal_append (hlabels e he) (by decide)
      · exact Code.isLegal_append (hlabels e he) (by decide)
  · cases hplace : s.place with
    | attr => rw [hplace] at hname; cases hname
    | text => rw [hplace] at hname; cases hname
    | child => rw [hplace] at hname; cases hname
    | choice union group as =>
      rw [hplace] at hname
      obtain ⟨hunion, has⟩ := hchoice union group as hplace
      rcases List.mem_cons.1 hname with rfl | hname
      · exact hunion
      · obtain ⟨a, ha, rfl⟩ := List.mem_map.1 hname
        exact has a ha

section
variable {d : Document} (hlegal : d.LegalNames) {path taken taken' : List String}
  {hs : List Holding}

theorem ScalarTyped.label_eq {label : String} {dataType : Option DataType} {facet : Option Facet}
    {type : ValueType} (h : ScalarTyped label dataType facet type hs) :
    ∀ e ∈ type.enumeration?, e.label = label := by
  cases h with
  | scalar =>
    intro e he
    cases he
  | enumeration =>
    intro e he
    cases he
    rfl

theorem Typed.label_eq {label : String} {boxable : Bool} {target : Element} {type : ValueType}
    (h : Typed path label boxable target type hs) : ∀ e ∈ type.enumeration?, e.label = label := by
  cases h with
  | text _ hscalar => exact hscalar.label_eq
  | object =>
    intro e he
    cases he

theorem Slot.legal_of_single {s : Slot} {type : ValueType} (hmember : isLegal s.member = true)
    (htypes : s.place.types = [type])
    (hsingle : ∀ union group as, s.place ≠ .choice union group as)
    (hlabel : ∀ e ∈ type.enumeration?, e.label = s.member) : s.Legal := by
  refine Slot.legal_of_labels hmember (fun e he => ?_) fun _ _ _ hplace =>
    absurd hplace (hsingle _ _ _)
  rw [Place.enumerations, htypes] at he
  obtain ⟨_, htype, he⟩ := List.mem_filterMap.1 he
  rw [List.mem_singleton.1 htype] at he
  rw [hlabel e he]
  exact hmember

include hlegal

theorem ChildSlotFor.legal {r : Relation} {target : Element} {s : Slot}
    (h : ChildSlotFor path taken r target s hs) (ht : d.elements.get? r.target = some target) :
    s.Legal := by
  have hname := hlegal.child _ _ ht
  obtain ⟨type, hplace, htyped⟩ := h.place
  refine Slot.legal_of_single ?_ (by rw [hplace]; rfl) (by simp [hplace]) htyped.label_eq
  rw [h.member]
  exact Code.isLegal_unique_ite hname (by decide)

theorem isLegal_variantFor (made : List Alternative) {id : String} {target : Element}
    (ht : d.elements.get? id = some target) : isLegal (variantFor made target) = true := by
  have hword : isLegal "Alternative" = true := by decide
  rw [variantFor]
  split
  · have hlist : (s!"Alternative{made.length}").toList =
        "Alternative".toList ++ Nat.toDigits 10 made.length := by
      simp [Nat.toList_repr, ToString.toString]
    refine Code.isLegal_of_toList hword hlist (List.all_eq_true.2 fun c hc => ?_)
    exact Code.isIdentContinue_of_isDigit
      (Nat.isDigit_of_mem_toDigits (by decide) (by decide) hc)
  · exact hlegal.cls _ _ ht

theorem AlternativesFor.legal {as : List Alternative} {rs : List Relation}
    (h : AlternativesFor d path [] rs as hs) {a : Alternative} (ha : a ∈ as) : a.Legal := by
  rcases h.exists_relation ha with hnil | ⟨_, -, _, made, _, ht, hname, -, htyped, -⟩
  · cases hnil
  · refine ⟨hname ▸ isLegal_variantFor hlegal made ht, fun e he => ?_⟩
    rw [htyped.label_eq e he]
    exact hlegal.child _ _ ht

theorem ChoiceSlotFor.legal {all : List Relation} {group : String} {s : Slot}
    (h : ChoiceSlotFor d path taken all group s hs)
    (hunion : ∀ union group as, s.place = .choice union group as → isLegal union = true) :
    s.Legal := by
  obtain ⟨union, as, hs', hplace, -, has⟩ := h.place
  refine Slot.legal_of_labels ?_ (fun e he => ?_) fun union' group' as' hplace' => ?_
  · rw [h.member]
    refine Code.isLegal_unique ?_ taken
    split <;> decide
  · rw [Place.enumerations, hplace] at he
    obtain ⟨type, htype, he⟩ := List.mem_filterMap.1 he
    obtain ⟨a, ha, rfl⟩ := List.mem_map.1 htype
    exact (has.legal hlegal ha).2 e he
  · refine ⟨hunion _ _ _ hplace', fun a ha => (has.legal hlegal ?_).1⟩
    rw [hplace] at hplace'
    cases hplace'
    exact ha

theorem AttributeSlotsFor.legal {rs : List Relation} {slots : List Slot}
    (h : AttributeSlotsFor d taken rs slots taken' hs) : ∀ s ∈ slots, s.Legal := by
  intro s hs
  obtain ⟨_, -, _, _, _, ha, hslot⟩ := h.exists_relation hs
  obtain ⟨type, hplace, htyped⟩ := hslot.place
  refine Slot.legal_of_single ?_ (by rw [hplace]; rfl) (by simp [hplace]) htyped.label_eq
  rw [hslot.member]
  exact Code.isLegal_unique_ite (hlegal.attr _ _ ha) (by decide)

omit hlegal in
theorem isLegal_textMember (taken : List String) :
    isLegal (unique taken (if "value" ∈ taken then "value_text" else "value")) = true := by
  refine Code.isLegal_unique ?_ taken
  split <;> decide

omit hlegal in
theorem TextSlotFor.legal {e : Element} {slot : Option Slot} (h : TextSlotFor taken e slot hs) :
    ∀ s ∈ slot, s.Legal := by
  cases h with
  | none =>
    intro s hs
    cases hs
  | some _ hmember htyped =>
    intro s hs
    cases hs
    refine Slot.legal_of_single ?_ rfl (by simp) htyped.label_eq
    rw [hmember]
    exact isLegal_textMember taken

end

/-! ## Steps that fail -/

/-- Whether a step from `p` leads to a result and a state with `Q`, or fails and
    leaves a state with `E`. -/
structure Outcome {α : Type} (x : PlanM α) (p : Planning) (Q : α → Planning → Prop)
    (E : GenerateError → Planning → Prop) : Prop where
  ok : Ensures x p Q
  fails : ∀ fault p', x.run p = (.error fault, p') → E fault p'

section
variable {α β : Type} {p : Planning} {x : PlanM α} {f : α → PlanM β} {P : α → Planning → Prop}
  {Q : β → Planning → Prop} {E : GenerateError → Planning → Prop}

theorem Outcome.pure {a : α} (h : P a p) : Outcome (Pure.pure a) p P E where
  ok := .pure h
  fails _ _ hrun := by cases hrun

theorem Outcome.bind (hx : Outcome x p P E) (hf : ∀ a p', P a p' → Outcome (f a) p' Q E) :
    Outcome (x >>= f) p Q E where
  ok := hx.ok.bind fun a p' h => (hf a p' h).ok
  fails fault p' hb := by
    have hrun : (x >>= f).run p = ExceptT.bindCont f (x.run p).1 (x.run p).2 := rfl
    rw [hrun] at hb
    rcases he : x.run p with ⟨e | a, p₁⟩ <;> rw [he] at hb
    · cases hb
      exact hx.fails _ _ he
    · exact (hf a p₁ (hx.ok a p₁ he)).fails fault p' hb

theorem Outcome.mono {P' : α → Planning → Prop} (hx : Outcome x p P E)
    (h : ∀ a p', P a p' → P' a p') : Outcome x p P' E :=
  ⟨hx.ok.mono h, hx.fails⟩

theorem Outcome.throw {fault : GenerateError} (h : E fault p) :
    Outcome (MonadExcept.throw fault) p P E where
  ok := .throw fault
  fails _ _ hrun := by
    cases hrun
    exact h

theorem outcome_get {P : Planning → Planning → Prop} (h : P p p) :
    Outcome (get : PlanM Planning) p P E where
  ok := ensures_get h
  fails _ _ hrun := by cases hrun

theorem outcome_modify {P : PUnit → Planning → Prop} {g : Planning → Planning}
    (h : P PUnit.unit (g p)) : Outcome (modify g : PlanM PUnit) p P E where
  ok := ensures_modify h
  fails _ _ hrun := by cases hrun

end

theorem outcome_tell (n : Notice) (p : Planning) {E : GenerateError → Planning → Prop} :
    Outcome (tell n) p (fun _ p' => p' = { p with notices := p.notices ++ [n] }) E :=
  outcome_modify rfl

theorem outcome_takeTypeName {base : String} {p : Planning} {Q : String → Planning → Prop}
    {E : GenerateError → Planning → Prop} (h : Ensures (takeTypeName base) p Q) :
    Outcome (takeTypeName base) p (fun name p' => Q name p' ∧ ∃ taken, name = unique taken base)
      E where
  ok name p' hrun := by
    refine ⟨h name p' hrun, p.typeNames, ?_⟩
    cases hrun
    rfl
  fails _ _ hrun := by cases hrun

theorem outcome_requireLegal {names : List String} {p : Planning}
    {E : GenerateError → Planning → Prop}
    (h : ∀ name ∈ names, isLegal name = false → E (.illegalName name) p) :
    Outcome (requireLegal names) p (fun _ p' => p' = p) E := by
  rw [requireLegal]
  split
  · rename_i name hname
    exact .throw (h name (List.mem_of_find?_eq_some hname) (by simpa using List.find?_some hname))
  · exact .pure rfl

/-! ## Claiming a class name -/

def Class.typeNames (c : Class) : List String :=
  c.enumerations.map (·.name) ++ c.unions.map (·.1)

/-- **What claiming a class name can do.**  It goes to the element if nobody has
    it; the names of a class that is replaced are given back. -/
inductive Claimed (policy : ConflictPolicy) (name id : String) (p : Planning) :
    Bool → Planning → Prop
  | free : p.owners.get? name = none → Claimed policy name id p true p
  | own : p.owners.get? name = some id → Claimed policy name id p false p
  | keep (notices : List Notice) {previous : String} : policy = .keep →
      p.owners.get? name = some previous → previous ≠ id →
      Claimed policy name id p false { p with notices := notices }
  /-- The other class is not finished yet. -/
  | replace (notices : List Notice) {previous : String} : policy = .replace →
      p.owners.get? name = some previous → previous ≠ id →
      Claimed policy name id p true { p with notices := notices }
  | release (notices : List Notice) {c : Class} {previous : String} : policy = .replace →
      p.classes.get? name = some c → p.owners.get? name = some previous → previous ≠ id →
      Claimed policy name id p true
        { p with typeNames := p.typeNames.filter (· ∉ c.typeNames), notices := notices }

theorem outcome_release (name : String) (p : Planning) {E : GenerateError → Planning → Prop} :
    Outcome (release name) p (fun _ p' => p' = p ∨ ∃ c, p.classes.get? name = some c ∧
      p' = { p with typeNames := p.typeNames.filter (· ∉ c.typeNames) }) E := by
  refine outcome_modify ?_
  cases hc : p.classes.get? name with
  | none => exact .inl rfl
  | some c => exact .inr ⟨c, rfl, rfl⟩

theorem outcome_claimName {policy : ConflictPolicy} {name id : String} {p : Planning}
    {E : GenerateError → Planning → Prop}
    (h : ∀ previous, policy = .error → p.owners.get? name = some previous → previous ≠ id →
      E (.conflict name previous id) p) :
    Outcome (claimName policy name id) p (Claimed policy name id p) E := by
  rw [claimName]
  refine .bind (outcome_get (P := fun q p' => q = p ∧ p' = p) ⟨rfl, rfl⟩) ?_
  rintro _ _ ⟨rfl, rfl⟩
  rename_i p
  cases ho : p.owners.get? name with
  | none => exact .pure (.free ho)
  | some previous =>
    dsimp only
    split
    · rename_i hid
      exact .pure (.own (hid ▸ ho))
    · rename_i hid
      cases policy with
      | replace =>
        refine .bind (outcome_tell _ p) ?_
        rintro _ _ rfl
        refine .bind (outcome_release name _) ?_
        rintro _ _ (rfl | ⟨c, hc, rfl⟩)
        · exact .pure (.replace _ rfl ho hid)
        · exact .pure (.release _ rfl hc ho hid)
      | keep =>
        refine .bind (outcome_tell _ p) ?_
        rintro _ _ rfl
        exact .pure (.keep _ rfl ho hid)
      | error => exact .throw (h previous rfl ho hid)

/-! ## Invariants of planning -/

/-- What it takes for `I` to be an invariant of planning from `starts`.
    `I path held p` says that `p` is in order while classes are made for the
    elements of `path`, which hold `held`.  `Done` is what is known of a class
    once it was asked for. -/
structure Kept (site : Site) (starts : List String)
    (I : List String → List Holding → Planning → Prop) (Done : String → Element → Planning → Prop) :
    Prop where
  tell : ∀ {path held p} notices, I path held p → I path held { p with notices := notices }
  drop : ∀ {path held name p}, I path (held ++ [.typeName name]) p → I path held p
  /-- An enumeration or a union takes its name. -/
  take : ∀ {own rest e held p affix}, site.document.elements.get? own = some e →
    site.document.Trail starts (own :: rest) → (e.isTextOnly = false ∨ affix ≠ "") →
    I (own :: rest) held p →
    Ensures (takeTypeName (className e.name ++ affix)) p fun name p' =>
      I (own :: rest) (held ++ [.typeName name]) p'
  /-- A member refers to a class. -/
  object : ∀ {path id e held p} boxable, site.document.elements.get? id = some e →
    I path held p → Done id e p →
    I path (held ++ [.object id (className e.name) (boxable && !path.contains id)]) p
  onPath : ∀ {path id e held p}, site.document.elements.get? id = some e → id ∈ path →
    I path held p → Done id e p
  /-- A class name is claimed, and the class is begun if there is one to make. -/
  claim : ∀ {path id e held p free p'}, site.document.elements.get? id = some e → id ∉ path →
    site.document.Trail starts (id :: path) → I path held p →
    Claimed site.policy (className e.name) id p free p' →
      (free = true → I (id :: path) held
        { p' with owners := p'.owners.insert (className e.name) id }) ∧
      (free = false → I path held p' ∧ Done id e p')
  enter : ∀ {path id e held hs p c}, site.document.elements.get? id = some e → id ∉ path →
    site.document.Trail starts (id :: path) → I (id :: path) (held ++ hs) p →
    ClassFor site (id :: path) e c hs →
    I path held { p with classes := p.classes.insert (className e.name) c } ∧
      Done id e { p with classes := p.classes.insert (className e.name) c }

/-- What it takes for planning with the invariant `I` to fail only as `E` says.
    `E path fault p` is about faults below the elements of `path`. -/
structure Faults (site : Site) (starts : List String)
    (I : List String → List Holding → Planning → Prop)
    (E : List String → GenerateError → Planning → Prop) : Prop where
  illegal : ∀ {path held p} name, ¬ site.document.LegalNames → I path held p →
    E path (.illegalName name) p
  /-- The class name of an element has another owner. -/
  conflict : ∀ {path id e held p previous}, site.document.elements.get? id = some e →
    site.document.Trail starts (id :: path) → I path held p → site.policy = .error →
    p.owners.get? (className e.name) = some previous → previous ≠ id →
    E path (.conflict (className e.name) previous id) p
  unwind : ∀ {path id e fault p}, site.document.elements.get? id = some e → id ∉ path →
    site.document.Trail starts (id :: path) → E (id :: path) fault p → E path fault p

theorem faults_true (site : Site) (starts : List String)
    (I : List String → List Holding → Planning → Prop) :
    Faults site starts I fun _ _ _ => True where
  illegal _ _ _ := trivial
  conflict _ _ _ _ _ _ := trivial
  unwind _ _ _ _ := trivial

/-- Whether `create` makes the classes of elements below `path`, gives their
    names and keeps the invariant, or fails as `E` says. -/
def Creates (site : Site) (starts : List String)
    (I : List String → List Holding → Planning → Prop) (Done : String → Element → Planning → Prop)
    (E : List String → GenerateError → Planning → Prop) (path : List String)
    (create : String → PlanM (Option String)) : Prop :=
  ∀ held id e p, site.document.elements.get? id = some e →
    site.document.Trail starts (id :: path) → I path held p →
    Outcome (create id) p (fun name p' => name = some (className e.name) ∧ I path held p' ∧
      Done id e p') (E path)

namespace Kept

variable {site : Site} {starts : List String} {I : List String → List Holding → Planning → Prop}
  {Done : String → Element → Planning → Prop} (h : Kept site starts I Done)
  {E : List String → GenerateError → Planning → Prop} (hf : Faults site starts I E)

section
variable (hd : site.document.Keyed) {own : String} {rest : List String} {e : Element}
  (he : site.document.elements.get? own = some e)
  (htrail : site.document.Trail starts (own :: rest))
  {create : String → PlanM (Option String)}
  (hcreate : Creates site starts I Done E (own :: rest) create)
  {held : List Holding} {p : Planning}

include h hf he htrail in
theorem scalarType {label : String} (hlabel : e.isTextOnly = false ∨ label = "value")
    (dataType : Option DataType) {facet : Option Facet}
    (hlegal : site.document.LegalNames → isLegal label = true ∧
      ∀ f ∈ facet, ∀ value ∈ f.values, isLegal (Code.variantName value) = true)
    (hp : I (own :: rest) held p) :
    Outcome (Binding.scalarType (className e.name) label dataType facet) p (fun type p' =>
      ∃ hs, ScalarTyped label dataType facet type hs ∧ I (own :: rest) (held ++ hs) p')
      (E (own :: rest)) := by
  rw [Binding.scalarType]
  cases hproper : Facet.proper facet with
  | none => exact .pure ⟨[], .scalar hproper, by simpa using hp⟩
  | some f =>
    have hfacet : f ∈ facet := (Option.filter_eq_some_iff.1 hproper).1
    have haffix : e.isTextOnly = false ∨ Text.pascal label ≠ "" :=
      hlabel.imp_right fun heq => by rw [heq]; decide
    refine .bind (outcome_takeTypeName (h.take he htrail haffix hp)) ?_
    rintro name p₁ ⟨h₁, taken, hname⟩
    refine .bind
      (outcome_requireLegal fun bad hbad hillegal => hf.illegal bad (fun hnames => ?_) h₁) ?_
    · obtain ⟨hlabel, hvalues⟩ := hlegal hnames
      have hname' : isLegal name = true :=
        hname ▸ Code.isLegal_unique (Code.isLegal_append_pascal (hnames.cls _ _ he) hlabel) taken
      have hlegalBad : isLegal bad = true := by
        rcases List.mem_cons.1 hbad with rfl | hbad
        · exact hname'
        · obtain ⟨x, hx, rfl⟩ := List.mem_map.1 hbad
          exact Code.isLegal_variants (hvalues f hfacet) x hx
      rw [hlegalBad] at hillegal
      cases hillegal
    · rintro _ _ rfl
      exact .pure ⟨[.typeName name], .enumeration hproper, h₁⟩

include h hf hd he htrail hcreate in
theorem childType {r : Relation} (hr : r ∈ e.elementRelations) {target : Element}
    (ht : site.document.elements.get? r.target = some target) {label : String}
    (hlabel : site.document.LegalNames → isLegal label = true) (boxable : Bool)
    (hp : I (own :: rest) held p) :
    Outcome
      (Binding.childType (pure (own :: rest)) create (className e.name) label boxable target) p
      (fun found p' => ∃ type hs, found = some type ∧
        Typed (own :: rest) label boxable target type hs ∧ I (own :: rest) (held ++ hs) p')
      (E (own :: rest)) := by
  rw [Binding.childType]
  have hown : e.isTextOnly = false := e.isTextOnly_of_child hr
  split
  · rename_i htext
    refine .bind (h.scalarType hf he htrail (.inl hown) _
      (fun hnames => ⟨hlabel hnames, hnames.childValue _ _ ht⟩) hp) ?_
    rintro type p₁ ⟨hs, htyped, h₁⟩
    exact .pure ⟨type, hs, rfl, .text htext htyped, h₁⟩
  · rename_i htext
    have htext' : target.isTextOnly = false := by simpa using htext
    have hid : target.identifier = r.target := hd _ _ ht
    rw [hid]
    refine .bind (hcreate held r.target target p ht (htrail.child he hr ht htext') hp) ?_
    rintro _ p₁ ⟨rfl, h₁, hdone⟩
    simp only [pure_bind]
    refine .pure ⟨_, _, rfl, ?_, h.object boxable ht h₁ hdone⟩
    rw [← hid]
    exact .object htext' rfl

include h hf hd he htrail hcreate in
theorem childSlot {r : Relation} (hr : r ∈ e.elementRelations) (taken : List String)
    (hp : I (own :: rest) held p) :
    Outcome (Binding.childSlot site.document (pure (own :: rest)) create (className e.name) taken
        r) p
      (fun found p' =>
        (site.document.elements.get? r.target = none ∧ found = (none, taken) ∧
          I (own :: rest) held p') ∨
        ∃ target s hs, site.document.elements.get? r.target = some target ∧
          found = (some s, s.member :: taken) ∧ ChildSlotFor (own :: rest) taken r target s hs ∧
          I (own :: rest) (held ++ hs) p')
      (E (own :: rest)) := by
  rw [Binding.childSlot]
  cases ht : site.document.elements.get? r.target with
  | none =>
    refine .bind (outcome_tell _ p) ?_
    rintro _ _ rfl
    exact .pure (.inl ⟨rfl, rfl, h.tell _ hp⟩)
  | some target =>
    dsimp only
    generalize hmember : unique taken
      (if r.isList then memberName target.name ++ "_list" else memberName target.name) = member
    have hlabel : site.document.LegalNames → isLegal member = true := by
      intro hnames
      rw [← hmember]
      exact Code.isLegal_unique_ite (hnames.child _ _ ht) (by decide)
    refine .bind (h.childType hf hd he htrail hcreate hr ht hlabel (!r.isList) hp) ?_
    rintro _ p₁ ⟨type, hs, rfl, htyped, h₁⟩
    refine .pure (.inr ⟨target, _, hs, rfl, rfl, ?_, h₁⟩)
    constructor <;> dsimp only
    case member => exact hmember.symm
    case list =>
      have hsingle : ∀ b : Bool, (if b = true then Cardinality.optional else .one) ≠ .list := by
        decide
      cases r.isList with
      | true => simp
      | false =>
        simp only [Bool.false_eq_true, if_false, iff_false]
        exact hsingle _
    case unboxed =>
      rintro hone tag cls ⟨⟩
      cases hlist : r.isList <;> simp [hlist] at hone
    case place => exact ⟨type, rfl, htyped⟩

include h hf hd he htrail hcreate in
theorem alternatives : ∀ (rs : List Relation) (made : List Alternative) {held : List Holding}
    {p : Planning}, (∀ r ∈ rs, r ∈ e.elementRelations) → I (own :: rest) held p →
    Outcome (Binding.alternatives site.document (pure (own :: rest)) create (className e.name) made
        rs) p
      (fun as p' => ∃ hs, AlternativesFor site.document (own :: rest) made rs as hs ∧
        I (own :: rest) (held ++ hs) p') (E (own :: rest))
  | [], made, held, p, _, hp => by
    rw [Binding.alternatives]
    exact .pure ⟨[], .nil, by simpa using hp⟩
  | r :: rs, made, held, p, hrs, hp => by
    have hrs' : ∀ q ∈ rs, q ∈ e.elementRelations := fun q hq => hrs q (List.mem_cons_of_mem _ hq)
    rw [Binding.alternatives]
    cases ht : site.document.elements.get? r.target with
    | none =>
      refine .bind (outcome_tell _ p) ?_
      rintro _ _ rfl
      refine (alternatives rs made hrs' (h.tell _ hp)).mono ?_
      rintro as p' ⟨hs, has, hp'⟩
      exact ⟨hs, .dangling ht has, hp'⟩
    | some target =>
      refine .bind (h.childType hf hd he htrail hcreate (hrs r List.mem_cons_self) ht
        (fun hnames => hnames.child _ _ ht) _ hp) ?_
      rintro _ p₁ ⟨type, hs, rfl, htyped, h₁⟩
      refine (alternatives rs _ hrs' h₁).mono ?_
      rintro as p' ⟨hs', has, hp'⟩
      exact ⟨hs ++ hs', .cons ht htyped has, by rwa [← List.append_assoc]⟩

include h hf hd he htrail hcreate in
theorem choiceSlot {r : Relation} (hr : r ∈ e.elementRelations) (taken : List String)
    (group : String) (hp : I (own :: rest) held p) :
    Outcome (Binding.choiceSlot site.document (pure (own :: rest)) create (className e.name) taken
      group e.elementRelations) p (fun found p' =>
        (found = (none, taken) ∧ AlternativesFor site.document (own :: rest) []
          (choiceOf e.elementRelations group) [] [] ∧ I (own :: rest) held p') ∨
        ∃ s hs, found = (some s, s.member :: taken) ∧
          ChoiceSlotFor site.document (own :: rest) taken e.elementRelations group s hs ∧
          (site.document.LegalNames → s.Legal) ∧ I (own :: rest) (held ++ hs) p')
      (E (own :: rest)) := by
  rw [Binding.choiceSlot]
  have hown : e.isTextOnly = false := e.isTextOnly_of_child hr
  refine .bind (outcome_takeTypeName (h.take he htrail (.inl hown) hp)) ?_
  rintro union p₁ ⟨h₁, names, hunion⟩
  refine .bind (h.alternatives hf hd he htrail hcreate _ []
    (fun r hr => List.mem_of_mem_filter hr) h₁) ?_
  rintro as p₂ ⟨hs, has, h₂⟩
  cases as with
  | nil =>
    obtain rfl := has.holds_nil rfl
    exact .pure (.inl ⟨rfl, has, h.drop (by simpa using h₂)⟩)
  | cons a as =>
    dsimp only
    generalize hs' : (⟨unique taken _, "choice", _, _⟩ : Slot) = s
    have hslot : ChoiceSlotFor site.document (own :: rest) taken e.elementRelations group s
        (.typeName union :: hs) := by
      subst hs'
      refine ⟨rfl, rfl, ?_, ?_, union, a :: as, hs, rfl, rfl, has⟩
      · rw [choiceOf]
        split <;> simp_all
      · dsimp only
        split <;> simp
    have hmember : unique taken _ = s.member := congrArg Slot.member hs'
    rw [hmember]
    refine .pure (.inr ⟨s, _, rfl, hslot, fun hnames => hslot.legal hnames ?_, by simpa using h₂⟩)
    intro union' group' as' hplace
    subst hs'
    cases hplace
    rw [hunion]
    exact Code.isLegal_unique (Code.isLegal_append (hnames.cls _ _ he) (by decide)) names

include h hf hd he htrail hcreate in
theorem elementSlots : ∀ (rs : List Relation) (groups taken : List String) {held : List Holding}
    {p : Planning}, (∀ r ∈ rs, r ∈ e.elementRelations) → I (own :: rest) held p →
    Outcome (Binding.elementSlots site.document (pure (own :: rest)) create (className e.name)
      e.elementRelations groups taken rs) p (fun found p' =>
        ∃ hs, ElementSlotsFor site.document (own :: rest) e.elementRelations groups taken rs
          found.1 found.2 hs ∧ (site.document.LegalNames → ∀ s ∈ found.1, s.Legal) ∧
          I (own :: rest) (held ++ hs) p') (E (own :: rest))
  | [], groups, taken, held, p, _, hp => by
    rw [Binding.elementSlots]
    exact .pure ⟨[], .nil, fun _ s hs => (by cases hs), by simpa using hp⟩
  | r :: rs, groups, taken, held, p, hrs, hp => by
    have hr : r ∈ e.elementRelations := hrs r List.mem_cons_self
    have hrs' : ∀ q ∈ rs, q ∈ e.elementRelations := fun q hq => hrs q (List.mem_cons_of_mem _ hq)
    rw [Binding.elementSlots]
    cases hc : r.choice with
    | none =>
      refine .bind (h.childSlot hf hd he htrail hcreate hr taken hp) ?_
      rintro _ p₁ (⟨ht, rfl, h₁⟩ | ⟨target, s, hs, ht, rfl, hslot, h₁⟩)
      · refine .bind (elementSlots rs groups taken hrs' h₁) ?_
        rintro ⟨slots, taken'⟩ p₂ ⟨hs, hslots, hlegal, h₂⟩
        exact .pure ⟨hs, .dangling hc ht hslots, hlegal, h₂⟩
      · refine .bind (elementSlots rs groups _ hrs' h₁) ?_
        rintro ⟨slots, taken'⟩ p₂ ⟨hs', hslots, hlegal, h₂⟩
        refine .pure ⟨hs ++ hs', .child hc ht hslot hslots, fun hnames => ?_,
          by rwa [← List.append_assoc]⟩
        exact List.forall_mem_cons.2 ⟨hslot.legal hnames ht, hlegal hnames⟩
    | some group =>
      dsimp only
      split
      · rename_i hgroup
        refine (elementSlots rs groups taken hrs' hp).mono ?_
        rintro found p' ⟨hs, hslots, hlegal, hp'⟩
        exact ⟨hs, .seen hc hgroup hslots, hlegal, hp'⟩
      · rename_i hgroup
        refine .bind (h.choiceSlot hf hd he htrail hcreate hr taken group hp) ?_
        rintro _ p₁ (⟨rfl, has, h₁⟩ | ⟨s, hs, rfl, hslot, hs', h₁⟩)
        · refine .bind (elementSlots rs (group :: groups) taken hrs' h₁) ?_
          rintro ⟨slots, taken'⟩ p₂ ⟨hs, hslots, hlegal, h₂⟩
          exact .pure ⟨hs, .barren hc hgroup has hslots, hlegal, h₂⟩
        · refine .bind (elementSlots rs (group :: groups) _ hrs' h₁) ?_
          rintro ⟨slots, taken'⟩ p₂ ⟨hs'', hslots, hlegal, h₂⟩
          refine .pure ⟨hs ++ hs'', .choice hc hgroup hslot hslots, fun hnames => ?_,
            by rwa [← List.append_assoc]⟩
          exact List.forall_mem_cons.2 ⟨hs' hnames, hlegal hnames⟩

include h hf he htrail in
theorem attributeSlots : ∀ (rs : List Relation) (taken : List String) {held : List Holding}
    {p : Planning}, (∀ r ∈ rs, r ∈ e.attributeRelations) → I (own :: rest) held p →
    Outcome (Binding.attributeSlots site.document (className e.name) taken rs) p (fun found p' =>
      ∃ hs, AttributeSlotsFor site.document taken rs found.1 found.2 hs ∧
        I (own :: rest) (held ++ hs) p') (E (own :: rest))
  | [], taken, held, p, _, hp => by
    rw [Binding.attributeSlots]
    exact .pure ⟨[], .nil, by simpa using hp⟩
  | r :: rs, taken, held, p, hrs, hp => by
    have hrs' : ∀ q ∈ rs, q ∈ e.attributeRelations :=
      fun q hq => hrs q (List.mem_cons_of_mem _ hq)
    have hown : e.isTextOnly = false := e.isTextOnly_of_attribute (hrs r List.mem_cons_self)
    rw [Binding.attributeSlots]
    cases ha : site.document.attributes.get? r.target with
    | none =>
      refine .bind (outcome_tell _ p) ?_
      rintro _ _ rfl
      refine (attributeSlots rs taken hrs' (h.tell _ hp)).mono ?_
      rintro found p' ⟨hs, hslots, hp'⟩
      exact ⟨hs, .dangling ha hslots, hp'⟩
    | some a =>
      dsimp only
      generalize hmember : unique taken
        (if memberName a.name ∈ taken then memberName a.name ++ "_attr" else memberName a.name)
          = member
      have hlegal : site.document.LegalNames → isLegal member = true ∧
          ∀ f ∈ a.facet, ∀ value ∈ f.values, isLegal (Code.variantName value) = true := by
        intro hnames
        refine ⟨?_, hnames.attrValue _ _ ha⟩
        rw [← hmember]
        exact Code.isLegal_unique_ite (hnames.attr _ _ ha) (by decide)
      refine .bind (h.scalarType hf he htrail (.inl hown) _ hlegal hp) ?_
      rintro type p₁ ⟨hs, htyped, h₁⟩
      refine .bind (attributeSlots rs _ hrs' h₁) ?_
      rintro ⟨slots, taken'⟩ p₂ ⟨hs', hslots, h₂⟩
      refine .pure ⟨hs ++ hs', .cons ha ?_ hslots, by rwa [← List.append_assoc]⟩
      constructor <;> dsimp only
      case member => exact hmember.symm
      case single => split <;> simp
      case optional => split <;> simp [*]
      case place => exact ⟨type, rfl, htyped⟩

include h hf he htrail in
theorem textSlot (taken : List String) (htaken : e.isTextOnly = true → taken = [])
    (hp : I (own :: rest) held p) :
    Outcome (Binding.textSlot (className e.name) taken e) p (fun found p' =>
      ∃ hs, TextSlotFor taken e found hs ∧ I (own :: rest) (held ++ hs) p') (E (own :: rest)) := by
  rw [Binding.textSlot]
  split
  · rename_i htext
    dsimp only
    generalize hmember : unique taken (if "value" ∈ taken then "value_text" else "value") = member
    have hlabel : e.isTextOnly = false ∨ member = "value" := by
      cases honly : e.isTextOnly with
      | false => exact .inl rfl
      | true =>
        right
        rw [← hmember, htaken honly]
        rfl
    refine .bind (h.scalarType hf he htrail hlabel _
      (fun hnames => ⟨hmember ▸ isLegal_textMember taken, hnames.childValue _ _ he⟩) hp) ?_
    rintro type p₁ ⟨hs, htyped, h₁⟩
    exact .pure ⟨hs, .some htext hmember.symm htyped, h₁⟩
  · rename_i htext
    exact .pure ⟨[], .none (by simpa using htext), by simpa using hp⟩

include h hf hd he htrail hcreate in
/-- **The class of an element is as `ClassFor` says**, and the invariant
    accounts for what it holds. -/
theorem buildClass (hp : I (own :: rest) held p) :
    Outcome (Binding.buildClass site (pure (own :: rest)) create e) p (fun c p' =>
      ∃ hs, ClassFor site (own :: rest) e c hs ∧ I (own :: rest) (held ++ hs) p')
      (E (own :: rest)) := by
  rw [Binding.buildClass]
  refine .bind (h.elementSlots hf hd he htrail hcreate _ [] [] (fun _ hr => hr) hp) ?_
  rintro ⟨elements, taken⟩ p₁ ⟨hs₁, helements, hlegal, h₁⟩
  refine .bind (h.attributeSlots hf he htrail _ taken (fun _ hr => hr) h₁) ?_
  rintro ⟨attributes, taken'⟩ p₂ ⟨hs₂, hattributes, h₂⟩
  have htaken : e.isTextOnly = true → taken' = [] := by
    intro honly
    obtain ⟨⟨-, hr⟩, ha⟩ : (e.text = true ∧ e.elementRelations = []) ∧ e.attributeRelations = [] := by
      simpa [Element.isTextOnly] using honly
    rw [hr] at helements
    rw [ha] at hattributes
    cases helements
    cases hattributes
    rfl
  refine .bind (h.textSlot hf he htrail taken' htaken h₂) ?_
  rintro text p₃ ⟨hs₃, htext, h₃⟩
  refine .bind (outcome_requireLegal fun bad hbad hillegal =>
    hf.illegal bad (fun hnames => ?_) h₃) ?_
  · obtain ⟨s, hs, hbad⟩ := List.mem_flatMap.1 hbad
    have hslot : s.Legal := by
      simp only [Class.slots, List.mem_append, Option.mem_toList] at hs
      rcases hs with (hs | hs) | hs
      · exact hattributes.legal hnames s hs
      · exact htext.legal s hs
      · exact hlegal hnames s hs
    rw [hslot bad hbad] at hillegal
    cases hillegal
  · rintro _ _ rfl
    refine .pure ⟨hs₁ ++ hs₂ ++ hs₃, ?_, by simpa [List.append_assoc] using h₃⟩
    constructor <;> dsimp only
    case slots => exact ⟨taken, taken', hs₁, hs₂, hs₃, rfl, helements, hattributes, htext⟩

end

include h hf in
/-- **Making a class, with all that is reached from it, keeps the invariant**, or
    fails as it may. -/
theorem createClass (hd : site.document.Keyed) (path : List String) :
    Creates site starts I Done E path (Binding.createClass site path) := by
  -- on the elements that are not on the path, of which there are fewer for every class
  induction hn : remaining site.document.elements.keys path using Nat.strongRecOn
    generalizing path with
  | ind n ih =>
    subst hn
    intro held id e p he htrail hp
    rw [createClass_some he]
    split
    · rename_i hmem
      exact .pure ⟨rfl, hp, h.onPath he hmem hp⟩
    · rename_i hmem
      have hlt := remaining_cons_lt (Table.mem_keys_of_get? he) hmem
      refine .bind (outcome_claimName fun _ => hf.conflict he htrail hp) fun free p₁ hclaimed => ?_
      obtain ⟨hfree, hkept⟩ := h.claim he hmem htrail hp hclaimed
      cases free with
      | false => exact .pure ⟨rfl, (hkept rfl).1, (hkept rfl).2⟩
      | true =>
        refine .bind (outcome_tell _ p₁) ?_
        rintro _ _ rfl
        refine .bind (outcome_modify (P := fun _ p' => I (id :: path) held p')
          (h.tell _ (hfree rfl))) fun _ p₂ h₂ => ?_
        have hbuilt := h.buildClass hf hd he htrail (ih _ hlt (id :: path) rfl) h₂
        refine .bind ⟨hbuilt.ok, fun fault p' hrun =>
          hf.unwind he hmem htrail (hbuilt.fails fault p' hrun)⟩ ?_
        rintro c p₃ ⟨hs, hc, h₃⟩
        obtain ⟨h₄, hdone⟩ := h.enter he hmem htrail h₃ hc
        refine .bind (outcome_modify (P := fun _ p' => I path held p' ∧ Done id e p')
          ⟨h₄, hdone⟩) fun _ p₄ h₅ => ?_
        exact .pure ⟨rfl, h₅⟩

def rootHoldings (d : Document) (roots : List String) : List Holding :=
  roots.filterMap fun root =>
    (d.elements.get? root).map fun e => .object root (className e.name) false

include h hf in
theorem createRoots (hd : site.document.Keyed) : ∀ (roots : List String) {held : List Holding}
    {p : Planning}, (∀ root ∈ roots, root ∈ starts) → I [] held p →
    Outcome (roots.forM fun root => discard (Binding.createClass site [] root)) p
      (fun _ p' => I [] (held ++ rootHoldings site.document roots) p') (E [])
  | [], held, p, _, hp => .pure (by simpa [rootHoldings] using hp)
  | root :: roots, held, p, hroots, hp => by
    rw [List.forM]
    have hroots' : ∀ r ∈ roots, r ∈ starts := fun r hr => hroots r (List.mem_cons_of_mem _ hr)
    cases he : site.document.elements.get? root with
    | none =>
      rw [createClass_none he]
      refine .bind (P := fun _ p' => I [] held p') ?_ fun _ p₁ h₁ => ?_
      · refine .bind (P := fun _ p' => I [] held p') ?_ fun _ _ h₁ => .pure h₁
        refine .bind (outcome_tell _ p) ?_
        rintro _ _ rfl
        exact .pure (h.tell _ hp)
      · refine (createRoots hd roots hroots' h₁).mono fun _ p' h' => ?_
        simpa [rootHoldings, he] using h'
    | some e =>
      refine .bind (P := fun _ p' => I [] (held ++ [.object root (className e.name) false]) p') ?_
        fun _ p₁ h₁ => ?_
      · refine .bind (h.createClass hf hd [] held root e p he
          (.root (hroots root List.mem_cons_self)) hp) ?_
        rintro _ p₁ ⟨-, h₁, hdone⟩
        exact .pure (h.object false he h₁ hdone)
      · refine (createRoots hd roots hroots' h₁).mono fun _ p' h' => ?_
        simpa [rootHoldings, he] using h'

end Kept

theorem exists_run_of_ok {site : Site} {classes : List Class} (h : (plan site).1 = .ok classes) :
    ∃ p, (createRoots site).run (Planning.start site.document) = (.ok (), p) ∧
      classes = p.classes.values := by
  rw [plan] at h
  rcases hrun : (createRoots site).run (Planning.start site.document) with ⟨fault | _, p⟩ <;>
    rw [hrun] at h
  · cases h
  · cases h
    exact ⟨p, rfl, rfl⟩

theorem exists_run_of_error {site : Site} {fault : GenerateError}
    (h : (plan site).1 = .error fault) :
    ∃ p, (createRoots site).run (Planning.start site.document) = (.error fault, p) := by
  rw [plan] at h
  rcases hrun : (createRoots site).run (Planning.start site.document) with ⟨fault' | _, p⟩ <;>
    rw [hrun] at h
  · cases h
    exact ⟨p, rfl⟩
  · cases h

section
variable {site : Site} {I : List String → List Holding → Planning → Prop}
  {Done : String → Element → Planning → Prop} (h : Kept site site.document.roots I Done)
include h

theorem Kept.plan (hd : site.document.Keyed) (hstart : I [] [] (Planning.start site.document))
    {classes : List Class} (hok : (Binding.plan site).1 = .ok classes) :
    ∃ p, classes = p.classes.values ∧
      I [] (rootHoldings site.document site.document.roots) p := by
  obtain ⟨p, hrun, hclasses⟩ := exists_run_of_ok hok
  exact ⟨p, hclasses, (h.createRoots (faults_true ..) hd _ (fun _ hr => hr) hstart).ok _ p hrun⟩

theorem Kept.plan_fails {E : List String → GenerateError → Planning → Prop}
    (hf : Faults site site.document.roots I E)
    (hd : site.document.Keyed) (hstart : I [] [] (Planning.start site.document))
    {fault : GenerateError} (herror : (Binding.plan site).1 = .error fault) :
    ∃ p, E [] fault p := by
  obtain ⟨p, hrun⟩ := exists_run_of_error herror
  exact ⟨p, (h.createRoots hf hd _ (fun _ hr => hr) hstart).fails _ p hrun⟩

end

/-! ## Every class is that of an element -/

theorem ClassFor.get?_element {site : Site} (hd : site.document.Keyed) {path : List String}
    {id : String} {e : Element} {c : Class} {hs : List Holding}
    (he : site.document.elements.get? id = some e) (h : ClassFor site path e c hs) :
    site.document.elements.get? c.element = some e := by
  rw [h.element, hd id e he]
  exact he

/-- Whether every class is that of an element of the document. -/
def Faithful (site : Site) (p : Planning) : Prop :=
  ∀ c ∈ p.classes.values, ∃ id e path hs, site.document.elements.get? id = some e ∧
    ClassFor site path e c hs

theorem kept_faithful (site : Site) (starts : List String) :
    Kept site starts (fun _ _ p => Faithful site p) fun _ _ _ => True where
  tell _ hp := hp
  drop hp := hp
  take _ _ _ hp := (ensures_takeTypeName _ _).mono fun _ _ hs => by
    rw [Faithful, hs.1]
    exact hp
  object _ _ hp _ := hp
  onPath _ _ _ := trivial
  claim {_ _ _ _ _ _ p'} _ _ _ hp hclaimed := by
    have hp' : Faithful site p' := by cases hclaimed <;> exact hp
    exact ⟨fun _ => hp', fun _ => ⟨hp', trivial⟩⟩
  enter {path id e held hs p c} he _ _ hp hc := by
    refine ⟨fun c' hc' => ?_, trivial⟩
    obtain ⟨entry, hentry, rfl⟩ := List.mem_map.1 hc'
    rcases Table.mem_entries_insert hentry with rfl | hentry
    · exact ⟨id, e, id :: path, hs, he, hc⟩
    · exact hp _ (List.mem_map.2 ⟨entry, hentry, rfl⟩)

theorem plan_faithful {site : Site} (hd : site.document.Keyed) {classes : List Class}
    (hok : (plan site).1 = .ok classes) {c : Class} (hc : c ∈ classes) :
    ∃ id e path hs, site.document.elements.get? id = some e ∧ ClassFor site path e c hs := by
  have hstart : Faithful site (Planning.start site.document) := fun _ h => by cases h
  obtain ⟨p, rfl, hp⟩ := (kept_faithful site _).plan hd hstart hok
  exact hp c hc

/-! ## Generated files -/

theorem exists_plan {d : Document} {o : Code.Options} {file : Code.File}
    (h : (Code.generate d o).1 = .ok file) :
    ∃ rt classes, o.runtimeUnits = .ok rt ∧ (plan (o.site d)).1 = .ok classes ∧
      file = Code.fileOf o rt d classes := by
  rw [Code.generate] at h
  cases hrt : o.runtimeUnits with
  | error fault =>
    rw [hrt] at h
    cases h
  | ok rt =>
    rw [hrt] at h
    cases hplan : (plan (o.site d)).1 with
    | error fault =>
      simp only [hplan] at h
      cases h
    | ok classes =>
      simp only [hplan] at h
      cases h
      exact ⟨rt, classes, rfl, rfl, rfl⟩

theorem exists_file {α : Type} {d : Document} {o : Code.Options} {f : Code.File → α} {a : α}
    {P : Code.File → Prop} (h : (Code.generate d o).1.toOption.map f = some a)
    (hP : ∀ file, (Code.generate d o).1 = .ok file → f file = a → P file) :
    ∃ file, (Code.generate d o).1 = .ok file ∧ f file = a ∧ P file := by
  cases hrun : (Code.generate d o).1 with
  | error fault =>
    rw [hrun] at h
    cases h
  | ok file =>
    rw [hrun] at h
    exact ⟨file, rfl, Option.some.inj h, hP file hrun (Option.some.inj h)⟩

end Binding

end Bindery
