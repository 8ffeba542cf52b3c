/-
  The members of a class.

  Every child, every choice and every attribute of an element has a slot in its
  class, and every slot a member.

  * `Reserved`: each member has the name it is to have, or that with the least free
    number, and so different names (`ClassFor.members_nodup`);
  * `ChoiceSlotFor.labels`: the enumerations of a choice are labelled by its
    alternatives, all others by the member they belong to (`Typed.label`).
-/
import Mathlib.Data.List.Nodup
import Mathlib.Data.List.Pairwise
import Bindery.Proofs.Binding.Making
import Bindery.Proofs.Code.Ordinary

namespace Bindery

namespace Schema

open Code (memberName)

def Document.childItem (d : Document) (r : Relation) : String := memberName (d.childTag r)

def Document.attributeItem (d : Document) (r : Relation) : String := memberName (d.attributeName r)

def Document.enumeratesChild (d : Document) (r : Relation) : Bool :=
  (d.elements.get? r.target).any fun target =>
    target.isTextOnly && (Facet.proper target.facet).isSome

def Document.enumeratesAttribute (d : Document) (r : Relation) : Bool :=
  (d.attributes.get? r.target).any fun a => (Facet.proper a.facet).isSome

theorem Document.childItem_eq {d : Document} {r : Relation} {target : Element}
    (h : d.elements.get? r.target = some target) : d.childItem r = memberName target.name := by
  rw [childItem, childTag, h]
  rfl

theorem Document.attributeItem_eq {d : Document} {r : Relation} {a : Attribute}
    (h : d.attributes.get? r.target = some a) : d.attributeItem r = memberName a.name := by
  rw [attributeItem, attributeName, h]
  rfl

end Schema

namespace Binding

open Schema
open Code (memberName unique Ordinary Search)

/-! ## Members -/

/-- What the member of a slot is to be called, where the names `taken` are taken. -/
def Slot.wanted (s : Slot) (taken : List String) : String :=
  match s.place with
  | .attr tag _ => if memberName tag ∈ taken then memberName tag ++ "_attr" else memberName tag
  | .text _ => if "value" ∈ taken then "value_text" else "value"
  | .child tag _ => if s.cardinality = .list then memberName tag ++ "_list" else memberName tag
  | .choice .. => if s.cardinality = .list then "choice_list" else "choice"

/-- The members of the slots are reserved one after the other where `taken` are
    taken, and `taken'` are taken afterwards. -/
inductive Reserved : List String → List Slot → List String → Prop
  | nil {taken : List String} : Reserved taken [] taken
  | cons {taken taken' : List String} {s : Slot} {slots : List Slot} :
      s.member = unique taken (s.wanted taken) → Reserved (s.member :: taken) slots taken' →
      Reserved taken (s :: slots) taken'

section
variable {d : Document} {path : List String} {all rs : List Relation}
  {groups taken taken' : List String} {slots : List Slot} {s : Slot} {hs : List Holding}

theorem Reserved.append {slots' : List Slot} {taken'' : List String}
    (h : Reserved taken slots taken') (h' : Reserved taken' slots' taken'') :
    Reserved taken (slots ++ slots') taken'' := by
  induction h with
  | nil => exact h'
  | cons hmember _ ih => exact .cons hmember (ih h')

theorem Reserved.after (h : Reserved taken slots taken') :
    taken' = (slots.map (·.member)).reverse ++ taken := by
  induction h with
  | nil => rfl
  | cons _ _ ih => simp [ih]

theorem Reserved.nodup (h : Reserved taken slots taken') (htaken : taken.Nodup) :
    taken'.Nodup := by
  induction h with
  | nil => exact htaken
  | cons hmember _ ih => exact ih (htaken.cons (hmember ▸ Code.unique_not_mem _ _))

theorem ElementSlotsFor.reserved
    (h : ElementSlotsFor d path all groups taken rs slots taken' hs) :
    Reserved taken slots taken' := by
  induction h with
  | nil => exact .nil
  | dangling _ _ _ ih => exact ih
  | seen _ _ _ ih => exact ih
  | barren _ _ _ _ ih => exact ih
  | child _ _ hslot _ ih =>
    obtain ⟨type, hplace, -⟩ := hslot.place
    exact .cons (by simpa [Slot.wanted, hplace, hslot.list] using hslot.member) ih
  | choice _ _ hslot _ ih =>
    obtain ⟨union, as, hs', hplace, -⟩ := hslot.place
    exact .cons (by simpa [Slot.wanted, hplace, hslot.list] using hslot.member) ih

theorem AttributeSlotsFor.reserved (h : AttributeSlotsFor d taken rs slots taken' hs) :
    Reserved taken slots taken' := by
  induction h with
  | nil => exact .nil
  | dangling _ _ ih => exact ih
  | cons _ hslot _ ih =>
    obtain ⟨type, hplace, -⟩ := hslot.place
    exact .cons (by simpa [Slot.wanted, hplace] using hslot.member) ih

theorem TextSlotFor.reserved {e : Element} {text : Option Slot} (h : TextSlotFor taken e text hs) :
    ∃ taken', Reserved taken text.toList taken' := by
  cases h with
  | none => exact ⟨taken, .nil⟩
  | some _ hmember _ => exact ⟨_, .cons hmember .nil⟩

end

section
variable {site : Site} {path : List String} {e : Element} {c : Class} {hs : List Holding}

theorem ClassFor.reserved (h : ClassFor site path e c hs) :
    Reserved [] (c.elements ++ (c.attributes ++ c.text.toList))
      ((c.elements ++ (c.attributes ++ c.text.toList)).map (·.member)).reverse := by
  obtain ⟨taken, taken', hs₁, hs₂, hs₃, rfl, helements, hattributes, htext⟩ := h.slots
  obtain ⟨taken'', htext⟩ := htext.reserved
  have hall := helements.reserved.append (hattributes.reserved.append htext)
  have hafter := hall.after
  rw [List.append_nil] at hafter
  exact hafter ▸ hall

theorem ClassFor.members_nodup (h : ClassFor site path e c hs) :
    ((c.elements ++ (c.attributes ++ c.text.toList)).map (·.member)).Nodup :=
  List.nodup_reverse.1 (h.reserved.nodup .nil)

end

/-- **A fresh name is the least one, and is always found.**  It is the name itself
    if that is free, else the name with the least free number from 2.  Searches
    without a bound end with it, whether they test names or add them, take no other
    name, and count no further than two past the number of names.  Types get their
    names so, and so do the members of a class. -/
theorem fresh_names_least (taken : List String) (base : String) :
    (base ∉ taken → unique taken base = base) ∧
    (base ∈ taken → ∃ k ≤ taken.length + 1, unique taken base = s!"{base}{k}" ∧
      IsLeast {k | 2 ≤ k ∧ s!"{base}{k}" ∉ taken} k) ∧
    Search.byTest { base, taken } = some (unique taken base, unique taken base :: taken) ∧
    Search.byAdding { base, taken } = some (unique taken base, unique taken base :: taken) ∧
    (∀ s, Relation.ReflTransGen Search.GoesOn { base, taken } s → s.number ≤ taken.length + 2) ∧
    (∀ p : Planning, p.typeNames = taken → (takeTypeName base : PlanM String).run p =
      (.ok (unique taken base), { p with typeNames := unique taken base :: taken })) ∧
    ∀ site : Site, site.document.Keyed → ∀ classes, (plan site).1 = .ok classes →
      ∀ c ∈ classes, Reserved [] (c.elements ++ (c.attributes ++ c.text.toList))
        ((c.elements ++ (c.attributes ++ c.text.toList)).map (·.member)).reverse := by
  refine ⟨Code.unique_of_not_mem, Code.exists_least_unique, ?_, ?_, fun _ => Search.number_le, ?_, ?_⟩
  · exact Search.start_of_step (fun s => by rw [Search.byTest]) base taken
  · exact Search.start_of_step Search.byAdding_eq base taken
  · rintro p rfl
    rfl
  · intro site hd classes hplan c hc
    obtain ⟨id, e, path, hs, -, hclass⟩ := plan_faithful hd hplan hc
    exact hclass.reserved

/-- Orders: an item between the two ways of paying, two ways of sending, text, and
    attributes whose names are those of other members. -/
def orderDocument : Document :=
  { roots := ["order"]
    elements := ⟨[
      ("order", {
        identifier := "order", name := "order", text := true
        elementRelations := [
          { target := "card", choice := some "card+cash" }, { target := "item" },
          { target := "cash", choice := some "card+cash" },
          { target := "mail", choice := some "mail+rail" },
          { target := "rail", choice := some "mail+rail" }]
        attributeRelations := [{ target := "order@item" }, { target := "order@value" }] }),
      ("card", { identifier := "card", name := "card", text := true }),
      ("item", { identifier := "item", name := "item", text := true }),
      ("cash", {
        identifier := "cash", name := "cash", attributeRelations := [{ target := "order@value" }] }),
      ("mail", { identifier := "mail", name := "mail", text := true }),
      ("rail", { identifier := "rail", name := "rail", text := true })]⟩
    attributes := ⟨[
      ("order@item", { identifier := "order@item", name := "item" }),
      ("order@value", { identifier := "order@value", name := "value" })]⟩ }

def orderSite : Site := ({} : Code.Options).site orderDocument

set_option maxRecDepth 10000 in
theorem order_fresh_names :
    unique ["page", "page2", "page4"] "page_list" = "page_list" ∧
    unique ["page", "page2", "page4"] "page" = "page3" ∧
    (∃ k ≤ 4, unique ["page", "page2", "page4"] "page" = s!"page{k}" ∧
      IsLeast {k | 2 ≤ k ∧ s!"page{k}" ∉ ["page", "page2", "page4"]} k) ∧
    orderSite.document.Keyed ∧ ∃ classes c, (plan orderSite).1 = .ok classes ∧ c ∈ classes ∧
      Reserved [] (c.elements ++ (c.attributes ++ c.text.toList))
        ["value_text", "value", "item_attr", "choice2", "item", "choice"] := by
  have hkeyed : orderSite.document.Keyed := Document.keyed_of_entries (by decide)
  have hrun : ((plan orderSite).1.toOption.bind List.getLast?).map (fun c =>
      ((c.elements ++ (c.attributes ++ c.text.toList)).map (·.member)).reverse) =
        some ["value_text", "value", "item_attr", "choice2", "item", "choice"] := by
    decide +kernel
  obtain ⟨hfree, -⟩ := fresh_names_least ["page", "page2", "page4"] "page_list"
  obtain ⟨-, htaken, -, -, -, -, hreserved⟩ := fresh_names_least ["page", "page2", "page4"] "page"
  cases hplan : (plan orderSite).1 with
  | error fault => rw [hplan] at hrun; cases hrun
  | ok classes =>
    rw [hplan] at hrun
    obtain ⟨c, hc, hmembers⟩ := Option.map_eq_some_iff.1 hrun
    have hmem : c ∈ classes := List.mem_of_getLast? hc
    exact ⟨hfree (by decide), by decide, htaken (by decide), hkeyed, classes, c, rfl, hmem,
      hmembers ▸ hreserved orderSite hkeyed classes hplan c hmem⟩

/-! ## Where slots come from -/

/-- What a slot for child elements is for. -/
inductive Source where
  | child (r : Relation)
  | choice (group : String)

def Source.Gives (d : Document) (path : List String) (all : List Relation) (s : Slot) :
    Source → Prop
  | child r => r.choice = none ∧ ∃ target taken hs, d.elements.get? r.target = some target ∧
      ChildSlotFor path taken r target s hs
  | choice group => ∃ taken hs, ChoiceSlotFor d path taken all group s hs

/-- Whether the source is among the relations `rs`, outside of the choices
    `groups`. -/
def Source.Among (groups : List String) (rs : List Relation) : Source → Prop
  | child r => r ∈ rs
  | choice group => group ∉ groups

/-- Whether two sources are different, relations outside of choices by `P`. -/
def Source.Differ (P : Relation → Relation → Prop) : Source → Source → Prop
  | child r, child q => P r q
  | choice group, choice group' => group ≠ group'
  | _, _ => True

/-- Slots with what they are for, which differs. -/
structure Sourced (d : Document) (path : List String) (all : List Relation) (groups : List String)
    (rs : List Relation) (P : Relation → Relation → Prop) (slots : List Slot)
    (pairs : List (Slot × Source)) : Prop where
  slots : slots = pairs.map (·.1)
  gives : ∀ x ∈ pairs, x.2.Gives d path all x.1
  differ : pairs.Pairwise fun x y => Source.Differ P x.2 y.2
  among : ∀ x ∈ pairs, x.2.Among groups rs

section
variable {d : Document} {path : List String} {all rs : List Relation} {P : Relation → Relation → Prop}
  {groups groups' taken taken' : List String} {slots : List Slot} {s : Slot} {hs : List Holding}
  {pairs : List (Slot × Source)}

theorem Source.Among.up {source : Source} (h : source.Among groups' rs) {r : Relation}
    (hgroups : ∀ g ∈ groups, g ∈ groups') : source.Among groups (r :: rs) := by
  cases source with
  | child q => exact List.mem_cons_of_mem _ h
  | choice group => exact fun hmem => h (hgroups group hmem)

theorem Sourced.skip (h : Sourced d path all groups' rs P slots pairs) {r : Relation}
    (hgroups : ∀ g ∈ groups, g ∈ groups') : Sourced d path all groups (r :: rs) P slots pairs :=
  { h with among := fun x hx => (h.among x hx).up hgroups }

theorem Sourced.cons (h : Sourced d path all groups' rs P slots pairs) {r : Relation}
    (hgroups : ∀ g ∈ groups, g ∈ groups') {source : Source} (hgives : source.Gives d path all s)
    (hamong : source.Among groups (r :: rs))
    (hdiffer : ∀ x ∈ pairs, x.2.Among groups' rs → Source.Differ P source x.2) :
    Sourced d path all groups (r :: rs) P (s :: slots) ((s, source) :: pairs) where
  slots := by rw [h.slots, List.map_cons]
  gives x hx := by
    rcases List.mem_cons.1 hx with rfl | hx
    · exact hgives
    · exact h.gives x hx
  differ := List.pairwise_cons.2 ⟨fun x hx => hdiffer x hx (h.among x hx), h.differ⟩
  among x hx := by
    rcases List.mem_cons.1 hx with rfl | hx
    · exact hamong
    · exact (h.among x hx).up hgroups

theorem ElementSlotsFor.exists_sourced
    (h : ElementSlotsFor d path all groups taken rs slots taken' hs) (hP : rs.Pairwise P) :
    ∃ pairs, Sourced d path all groups rs P slots pairs := by
  induction h with
  | nil => exact ⟨[], rfl, fun _ h => absurd h List.not_mem_nil, .nil,
      fun _ h => absurd h List.not_mem_nil⟩
  | dangling _ _ _ ih | seen _ _ _ ih =>
    obtain ⟨pairs, hpairs⟩ := ih (List.pairwise_cons.1 hP).2
    exact ⟨pairs, hpairs.skip fun _ h => h⟩
  | barren _ _ _ _ ih =>
    obtain ⟨pairs, hpairs⟩ := ih (List.pairwise_cons.1 hP).2
    exact ⟨pairs, hpairs.skip fun _ h => List.mem_cons_of_mem _ h⟩
  | @child _ _ _ r _ target s _ _ _ hc ht hslot _ ih =>
    obtain ⟨hr, hrest⟩ := List.pairwise_cons.1 hP
    obtain ⟨pairs, hpairs⟩ := ih hrest
    have hgives : (Source.child r).Gives d path all s := ⟨hc, target, _, _, ht, hslot⟩
    refine ⟨_, hpairs.cons (fun _ h => h) hgives List.mem_cons_self fun x _ hx => ?_⟩
    cases hsource : x.2 with
    | child q =>
      rw [hsource] at hx
      exact hr q hx
    | choice group => trivial
  | @choice _ _ _ group _ _ s _ _ _ hc hgroup hslot _ ih =>
    obtain ⟨pairs, hpairs⟩ := ih (List.pairwise_cons.1 hP).2
    have hgives : (Source.choice group).Gives d path all s := ⟨_, _, hslot⟩
    refine ⟨_, hpairs.cons (fun _ h => List.mem_cons_of_mem _ h) hgives hgroup fun x _ hx => ?_⟩
    cases hsource : x.2 with
    | child q => trivial
    | choice group' =>
      rw [hsource] at hx
      exact fun heq => hx (heq ▸ List.mem_cons_self)

theorem Sourced.exists_source (h : Sourced d path all groups rs P slots pairs) (hs : s ∈ slots) :
    ∃ source : Source, source.Gives d path all s ∧ source.Among groups rs := by
  rw [h.slots] at hs
  obtain ⟨x, hx, rfl⟩ := List.mem_map.1 hs
  exact ⟨x.2, h.gives x hx, h.among x hx⟩

/-- What holds of slots from different sources holds of all slots, pair by
    pair. -/
theorem Sourced.pairwise (h : Sourced d path all groups rs P slots pairs)
    {S : Slot → Slot → Prop}
    (hS : ∀ s t a b, a.Among groups rs → b.Among groups rs → Source.Gives d path all s a →
      Source.Gives d path all t b → Source.Differ P a b → S s t) : slots.Pairwise S := by
  rw [h.slots, List.pairwise_map]
  exact h.differ.imp_of_mem fun {x y} hx hy hdiffer =>
    hS _ _ _ _ (h.among x hx) (h.among y hy) (h.gives x hx) (h.gives y hy) hdiffer

end

/-! ## Members are ordinary -/

theorem ordinary_unique {base : String} (h : Ordinary base) (taken : List String) :
    Ordinary (unique taken base) := by
  obtain ⟨n, hn, -⟩ := Code.exists_unique_eq taken base
  rw [hn]
  exact h.numbered n

theorem begins_unique {base name : String} (h : name.toList <+: base.toList) (taken : List String) :
    name.toList <+: (unique taken base).toList := by
  obtain ⟨n, hn, -⟩ := Code.exists_unique_eq taken base
  rw [hn, Code.toList_numbered]
  exact h.trans (List.prefix_append _ _)

theorem ordinary_ite {base affix : String} (h : Ordinary base) (ha : affix ∈ Code.memberAffixes)
    (p : Prop) [Decidable p] : Ordinary (if p then base ++ affix else base) := by
  split
  · exact h.append ha
  · exact h

theorem begins_ite (base affix : String) (p : Prop) [Decidable p] :
    base.toList <+: (if p then base ++ affix else base).toList := by
  split
  · rw [String.toList_append]
    exact List.prefix_append _ _
  · exact List.prefix_refl _

section
variable {d : Document} {path : List String} {all rs : List Relation}
  {groups taken taken' : List String} {slots : List Slot} {s : Slot} {hs : List Holding}

theorem ChildSlotFor.ordinary {r : Relation} {target : Element}
    (h : ChildSlotFor path taken r target s hs) (ho : Ordinary (memberName target.name)) :
    Ordinary s.member := by
  rw [h.member]
  exact ordinary_unique (ordinary_ite ho (by decide) _) taken

theorem ChildSlotFor.begins {r : Relation} {target : Element}
    (h : ChildSlotFor path taken r target s hs) :
    (memberName target.name).toList <+: s.member.toList := by
  rw [h.member]
  exact begins_unique (begins_ite _ _ _) taken

theorem ChoiceSlotFor.ordinary {group : String} (h : ChoiceSlotFor d path taken all group s hs) :
    Ordinary s.member := by
  rw [h.member]
  refine ordinary_unique ?_ taken
  split <;> decide

theorem AttributeSlotFor.ordinary {r : Relation} {a : Attribute}
    (h : AttributeSlotFor taken r a s hs)
    (ho : Ordinary (memberName a.name)) : Ordinary s.member := by
  rw [h.member]
  exact ordinary_unique (ordinary_ite ho (by decide) _) taken

theorem AttributeSlotFor.begins {r : Relation} {a : Attribute}
    (h : AttributeSlotFor taken r a s hs) :
    (memberName a.name).toList <+: s.member.toList := by
  rw [h.member]
  exact begins_unique (begins_ite _ _ _) taken

theorem TextSlotFor.ordinary {e : Element} {text : Option Slot} (h : TextSlotFor taken e text hs) :
    ∀ s ∈ text.toList, Ordinary s.member := by
  cases h with
  | none => exact fun _ h => by cases h
  | some _ hmember _ =>
    intro s hs
    rw [Option.toList_some, List.mem_singleton] at hs
    rw [hs]
    dsimp only
    rw [hmember]
    refine ordinary_unique ?_ taken
    split <;> decide

/-! ## Labels -/

def Slot.labels (s : Slot) : List String := s.place.enumerations.map (·.label)

def ValueType.label? (type : ValueType) : Option String := type.enumeration?.map (·.label)

theorem labels_single {type : ValueType} (hplace : s.place.types = [type]) :
    s.labels = type.label?.toList := by
  rw [Slot.labels, Place.enumerations, hplace]
  cases type <;> rfl

theorem ScalarTyped.label {label l : String} {dataType : Option DataType} {facet : Option Facet}
    {type : ValueType} (h : ScalarTyped label dataType facet type hs) (hl : type.label? = some l) :
    l = label ∧ (Facet.proper facet).isSome = true := by
  cases h with
  | scalar => cases hl
  | enumeration hproper =>
    cases hl
    exact ⟨rfl, by rw [hproper]; rfl⟩

theorem Typed.label {label l : String} {boxable : Bool} {r : Relation} {target : Element}
    {type : ValueType} (h : Typed path label boxable target type hs)
    (ht : d.elements.get? r.target = some target) (hl : type.label? = some l) :
    l = label ∧ d.enumeratesChild r = true := by
  cases h with
  | object => cases hl
  | text htext hscalar =>
    obtain ⟨rfl, hproper⟩ := hscalar.label hl
    exact ⟨rfl, by simp [Document.enumeratesChild, ht, htext, hproper]⟩

theorem AlternativesFor.labels {made as : List Alternative}
    (h : AlternativesFor d path made rs as hs) :
    ∃ new, as.filterMap (·.type.label?) = made.filterMap (·.type.label?) ++ new ∧
      new.Sublist ((rs.filter d.enumeratesChild).map d.childItem) := by
  induction h with
  | nil => exact ⟨[], by simp, .slnil⟩
  | @dangling _ _ r _ _ _ _ ih =>
    obtain ⟨new, heq, hsub⟩ := ih
    exact ⟨new, heq, hsub.trans ((List.sublist_cons_self r _).filter _ |>.map _)⟩
  | @cons made _ r _ target type _ _ ht htyped _ ih =>
    obtain ⟨new, heq, hsub⟩ := ih
    rw [List.filterMap_append, List.append_assoc] at heq
    refine ⟨_, heq, ?_⟩
    cases hl : type.label? with
    | none =>
      simp only [List.filterMap_cons, hl, List.filterMap_nil, List.nil_append]
      exact hsub.trans ((List.sublist_cons_self r _).filter _ |>.map _)
    | some l =>
      obtain ⟨hlabel, hr⟩ := htyped.label ht hl
      rw [hlabel, ← Document.childItem_eq ht] at hl
      simp only [List.filterMap_cons, hl, List.filterMap_nil, List.singleton_append,
        List.filter_cons_of_pos hr, List.map_cons]
      exact hsub.cons_cons _

theorem ChoiceSlotFor.labels {group : String} (h : ChoiceSlotFor d path taken all group s hs) :
    s.labels.Sublist (((choiceOf all group).filter d.enumeratesChild).map d.childItem) := by
  obtain ⟨union, as, hs', hplace, -, has⟩ := h.place
  obtain ⟨new, heq, hsub⟩ := has.labels
  have hlabels : s.labels = as.filterMap (·.type.label?) := by
    rw [Slot.labels, Place.enumerations, hplace, Place.types, List.filterMap_map,
      List.map_filterMap]
    rfl
  rw [hlabels, heq]
  exact hsub

end

end Binding

end Bindery
