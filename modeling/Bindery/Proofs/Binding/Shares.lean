/-
  Where the relations of an element go.

  The slots of a class divide the relations of its element among them.  An
  attribute has a slot of its own, and so has a child outside of choices; the
  children of one choice share a slot, which has an alternative for each.

  * `Serves`: what a slot for child elements is for;
  * `Shares`: how the relations to child elements are divided, each told from
    others by its number;
  * `HasPlaces`: a class that has a place for all of its element, and nothing else;
  * `ClassFor.hasPlaces`: so has every class that is made, if no relation dangles;
  * `classes_have_places`: also where classes are asked for one by one, and planning
    fails only at conflicts.
-/
import Bindery.Proofs.Binding.Calls
import Bindery.Proofs.Binding.Members
import Bindery.Proofs.Document.Closed

namespace Bindery.Binding

open Schema
open Code (className memberName)

/-! ## Shares -/

abbrev Numbered := Relation × Nat

def inChoice (group : String) (x : Numbered) : Bool := x.1.choice == some group

/-- Whether the relation is in none of the choices. -/
def outside (groups : List String) (x : Numbered) : Bool := x.1.choice.all (· ∉ groups)

/-- Whether the member is written with the type, in a list exactly if it repeats. -/
def Slot.Writes (s : Slot) (type : String) (repeats : Bool) : Prop :=
  if repeats then s.memberText = s!"Vec<{type}>" else s.memberText ∈ [type, s!"Option<{type}>"]

/-- What a slot for child elements is for: one relation outside of choices, or
    relations of one choice, with an alternative for each. -/
inductive Serves (d : Document) : List Numbered → Slot → Prop
  | child {x : Numbered} {s : Slot} {target : Element} {type : ValueType} {path : List String}
      {hs : List Holding} : x.1.choice = none → d.elements.get? x.1.target = some target →
      s.place = .child target.name type → Typed path s.member (!x.1.isList) target type hs →
      s.Writes type.text x.1.isList → Serves d [x] s
  | choice {share : List Numbered} {s : Slot} {union group : String} {as : List Alternative}
      {path : List String} : (∀ x ∈ share, x.1.choice = some group) →
      s.place = .choice union group as →
      List.Forall₂ (fun x a => ∃ target hs, d.elements.get? x.1.target = some target ∧
        a.tag = target.name ∧ Typed path (memberName target.name) true target a.type hs) share as →
      s.Writes union (share.any (·.1.isList)) → Serves d share s

/-- **How relations are divided**: all of them are, none twice, the relations of
    a choice stay together, and what has the first relation comes first. -/
structure Shares (all : List Relation) (shares : List (List Numbered)) : Prop where
  perm : shares.flatten.Perm all.zipIdx
  together : ∀ share ∈ shares, ∀ x ∈ share, ∀ group, x.1.choice = some group →
    share = all.zipIdx.filter (inChoice group)
  order : (shares.filterMap List.head?).Sublist all.zipIdx

/-- The slots for the relations `xs` among `all`, where the choices `groups` have
    their slots. -/
structure SharesFor (d : Document) (all : List Numbered) (groups : List String)
    (xs : List Numbered) (slots : List Slot) (shares : List (List Numbered)) : Prop where
  serves : List.Forall₂ (Serves d) shares slots
  perm : shares.flatten.Perm (xs.filter (outside groups))
  together : ∀ share ∈ shares, ∀ x ∈ share, ∀ group, x.1.choice = some group →
    share = all.filter (inChoice group)
  order : (shares.filterMap List.head?).Sublist xs

section
variable {d : Document} {path : List String} {all rs : List Relation} {xs alls : List Numbered}
  {groups taken taken' : List String} {slots : List Slot} {s : Slot} {hs : List Holding}
  {shares : List (List Numbered)} {x : Numbered}

theorem Slot.writes {repeats : Bool} (h : s.cardinality = .list ↔ repeats = true) :
    s.Writes s.typeText repeats := by
  rw [Slot.Writes, Slot.memberText]
  cases hs : s.cardinality <;> cases repeats <;> simp_all

theorem outside_of_none (h : x.1.choice = none) : outside groups x = true := by
  rw [outside, h]
  rfl

theorem outside_of_some {group : String} (h : x.1.choice = some group) :
    outside groups x = true ↔ group ∉ groups := by
  rw [outside, h]
  simp

theorem outside_cons (group : String) (groups : List String) (x : Numbered) :
    outside (group :: groups) x = (!inChoice group x && outside groups x) := by
  rw [outside, outside, inChoice]
  cases x.1.choice with
  | none => rfl
  | some own => by_cases h : own = group <;> simp [h]

theorem AlternativesFor.forall₂ {made as : List Alternative}
    (h : AlternativesFor d path made rs as hs)
    (htargets : ∀ r ∈ rs, (d.elements.get? r.target).isSome = true) (hxs : xs.map (·.1) = rs) :
    ∃ new, as = made ++ new ∧
      List.Forall₂ (fun x a => ∃ target hs, d.elements.get? x.1.target = some target ∧
        a.tag = target.name ∧ Typed path (memberName target.name) true target a.type hs) xs new := by
  induction h generalizing xs with
  | nil =>
    obtain rfl := List.map_eq_nil_iff.1 hxs
    exact ⟨[], (List.append_nil _).symm, .nil⟩
  | dangling hnone =>
    have hsome := htargets _ List.mem_cons_self
    rw [hnone] at hsome
    cases hsome
  | cons htarget htyped _ ih =>
    obtain ⟨x, xs, rfl, rfl, hrest⟩ := List.map_eq_cons_iff.1 hxs
    obtain ⟨new, rfl, hnew⟩ := ih (fun r hr => htargets r (List.mem_cons_of_mem _ hr)) hrest
    exact ⟨_ :: new, List.append_assoc .., .cons ⟨_, _, htarget, rfl, htyped⟩ hnew⟩

theorem SharesFor.skip {group : String} (h : SharesFor d alls groups xs slots shares)
    (hx : x.1.choice = some group) (hgroup : group ∈ groups) :
    SharesFor d alls groups (x :: xs) slots shares where
  serves := h.serves
  perm := by
    rw [List.filter_cons_of_neg fun hout => (outside_of_some hx).1 hout hgroup]
    exact h.perm
  together := h.together
  order := h.order.cons _

theorem SharesFor.child (h : SharesFor d alls groups xs slots shares) (hx : x.1.choice = none)
    (hserves : Serves d [x] s) : SharesFor d alls groups (x :: xs) (s :: slots) ([x] :: shares) where
  serves := .cons hserves h.serves
  perm := by
    rw [List.filter_cons_of_pos (outside_of_none hx)]
    exact h.perm.cons x
  together share hshare y hy group hgroup := by
    rcases List.mem_cons.1 hshare with rfl | hshare
    · rw [List.mem_singleton.1 hy, hx] at hgroup
      cases hgroup
    · exact h.together share hshare y hy group hgroup
  order := h.order.cons_cons x

/-- The relations of a choice leave their place to the first of them. -/
theorem SharesFor.choice {group : String}
    (h : SharesFor d alls (group :: groups) xs slots shares) (hx : x.1.choice = some group)
    (hgroup : group ∉ groups)
    (hsame : alls.filter (inChoice group) = (x :: xs).filter (inChoice group))
    (hserves : Serves d (alls.filter (inChoice group)) s) :
    SharesFor d alls groups (x :: xs) (s :: slots) (alls.filter (inChoice group) :: shares) where
  serves := .cons hserves h.serves
  perm := by
    have hin : inChoice group x = true := by simp [inChoice, hx]
    have hkept : (xs.filter (outside groups)).filter (inChoice group) =
        xs.filter (inChoice group) := by
      rw [List.filter_filter]
      refine List.filter_congr fun y _ => ?_
      by_cases hy : inChoice group y = true
      · simp [hy, (outside_of_some (by simpa [inChoice] using hy)).2 hgroup]
      · simp [hy]
    have hrest : xs.filter (outside (group :: groups)) =
        (xs.filter (outside groups)).filter (!inChoice group ·) := by
      rw [List.filter_filter]
      exact List.filter_congr fun y _ => outside_cons group groups y
    rw [List.flatten_cons, hsame, List.filter_cons_of_pos hin,
      List.filter_cons_of_pos ((outside_of_some hx).2 hgroup), List.cons_append]
    refine List.Perm.cons x (((h.perm.append_left _).trans ?_))
    rw [hrest, ← hkept]
    exact List.filter_append_perm _ _
  together share hshare y hy own hown := by
    rcases List.mem_cons.1 hshare with rfl | hshare
    · have hin := (List.mem_filter.1 hy).2
      rw [inChoice, hown, beq_iff_eq] at hin
      rw [Option.some.inj hin]
    · exact h.together share hshare y hy own hown
  order := by
    have hin : inChoice group x = true := by simp [inChoice, hx]
    rw [hsame, List.filter_cons_of_pos hin]
    exact h.order.cons_cons x

theorem filter_inChoice_map (group : String) (xs : List Numbered) :
    (xs.filter (inChoice group)).map (·.1) = choiceOf (xs.map (·.1)) group := by
  rw [choiceOf, List.filter_map]
  rfl

/-- **The slots for child elements divide the relations to them**, if none
    dangles. -/
theorem ElementSlotsFor.exists_shares
    (h : ElementSlotsFor d path all groups taken rs slots taken' hs)
    (htargets : ∀ r ∈ all, (d.elements.get? r.target).isSome = true)
    (halls : alls.map (·.1) = all) (hxs : xs.map (·.1) = rs) (hrs : ∀ r ∈ rs, r ∈ all)
    (hsame : ∀ group, group ∉ groups →
      alls.filter (inChoice group) = xs.filter (inChoice group)) :
    ∃ shares, SharesFor d alls groups xs slots shares := by
  induction h generalizing xs with
  | nil =>
    obtain rfl := List.map_eq_nil_iff.1 hxs
    exact ⟨[], .nil, .nil, fun _ h => absurd h List.not_mem_nil, .slnil⟩
  | dangling _ hnone =>
    have hsome := htargets _ (hrs _ List.mem_cons_self)
    rw [hnone] at hsome
    cases hsome
  | child hchoice htarget hslot _ ih =>
    obtain ⟨x, xs, rfl, rfl, hrest⟩ := List.map_eq_cons_iff.1 hxs
    obtain ⟨type, hplace, htyped⟩ := hslot.place
    obtain ⟨shares, hshares⟩ := ih hrest (fun r hr => hrs r (List.mem_cons_of_mem _ hr))
      fun group hgroup => by
        rw [hsame group hgroup, List.filter_cons_of_neg]
        simp [inChoice, hchoice]
    have hwrites := Slot.writes hslot.list
    rw [Slot.typeText, hplace] at hwrites
    exact ⟨_, hshares.child hchoice (.child hchoice htarget hplace htyped hwrites)⟩
  | @seen groups _ _ own _ _ _ _ hchoice hmem _ ih =>
    obtain ⟨x, xs, rfl, rfl, hrest⟩ := List.map_eq_cons_iff.1 hxs
    obtain ⟨shares, hshares⟩ := ih hrest (fun r hr => hrs r (List.mem_cons_of_mem _ hr))
      fun group hgroup => by
        have hne : own ≠ group := fun heq => hgroup (heq ▸ hmem)
        rw [hsame group hgroup, List.filter_cons_of_neg]
        simp [inChoice, hchoice, hne]
    exact ⟨_, hshares.skip hchoice hmem⟩
  | @barren groups _ _ own _ _ _ _ hchoice hmem halternatives _ _ =>
    -- the relation itself has an alternative
    obtain ⟨x, xs, rfl, rfl, hrest⟩ := List.map_eq_cons_iff.1 hxs
    have hmembers := filter_inChoice_map own alls
    rw [halls] at hmembers
    obtain ⟨new, hnil, hnew⟩ := halternatives.forall₂
      (fun r hr => htargets r (List.mem_of_mem_filter hr)) hmembers
    obtain rfl : new = [] := hnil.symm
    rw [hsame own hmem, List.filter_cons_of_pos (by simp [inChoice, hchoice])] at hnew
    cases hnew
  | @choice groups _ _ own _ _ s _ _ _ hchoice hmem hslot _ ih =>
    obtain ⟨x, xs, rfl, rfl, hrest⟩ := List.map_eq_cons_iff.1 hxs
    obtain ⟨shares, hshares⟩ := ih hrest (fun r hr => hrs r (List.mem_cons_of_mem _ hr))
      fun group hgroup => by
        rw [List.mem_cons, not_or] at hgroup
        rw [hsame group hgroup.2, List.filter_cons_of_neg]
        simp [inChoice, hchoice, Ne.symm hgroup.1]
    obtain ⟨union, as, hs', hplace, -, halternatives⟩ := hslot.place
    have hmembers := filter_inChoice_map own alls
    rw [halls] at hmembers
    obtain ⟨new, rfl, hnew⟩ := halternatives.forall₂
      (fun r hr => htargets r (List.mem_of_mem_filter hr)) hmembers
    have hserves : Serves d (alls.filter (inChoice own)) s := by
      have hwrites := Slot.writes hslot.list
      rw [Slot.typeText, hplace, ← hmembers, List.any_map] at hwrites
      refine .choice (fun y hy => ?_) hplace hnew hwrites
      simpa [inChoice] using (List.mem_filter.1 hy).2
    exact ⟨_, hshares.choice hchoice hmem (hsame own hmem) hserves⟩

/-! ## Unions -/

def Slot.group? (s : Slot) : Option String :=
  match s.place with
  | .choice _ group _ => some group
  | _ => none

theorem unions_groups (c : Class) : c.unions.map (·.2.1) = c.elements.filterMap Slot.group? := by
  rw [Class.unions, List.map_filterMap]
  refine List.filterMap_congr fun s _ => ?_
  rw [Slot.group?]
  cases s.place <;> rfl

theorem ElementSlotsFor.groups_of_slots
    (h : ElementSlotsFor d path all groups taken rs slots taken' hs)
    (htargets : ∀ r ∈ all, (d.elements.get? r.target).isSome = true) (hrs : ∀ r ∈ rs, r ∈ all) :
    (slots.filterMap Slot.group?).Nodup ∧ ∀ group, group ∈ slots.filterMap Slot.group? ↔
      group ∉ groups ∧ ∃ r ∈ rs, r.choice = some group := by
  induction h with
  | nil => simp
  | dangling _ hnone =>
    have hsome := htargets _ (hrs _ List.mem_cons_self)
    rw [hnone] at hsome
    cases hsome
  | child hchoice htarget hslot _ ih =>
    obtain ⟨type, hplace, -⟩ := hslot.place
    obtain ⟨hnodup, hmem⟩ := ih fun r hr => hrs r (List.mem_cons_of_mem _ hr)
    rw [List.filterMap_cons_none (by rw [Slot.group?, hplace])]
    refine ⟨hnodup, fun group => (hmem group).trans ?_⟩
    simp [hchoice]
  | @seen groups _ _ own _ _ _ _ hchoice hown _ ih =>
    obtain ⟨hnodup, hmem⟩ := ih fun r hr => hrs r (List.mem_cons_of_mem _ hr)
    refine ⟨hnodup, fun group => (hmem group).trans (and_congr_right fun hgroup => ?_)⟩
    have hne : own ≠ group := fun heq => hgroup (heq ▸ hown)
    simp [hchoice, hne]
  | @barren groups _ _ own r _ _ _ hchoice _ halternatives _ _ =>
    have hr : r ∈ choiceOf all own :=
      List.mem_filter.2 ⟨hrs r List.mem_cons_self, by simp [hchoice]⟩
    have hnumbered : (choiceOf all own).zipIdx.map (·.1) = choiceOf all own := by simp
    obtain ⟨new, hnil, hnew⟩ := halternatives.forall₂
      (fun r hr => htargets r (List.mem_of_mem_filter hr)) hnumbered
    obtain rfl : new = [] := hnil.symm
    have hlength := hnew.length_eq
    rw [List.length_zipIdx, List.length_nil, List.length_eq_zero_iff] at hlength
    rw [hlength] at hr
    cases hr
  | @choice groups _ _ own _ _ s _ _ _ hchoice hown hslot _ ih =>
    obtain ⟨union, as, hs', hplace, -, -⟩ := hslot.place
    obtain ⟨hnodup, hmem⟩ := ih fun r hr => hrs r (List.mem_cons_of_mem _ hr)
    rw [List.filterMap_cons_some (by rw [Slot.group?, hplace])]
    refine ⟨List.nodup_cons.2 ⟨fun h => ((hmem own).1 h).1 List.mem_cons_self, hnodup⟩,
      fun group => ?_⟩
    rw [List.mem_cons, hmem, List.mem_cons, not_or]
    by_cases heq : group = own
    · simp [heq, hown, hchoice]
    · simp [heq, Ne.symm heq, hchoice]

end

/-! ## Classes -/

/-- **Whether a class and its code have a place for all of an element, and nothing
    else.** -/
structure HasPlaces (d : Document) (e : Element) (c : Class) : Prop where
  /-- One slot for each relation to an attribute, in order. -/
  attributes : List.Forall₂ (fun r s => ∃ a type hs, d.attributes.get? r.target = some a ∧
    s.place = .attr a.name type ∧ ScalarTyped s.member a.dataType a.facet type hs ∧
    s.memberText = if r.isOptional then s!"Option<{type.text}>" else type.text)
    e.attributeRelations c.attributes
  /-- A slot for the text exactly if there is text. -/
  hasText : c.text.isSome = e.text
  text : ∀ s ∈ c.text, ∃ type hs, s.place = .text type ∧
    ScalarTyped s.member e.dataType e.facet type hs ∧ s.memberText = type.text
  /-- One slot for each child outside of choices and for each choice. -/
  elements : ∃ shares, Shares e.elementRelations shares ∧ List.Forall₂ (Serves d) shares c.elements
  unions : (c.unions.map (·.2.1)).Nodup ∧ ∀ group, group ∈ c.unions.map (·.2.1) ↔
    ∃ r ∈ e.elementRelations, r.choice = some group
  /-- The members are those of attributes, text and children, in this order. -/
  order : ∀ runtime rt, (Code.classOf runtime rt c).members.map (fun m => (m.name, m.type)) =
    (c.attributes ++ c.text.toList ++ c.elements).map fun s => (s.member, s.memberText)
  /-- A variant stands for each alternative. -/
  variants : ∀ runtime rt, (Code.classOf runtime rt c).unions.map (fun u => (u.name, u.variants)) =
    c.unions.map fun u => (u.1, u.2.2.map fun a => (a.name, a.type.text))
  members : ∀ runtime rt, ((Code.classOf runtime rt c).members.map (·.name)).Nodup

section
variable {d : Document} {path taken taken' : List String} {e : Element} {rs : List Relation}
  {slots : List Slot} {hs : List Holding}

theorem AttributeSlotFor.memberText {r : Relation} {a : Attribute} {s : Slot}
    (h : AttributeSlotFor taken r a s hs) :
    ∃ type, s.place = .attr a.name type ∧ ScalarTyped s.member a.dataType a.facet type hs ∧
      s.memberText = if r.isOptional then s!"Option<{type.text}>" else type.text := by
  obtain ⟨type, hplace, htyped⟩ := h.place
  refine ⟨type, hplace, htyped, ?_⟩
  have hsingle := h.single
  have hoptional := h.optional
  rw [Slot.memberText, Slot.typeText, hplace]
  cases hs : s.cardinality <;> simp_all [Place.typeText]

theorem AttributeSlotsFor.forall₂ (h : AttributeSlotsFor d taken rs slots taken' hs)
    (htargets : ∀ r ∈ rs, (d.attributes.get? r.target).isSome = true) :
    List.Forall₂ (fun r s => ∃ a taken hs, d.attributes.get? r.target = some a ∧
      AttributeSlotFor taken r a s hs) rs slots := by
  induction h with
  | nil => exact .nil
  | dangling hnone =>
    have hsome := htargets _ List.mem_cons_self
    rw [hnone] at hsome
    cases hsome
  | cons hattribute hslot _ ih =>
    exact .cons ⟨_, _, _, hattribute, hslot⟩ (ih fun r hr => htargets r (List.mem_cons_of_mem _ hr))

theorem TextSlotFor.isSome_eq {text : Option Slot} (h : TextSlotFor taken e text hs) :
    text.isSome = e.text := by
  cases h with
  | none hno => rw [hno]; rfl
  | some hyes => rw [hyes]; rfl

theorem TextSlotFor.place {text : Option Slot} (h : TextSlotFor taken e text hs) :
    ∀ s ∈ text, ∃ type hs, s.place = .text type ∧
      ScalarTyped s.member e.dataType e.facet type hs ∧ s.memberText = type.text := by
  intro s hs
  cases h with
  | none => cases hs
  | some _ _ htyped =>
    cases hs
    exact ⟨_, _, rfl, htyped, rfl⟩

/-- **A class has a place for all of its element**, if no relation dangles. -/
theorem ClassFor.hasPlaces {site : Site} {c : Class} (h : ClassFor site path e c hs)
    (helements : ∀ r ∈ e.elementRelations,
      (site.document.elements.get? r.target).isSome = true)
    (hattributes : ∀ r ∈ e.attributeRelations,
      (site.document.attributes.get? r.target).isSome = true) :
    HasPlaces site.document e c := by
  have hnodup := h.members_nodup
  obtain ⟨taken, taken', hs₁, hs₂, hs₃, rfl, hslots, hslots', htext⟩ := h.slots
  have hnumbered : e.elementRelations.zipIdx.map (·.1) = e.elementRelations := by simp
  obtain ⟨shares, hshares⟩ := hslots.exists_shares helements hnumbered hnumbered
    (fun _ hr => hr) fun _ _ => rfl
  obtain ⟨hgroups, hmem⟩ := hslots.groups_of_slots helements fun _ hr => hr
  refine ⟨?_, htext.isSome_eq, htext.place,
    ⟨shares, ⟨?_, hshares.together, hshares.order⟩, hshares.serves⟩, ?_,
    fun _ _ => List.map_map, fun _ _ => List.map_map, fun _ _ => ?_⟩
  · refine (hslots'.forall₂ hattributes).imp ?_
    rintro r s ⟨a, _, hs, ha, hfor⟩
    obtain ⟨type, hwritten⟩ := hfor.memberText
    exact ⟨a, type, hs, ha, hwritten⟩
  · have hall : e.elementRelations.zipIdx.filter (outside []) = e.elementRelations.zipIdx := by
      refine List.filter_eq_self.2 fun x _ => ?_
      cases hx : x.1.choice <;> simp [outside, hx]
    rw [← hall]
    exact hshares.perm
  · rw [unions_groups]
    exact ⟨hgroups, fun group => (hmem group).trans (by simp)⟩
  · rw [Code.classOf, List.map_map]
    exact (List.perm_append_comm.map _).nodup_iff.2 hnodup

end

theorem outcome_faithful {site : Site} (hd : site.document.Keyed) (id : String) {p : Planning}
    (hp : Faithful site p) :
    Outcome (createClass site [] id) p (fun _ p' => Faithful site p') fun fault p' =>
      Faithful site p' ∧ (site.document.LegalNames → ∃ cls a b, fault = .conflict cls a b) := by
  cases he : site.document.elements.get? id with
  | none =>
    rw [createClass_none he]
    refine .bind (outcome_tell _ p) ?_
    rintro _ _ rfl
    exact .pure hp
  | some e =>
    have hfaults : Faults site [id] (fun _ _ p => Faithful site p) fun _ fault p' =>
        Faithful site p' ∧ (site.document.LegalNames → ∃ cls a b, fault = .conflict cls a b) :=
      { illegal := fun _ hillegal hp => ⟨hp, fun hlegal => absurd hlegal hillegal⟩
        conflict := fun _ _ hp _ _ _ => ⟨hp, fun _ => ⟨_, _, _, rfl⟩⟩
        unwind := fun _ _ _ hp => hp }
    exact ((kept_faithful site [id]).createClass hfaults hd [] [] id e p he
      (.root List.mem_cons_self) hp).mono fun _ _ h => h.2.1

theorem calls_faithful {site : Site} (hd : site.document.Keyed) (ids : List String) :
    Faithful site (calls site ids) := by
  induction ids using List.reverseRecOn with
  | nil => exact fun _ h => by cases h
  | append_singleton ids id ih =>
    rw [calls_append]
    have hcall := outcome_faithful hd id ih
    rcases hrun : (createClass site [] id).run (calls site ids) with ⟨fault | found, p⟩
    · exact (hcall.fails fault p hrun).1
    · exact hcall.ok found p hrun

theorem exists_hasPlaces {site : Site} (hd : site.document.Keyed)
    (hvalid : site.document.validate = .ok ()) {c : Class}
    (h : ∃ id e path hs, site.document.elements.get? id = some e ∧ ClassFor site path e c hs) :
    ∃ e, site.document.elements.get? c.element = some e ∧ HasPlaces site.document e c := by
  obtain ⟨id, e, path, hs, he, hclass⟩ := h
  have hentities := (Document.validate_eq_ok.1 hvalid).1
  obtain ⟨helements, hattributes⟩ :=
    hentities e (List.mem_map.2 ⟨_, Table.mem_entries_of_get? he, rfl⟩)
  refine ⟨e, by rw [hclass.element, hd _ _ he, he], hclass.hasPlaces (fun r hr => ?_) fun r hr => ?_⟩
  · exact Table.contains_iff.2 (helements r hr)
  · exact Table.contains_iff.2 (hattributes r hr)

/-- **Every relation has one place.**  Let no relation dangle and all names be
    such that they can be written.  Then every class that is made, by calls for
    single elements or by a plan, has a place for all of its element and for
    nothing else; and calls and plans fail only at conflicts. -/
theorem classes_have_places {site : Site} (hd : site.document.Keyed)
    (hvalid : site.document.validate = .ok ()) (hlegal : site.document.LegalNames) :
    (∀ ids, ∀ c ∈ (calls site ids).classes.values, ∃ e,
      site.document.elements.get? c.element = some e ∧ HasPlaces site.document e c) ∧
    (∀ ids id fault, reported site ids id = .error fault → ∃ cls a b, fault = .conflict cls a b) ∧
    ((∃ classes, (plan site).1 = .ok classes ∧ ∀ c ∈ classes, ∃ e,
        site.document.elements.get? c.element = some e ∧ HasPlaces site.document e c) ∨
      ∃ cls a b, (plan site).1 = .error (.conflict cls a b)) := by
  refine ⟨fun ids c hc => exists_hasPlaces hd hvalid (calls_faithful hd ids c hc),
    fun ids id fault herror => ?_, ?_⟩
  · exact ((outcome_faithful hd id (calls_faithful hd ids)).fails fault _
      (Prod.ext herror rfl)).2 hlegal
  · cases hplan : (plan site).1 with
    | error fault =>
      obtain ⟨cls, a, b, rfl, -⟩ := plan_rivals site hd hlegal hplan
      exact .inr ⟨cls, a, b, rfl⟩
    | ok classes =>
      exact .inl ⟨classes, rfl, fun c hc => exists_hasPlaces hd hvalid (plan_faithful hd hplan hc)⟩

set_option maxRecDepth 10000 in
theorem order_has_places : orderDocument.Keyed ∧ orderDocument.validate = .ok () ∧
    orderDocument.LegalNames ∧ ∃ c e,
      (calls orderSite ["order"]).classes.get? "Order" = some c ∧
      orderDocument.elements.get? c.element = some e ∧
      c.slots.map (fun s => (s.member, s.memberText)) =
        [("item_attr", "String"), ("value", "String"), ("value_text", "String"),
          ("choice", "Option<OrderChoice>"), ("item", "String"),
          ("choice2", "Option<OrderChoice2>")] ∧
      HasPlaces orderDocument e c := by
  have hkeyed : orderSite.document.Keyed := Document.keyed_of_entries (by decide)
  have hvalid : orderDocument.validate = .ok () := by decide
  have hruns : orderDocument.LegalNames ∧
      ((calls orderSite ["order"]).classes.get? "Order").map (fun c =>
        c.slots.map fun s => (s.member, s.memberText)) =
        some [("item_attr", "String"), ("value", "String"), ("value_text", "String"),
          ("choice", "Option<OrderChoice>"), ("item", "String"),
          ("choice2", "Option<OrderChoice2>")] := by
    decide +kernel
  obtain ⟨hlegal, hrun⟩ := hruns
  obtain ⟨c, hc, hmembers⟩ := Option.map_eq_some_iff.1 hrun
  have hmem : c ∈ (calls orderSite ["order"]).classes.values :=
    List.mem_map.2 ⟨_, Table.mem_entries_of_get? hc, rfl⟩
  obtain ⟨e, he, hplaces⟩ := (classes_have_places hkeyed hvalid hlegal).1 ["order"] c hmem
  exact ⟨hkeyed, hvalid, hlegal, c, e, hc, he, hmembers, hplaces⟩

end Bindery.Binding
