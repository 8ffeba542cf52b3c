/-
  The functions of a class.

  A class has a function to get and to set every member, one to add to every
  list, two conversions for every enumeration, and, for a root, those that read
  and write whole documents.  The names of its members are made distinct
  (`ClassFor.members_nodup`); what is derived from them is not.

  * `generate_functions_nodup`: the functions of a class have different names,
    and so have the variants of its unions, for an element whose names keep them
    apart (`FunctionsApart`, `VariantsApart`);
  * `log_functions_repeated`: for other elements they may not.
-/
import Mathlib.Tactic.MkIffOfInductiveProp
import Bindery.Proofs.Binding.Members

namespace Bindery

namespace Code

/-- The functions that a class defines by itself, and not for the runtime
    library. -/
def Class.inherent (c : Class) : List String :=
  (c.functions.filter (·.implements.isNone)).map (·.name)

end Code

namespace Schema

open Code (Ordinary)

/-- Whether the names of an element's children and attributes keep apart what is
    derived from them.  The conversions of an enumerated alternative are named
    after the child, all others after a member. -/
@[mk_iff]
structure Document.FunctionsApart (d : Document) (e : Element) : Prop where
  /-- No child has a name that is itself derived. -/
  children : ∀ r ∈ e.elementRelations, Ordinary (d.childItem r)
  /-- No attribute has a name that is itself derived. -/
  attributes : ∀ r ∈ e.attributeRelations, Ordinary (d.attributeItem r)
  /-- Lists of children are of different names. -/
  lists : e.elementRelations.Pairwise fun r q => r.choice = none → q.choice = none →
    r.isList = true → q.isList = true → d.childItem r ≠ d.childItem q
  /-- One choice at most is a list. -/
  choices : ∀ r ∈ e.elementRelations, ∀ q ∈ e.elementRelations, r.choice.isSome = true →
    q.choice.isSome = true → r.isList = true → q.isList = true → r.choice = q.choice
  /-- Where a choice is a list, no other list is one of children named so. -/
  choiceLists : ∀ r ∈ e.elementRelations, ∀ q ∈ e.elementRelations, r.choice = none →
    q.choice.isSome = true → r.isList = true → q.isList = true → d.childItem r ≠ "choice"
  /-- Enumerated alternatives are of different names. -/
  alternatives : e.elementRelations.Pairwise fun r q => r.choice.isSome = true →
    q.choice.isSome = true → d.enumeratesChild r = true → d.enumeratesChild q = true →
    d.childItem r ≠ d.childItem q
  /-- The name of an enumerated alternative does not begin with that of another
      enumerated member. -/
  labels : ∀ r ∈ e.elementRelations, r.choice.isSome = true → d.enumeratesChild r = true →
    (∀ q ∈ e.elementRelations, q.choice = none → d.enumeratesChild q = true →
      ¬ (d.childItem q).toList <+: (d.childItem r).toList) ∧
    (∀ q ∈ e.attributeRelations, d.enumeratesAttribute q = true →
      ¬ (d.attributeItem q).toList <+: (d.childItem r).toList) ∧
    (e.text = true → (Facet.proper e.facet).isSome = true →
      ¬ "value".toList <+: (d.childItem r).toList)

set_option synthInstance.maxSize 1000 in
instance (d : Document) : DecidablePred d.FunctionsApart := fun e =>
  decidable_of_iff' _ (Document.functionsApart_iff d e)

theorem Document.FunctionsApart.alternatives_ne {d : Document} {e : Element}
    (h : d.FunctionsApart e) {r q : Relation} (hr : r ∈ e.elementRelations)
    (hq : q ∈ e.elementRelations) (hne : r ≠ q) (hrc : r.choice.isSome = true)
    (hqc : q.choice.isSome = true) (hre : d.enumeratesChild r = true)
    (hqe : d.enumeratesChild q = true) : d.childItem r ≠ d.childItem q := by
  have hsymm : Std.Symm fun r q : Relation => r.choice.isSome = true → q.choice.isSome = true →
      d.enumeratesChild r = true → d.enumeratesChild q = true → d.childItem r ≠ d.childItem q :=
    ⟨fun _ _ h hqc hrc hqe hre => (h hrc hqc hre hqe).symm⟩
  exact h.alternatives.forall hr hq hne hrc hqc hre hqe

end Schema

namespace Binding

open Schema
open Code (className memberName unique numbered Ordinary)

/-! ## The names of functions -/

def Slot.accessors (s : Slot) : List String :=
  s.member :: ("set_" ++ s.member) :: if s.cardinality = .list then ["add_" ++ s.item] else []

def Enumeration.conversions (e : Enumeration) : List String := [e.fromString, e.toString]

theorem accessors_names (s : Slot) :
    ((Code.accessors s).filter (·.implements.isNone)).map (·.name) = s.accessors := by
  rw [Code.accessors, Slot.accessors]
  split <;> rfl

theorem inherent_classOf (runtime : String) (rt : Code.Units) (c : Class) :
    (Code.classOf runtime rt c).inherent =
      c.slots.flatMap (·.accessors) ++ c.enumerations.flatMap (·.conversions) ++
        if c.root then Code.rootFunctionNames else [] := by
  have hroot : ((if c.root then Code.rootFunctions runtime rt else []).filter
      (·.implements.isNone)).map (·.name) = if c.root then Code.rootFunctionNames else [] := by
    cases c.root <;> rfl
  rw [Code.Class.inherent, Code.classOf]
  simp only [List.filter_append, List.map_append, hroot, List.filter_flatMap, List.map_flatMap,
    accessors_names]
  have helement : ((Code.elementFunctions runtime rt c).filter (·.implements.isNone)) = [] := rfl
  rw [helement, List.map_nil, List.append_nil]
  rfl

/-! ## Functions apart -/

/-- Whether a slot has no label but its member, and that is the name of no
    enumerated alternative. -/
def OwnLabelled (d : Document) (e : Element) (s : Slot) : Prop :=
  s.labels.Nodup ∧ ∀ l ∈ s.labels, l = s.member ∧
    ∀ r ∈ e.elementRelations, r.choice.isSome = true → d.enumeratesChild r = true →
      l ≠ d.childItem r

theorem ownLabelled_of_single {d : Document} {e : Element} {s : Slot} (type : ValueType)
    (hplace : s.place.types = [type])
    (hlabel : ∀ l, type.label? = some l → l = s.member ∧
      ∀ r ∈ e.elementRelations, r.choice.isSome = true → d.enumeratesChild r = true →
        ¬ l = d.childItem r) : OwnLabelled d e s := by
  rw [OwnLabelled, labels_single hplace]
  cases hl : type.label? with
  | none => exact ⟨.nil, fun _ h => by cases h⟩
  | some l =>
    refine ⟨List.nodup_singleton l, fun l' hl' => ?_⟩
    rw [Option.toList_some, List.mem_singleton] at hl'
    rw [hl']
    exact hlabel l hl

section
variable {d : Document} {path : List String} {e : Element} (hapart : d.FunctionsApart e)
  {groups taken taken' : List String} {slots : List Slot} {s t : Slot} {hs : List Holding}

include hapart

theorem Source.Gives.ordinary {source : Source}
    (h : source.Gives d path e.elementRelations s) (hamong : source.Among [] e.elementRelations) :
    Ordinary s.member := by
  cases source with
  | child r =>
    obtain ⟨-, target, taken, hs, ht, hslot⟩ := h
    exact hslot.ordinary (Document.childItem_eq ht ▸ hapart.children r hamong)
  | choice group =>
    obtain ⟨taken, hs, hslot⟩ := h
    exact hslot.ordinary

theorem Source.Gives.ownLabelled {r : Relation}
    (h : (Source.child r).Gives d path e.elementRelations s) (hr : r ∈ e.elementRelations) :
    OwnLabelled d e s := by
  obtain ⟨hc, target, taken, hs, ht, hslot⟩ := h
  obtain ⟨type, hplace, htyped⟩ := hslot.place
  refine ownLabelled_of_single type (by rw [hplace]; rfl) fun l hl => ?_
  obtain ⟨hmember, henum⟩ := htyped.label ht hl
  refine ⟨hmember, fun q hq hqc hqe heq => ?_⟩
  have hbegins := hslot.begins
  rw [← Document.childItem_eq ht, ← hmember, heq] at hbegins
  exact (hapart.labels q hq hqc hqe).1 r hr hc henum hbegins

theorem AttributeSlotsFor.ownLabelled {rs : List Relation}
    (h : AttributeSlotsFor d taken rs slots taken' hs) (hrs : rs ⊆ e.attributeRelations) :
    ∀ s ∈ slots, OwnLabelled d e s ∧ Ordinary s.member ∧ s.cardinality ≠ .list := by
  intro s hs
  obtain ⟨r, hr, a, _, _, ha, hslot⟩ := h.exists_relation hs
  refine ⟨?_, hslot.ordinary (Document.attributeItem_eq ha ▸ hapart.attributes r (hrs hr)),
    hslot.single⟩
  obtain ⟨type, hplace, htyped⟩ := hslot.place
  refine ownLabelled_of_single type (by rw [hplace]; rfl) fun l hl => ?_
  obtain ⟨hmember, hproper⟩ := htyped.label hl
  refine ⟨hmember, fun q hq hqc hqe heq => ?_⟩
  have hbegins := hslot.begins
  rw [← Document.attributeItem_eq ha, ← hmember, heq] at hbegins
  exact (hapart.labels q hq hqc hqe).2.1 r (hrs hr)
    (by simp [Document.enumeratesAttribute, ha, hproper]) hbegins

theorem TextSlotFor.ownLabelled {text : Option Slot} (h : TextSlotFor taken e text hs) :
    ∀ s ∈ text.toList, OwnLabelled d e s ∧ s.cardinality ≠ .list := by
  cases h with
  | none => exact fun _ h => by cases h
  | @some type _ member htext hmember htyped =>
    intro s hs
    rw [Option.toList_some, List.mem_singleton] at hs
    subst hs
    refine ⟨ownLabelled_of_single type rfl fun l hl => ?_, by simp⟩
    obtain ⟨hl', hproper⟩ := htyped.label hl
    refine ⟨hl', fun q hq hqc hqe heq => (hapart.labels q hq hqc hqe).2.2 htext hproper ?_⟩
    have hvalue : "value".toList <+:
        (if "value" ∈ taken then "value_text" else "value").toList := by
      split <;> decide
    rw [← heq, hl', hmember]
    exact begins_unique hvalue taken

theorem ChoiceSlotFor.labels_nodup {group : String}
    (h : ChoiceSlotFor d path taken e.elementRelations group s hs) : s.labels.Nodup := by
  refine List.Nodup.sublist h.labels (List.pairwise_map.2 ?_)
  have hsub : ((choiceOf e.elementRelations group).filter d.enumeratesChild).Sublist
      e.elementRelations := List.filter_sublist.trans List.filter_sublist
  refine (hapart.alternatives.sublist hsub).imp_of_mem fun {r q} hr hq hne => ?_
  obtain ⟨hr, hre⟩ := List.mem_filter.1 hr
  obtain ⟨hq, hqe⟩ := List.mem_filter.1 hq
  have hsome : ∀ {x : Relation}, x ∈ choiceOf e.elementRelations group →
      x.choice.isSome = true := by
    intro x hx
    have hchoice : x.choice = some group := by simpa using (List.mem_filter.1 hx).2
    rw [hchoice]
    rfl
  exact hne (hsome hr) (hsome hq) hre hqe

omit hapart in
theorem ChoiceSlotFor.exists_of_label {group l : String}
    (h : ChoiceSlotFor d path taken e.elementRelations group s hs) (hl : l ∈ s.labels) :
    ∃ r ∈ e.elementRelations, r.choice = some group ∧ d.enumeratesChild r = true ∧
      l = d.childItem r := by
  obtain ⟨r, hr, heq⟩ := List.mem_map.1 (h.labels.subset hl)
  obtain ⟨hr, hre⟩ := List.mem_filter.1 hr
  obtain ⟨hr, hchoice⟩ := List.mem_filter.1 hr
  exact ⟨r, hr, by simpa using hchoice, hre, heq.symm⟩

theorem Source.Gives.labels_nodup {source : Source}
    (h : source.Gives d path e.elementRelations s) (hamong : source.Among [] e.elementRelations) :
    s.labels.Nodup := by
  cases source with
  | child r => exact (h.ownLabelled hapart hamong).1
  | choice group =>
    obtain ⟨taken, hs, hslot⟩ := h
    exact hslot.labels_nodup hapart

theorem Source.Gives.ordinary_label {source : Source}
    (h : source.Gives d path e.elementRelations s) (hamong : source.Among [] e.elementRelations) :
    ∀ l ∈ s.labels, Ordinary l := by
  intro l hl
  cases source with
  | child r =>
    rw [((h.ownLabelled hapart hamong).2 l hl).1]
    exact h.ordinary hapart hamong
  | choice group =>
    obtain ⟨taken, hs, hslot⟩ := h
    obtain ⟨r, hr, -, -, heq⟩ := hslot.exists_of_label hl
    rw [heq]
    exact hapart.children r hr

theorem Source.Gives.labels_apart {source : Source}
    (h : source.Gives d path e.elementRelations s) (hamong : source.Among [] e.elementRelations)
    (ht : OwnLabelled d e t) (hmember : s.member ≠ t.member) : ∀ l ∈ s.labels, l ∉ t.labels := by
  intro l hl hl'
  obtain ⟨hlt, halternatives⟩ := ht.2 l hl'
  cases source with
  | child r =>
    obtain ⟨hls, -⟩ := (h.ownLabelled hapart hamong).2 l hl
    exact hmember (hls.symm.trans hlt)
  | choice group =>
    obtain ⟨taken, hs, hslot⟩ := h
    obtain ⟨r, hr, hchoice, hre, heq⟩ := hslot.exists_of_label hl
    exact halternatives r hr (by rw [hchoice]; rfl) hre heq

theorem Source.Gives.labels_disjoint {a b : Source} {P : Relation → Relation → Prop}
    (ha : a.Gives d path e.elementRelations s) (hb : b.Gives d path e.elementRelations t)
    (haa : a.Among [] e.elementRelations) (hba : b.Among [] e.elementRelations)
    (hdiffer : Source.Differ P a b) (hmember : s.member ≠ t.member) :
    ∀ l ∈ s.labels, l ∉ t.labels := by
  cases b with
  | child q => exact ha.labels_apart hapart haa (hb.ownLabelled hapart hba) hmember
  | choice group' =>
    cases a with
    | child r =>
      intro l hl hl'
      exact hb.labels_apart hapart hba (ha.ownLabelled hapart haa) (Ne.symm hmember) l hl' hl
    | choice group =>
      intro l hl hl'
      obtain ⟨taken, hs, hslot⟩ := ha
      obtain ⟨taken', hs', hslot'⟩ := hb
      obtain ⟨r, hr, hchoice, hre, heq⟩ := hslot.exists_of_label hl
      obtain ⟨q, hq, hchoice', hqe, heq'⟩ := hslot'.exists_of_label hl'
      have hne : r ≠ q := by
        rintro rfl
        exact hdiffer (Option.some.inj (hchoice.symm.trans hchoice'))
      exact hapart.alternatives_ne hr hq hne (by rw [hchoice]; rfl) (by rw [hchoice']; rfl) hre hqe
        (heq.symm.trans heq')

theorem Source.Gives.items_ne {a b : Source}
    (ha : a.Gives d path e.elementRelations s) (hb : b.Gives d path e.elementRelations t)
    (haa : a.Among [] e.elementRelations) (hba : b.Among [] e.elementRelations)
    (hdiffer : Source.Differ (fun r q => r.choice = none → q.choice = none → r.isList = true →
      q.isList = true → d.childItem r ≠ d.childItem q) a b)
    (hs : s.cardinality = .list) (ht : t.cardinality = .list) : s.item ≠ t.item := by
  -- a choice that is a list has a relation that is one
  have hlist : ∀ {u : Slot} {group : String} {taken : List String} {hs : List Holding},
      ChoiceSlotFor d path taken e.elementRelations group u hs → u.cardinality = .list →
      ∃ r ∈ e.elementRelations, r.choice = some group ∧ r.isList = true := by
    intro u group taken hs hslot hcard
    obtain ⟨r, hr, hrl⟩ := List.any_eq_true.1 (hslot.list.1 hcard)
    obtain ⟨hr, hchoice⟩ := List.mem_filter.1 hr
    exact ⟨r, hr, by simpa using hchoice, hrl⟩
  cases a with
  | child r =>
    obtain ⟨hc, target, taken, hs', htarget, hslot⟩ := ha
    rw [hslot.item, ← Document.childItem_eq htarget]
    cases b with
    | child q =>
      obtain ⟨hc', target', taken', hs'', htarget', hslot'⟩ := hb
      rw [hslot'.item, ← Document.childItem_eq htarget']
      exact hdiffer hc hc' (hslot.list.1 hs) (hslot'.list.1 ht)
    | choice group =>
      obtain ⟨taken', hs'', hslot'⟩ := hb
      obtain ⟨q, hq, hqc, hql⟩ := hlist hslot' ht
      rw [hslot'.item]
      exact hapart.choiceLists r haa q hq hc (by rw [hqc]; rfl) (hslot.list.1 hs) hql
  | choice group =>
    obtain ⟨taken, hs', hslot⟩ := ha
    obtain ⟨r, hr, hrc, hrl⟩ := hlist hslot hs
    cases b with
    | child q =>
      obtain ⟨hc', target', taken', hs'', htarget', hslot'⟩ := hb
      rw [hslot'.item, ← Document.childItem_eq htarget', hslot.item]
      exact (hapart.choiceLists q hba r hr hc' (by rw [hrc]; rfl) (hslot'.list.1 ht) hrl).symm
    | choice group' =>
      obtain ⟨taken', hs'', hslot'⟩ := hb
      obtain ⟨q, hq, hqc, hql⟩ := hlist hslot' ht
      have heq := hapart.choices r hr q hq (by rw [hrc]; rfl) (by rw [hqc]; rfl) hrl hql
      rw [hrc, hqc] at heq
      exact absurd (Option.some.inj heq) hdiffer

end

/-! ## All functions of a class -/

theorem mem_accessors {s : Slot} {name : String} (h : name ∈ s.accessors) :
    name = s.member ∨ name = "set_" ++ s.member ∨ s.cardinality = .list ∧ name = "add_" ++ s.item := by
  rw [Slot.accessors, List.mem_cons, List.mem_cons] at h
  rcases h with h | h | h
  · exact .inl h
  · exact .inr (.inl h)
  · split at h
    · rename_i hlist
      exact .inr (.inr ⟨hlist, List.mem_singleton.1 h⟩)
    · cases h

theorem accessors_nodup {s : Slot} (h : Ordinary s.member) : s.accessors.Nodup := by
  have hset : "set_" ++ s.member ≠ s.member := h.accessor_ne (by decide) _
  have hadd : "add_" ++ s.item ≠ s.member := h.accessor_ne (by decide) _
  have hmarks := Code.accessMarks_ne s.member s.item
  rw [Slot.accessors]
  split
  · simp [Ne.symm hset, Ne.symm hadd, hmarks]
  · simp [Ne.symm hset]

theorem accessors_disjoint {s t : Slot} (hs : Ordinary s.member) (ht : Ordinary t.member)
    (hmember : s.member ≠ t.member)
    (hitem : s.cardinality = .list → t.cardinality = .list → s.item ≠ t.item) :
    List.Disjoint s.accessors t.accessors := by
  intro name hn hn'
  rcases mem_accessors hn with rfl | rfl | ⟨hsl, rfl⟩
  · rcases mem_accessors hn' with h | h | ⟨-, h⟩
    · exact hmember h
    · exact hs.accessor_ne (by decide) _ h.symm
    · exact hs.accessor_ne (by decide) _ h.symm
  · rcases mem_accessors hn' with h | h | ⟨-, h⟩
    · exact ht.accessor_ne (by decide) _ h
    · exact hmember ((String.append_right_inj _).1 h)
    · exact Code.accessMarks_ne _ _ h
  · rcases mem_accessors hn' with h | h | ⟨htl, h⟩
    · exact ht.accessor_ne (by decide) _ h
    · exact Code.accessMarks_ne _ _ h.symm
    · exact hitem hsl htl ((String.append_right_inj _).1 h)

/-- Whether the names of slots keep apart the functions derived from them. -/
structure SlotsApart (slots : List Slot) : Prop where
  members : slots.Pairwise fun s t => s.member ≠ t.member
  ordinary : ∀ s ∈ slots, Ordinary s.member
  items : slots.Pairwise fun s t => s.cardinality = .list → t.cardinality = .list →
    s.item ≠ t.item
  labels : (slots.flatMap (·.labels)).Nodup
  ordinaryLabels : ∀ l ∈ slots.flatMap (·.labels), Ordinary l

section
variable {slots : List Slot}

theorem SlotsApart.accessors_nodup (h : SlotsApart slots) :
    (slots.flatMap (·.accessors)).Nodup := by
  refine List.nodup_flatMap.2 ⟨fun s hs => Binding.accessors_nodup (h.ordinary s hs), ?_⟩
  refine (h.members.and h.items).imp_of_mem fun {s t} hs ht hne => ?_
  exact accessors_disjoint (h.ordinary s hs) (h.ordinary t ht) hne.1 hne.2

theorem mem_conversions {e : Enumeration} {name : String} (h : name ∈ e.conversions) :
    ∃ mark ∈ Code.conversionMarks, name = e.label ++ mark := by
  rw [Enumeration.conversions, List.mem_cons, List.mem_singleton] at h
  rcases h with rfl | rfl
  · exact ⟨"_from_string", by decide, rfl⟩
  · exact ⟨"_to_string", by decide, rfl⟩

theorem conversions_nodup {es : List Enumeration} (h : (es.map (·.label)).Nodup) :
    (es.flatMap (·.conversions)).Nodup := by
  refine List.nodup_flatMap.2 ⟨fun e _ => ?_, ?_⟩
  · have hne : e.fromString ≠ e.toString := Code.conversionMarks_ne _ _
    simp [Enumeration.conversions, hne]
  · refine (List.pairwise_map.1 h).imp fun {e e'} hne name hn hn' => ?_
    simp only [Enumeration.conversions, List.mem_cons, List.not_mem_nil, or_false] at hn hn'
    rcases hn with rfl | rfl <;> rcases hn' with h | h
    · exact hne ((String.append_left_inj _).1 h)
    · exact Code.conversionMarks_ne _ _ h
    · exact Code.conversionMarks_ne _ _ h.symm
    · exact hne ((String.append_left_inj _).1 h)

theorem labels_flatMap (slots : List Slot) :
    (slots.flatMap (·.place.enumerations)).map (·.label) = slots.flatMap (·.labels) := by
  rw [List.map_flatMap]
  rfl

/-- **The functions of slots that are kept apart are different.** -/
theorem SlotsApart.functions_nodup (h : SlotsApart slots) (root : Bool) :
    (slots.flatMap (·.accessors) ++
      (slots.flatMap (·.place.enumerations)).flatMap (·.conversions) ++
      if root then Code.rootFunctionNames else []).Nodup := by
  have hlabel : ∀ {name}, name ∈ (slots.flatMap (·.place.enumerations)).flatMap (·.conversions) →
      ∃ l mark, Ordinary l ∧ mark ∈ Code.conversionMarks ∧ name = l ++ mark := by
    intro name hname
    obtain ⟨e, he, hname⟩ := List.mem_flatMap.1 hname
    obtain ⟨mark, hmark, heq⟩ := mem_conversions hname
    have hl : e.label ∈ slots.flatMap (·.labels) := by
      rw [← labels_flatMap]
      exact List.mem_map.2 ⟨e, he, rfl⟩
    exact ⟨e.label, mark, h.ordinaryLabels _ hl, hmark, heq⟩
  have hroots : ∀ {name}, (name ∈ if root then Code.rootFunctionNames else []) →
      name ∈ Code.rootFunctionNames := by
    intro name hname
    split at hname
    · exact hname
    · cases hname
  refine List.nodup_append.2 ⟨List.nodup_append.2 ⟨h.accessors_nodup,
    conversions_nodup (labels_flatMap slots ▸ h.labels), ?_⟩, ?_, ?_⟩
  · rintro name hname _ hname' rfl
    obtain ⟨s, hs, hname⟩ := List.mem_flatMap.1 hname
    obtain ⟨l, mark, hl, hmark, heq⟩ := hlabel hname'
    rcases mem_accessors hname with h' | h' | ⟨-, h'⟩
    · exact (h.ordinary s hs).conversion_ne hmark l (heq.symm.trans h')
    · exact hl.accessor_ne_conversion (by decide) hmark _ (h'.symm.trans heq)
    · exact hl.accessor_ne_conversion (by decide) hmark _ (h'.symm.trans heq)
  · split <;> decide
  · rintro name hname _ hname' rfl
    have hroot := hroots hname'
    rcases List.mem_append.1 hname with hname | hname
    · obtain ⟨s, hs, hname⟩ := List.mem_flatMap.1 hname
      rcases mem_accessors hname with rfl | rfl | ⟨-, rfl⟩
      · exact (h.ordinary s hs).word (by simp [hroot])
      · exact Code.accessor_not_root (by decide) _ hroot
      · exact Code.accessor_not_root (by decide) _ hroot
    · obtain ⟨l, mark, -, hmark, rfl⟩ := hlabel hname
      exact Code.conversion_not_root hmark l hroot

end

theorem ClassFor.slotsApart {site : Site} {path : List String} {e : Element} {c : Class}
    {hs : List Holding} (h : ClassFor site path e c hs)
    (hapart : site.document.FunctionsApart e) :
    SlotsApart (c.elements ++ (c.attributes ++ c.text.toList)) := by
  have hmembers : (c.elements ++ (c.attributes ++ c.text.toList)).Pairwise
      fun s t => s.member ≠ t.member := List.pairwise_map.1 h.members_nodup
  obtain ⟨taken, taken', hs₁, hs₂, hs₃, rfl, helements, hattributes, htext⟩ := h.slots
  obtain ⟨pairs, hpairs⟩ := helements.exists_sourced hapart.lists
  -- the slots for attributes and text are alike
  have hown : ∀ t ∈ c.attributes ++ c.text.toList,
      OwnLabelled site.document e t ∧ Ordinary t.member ∧ t.cardinality ≠ .list := by
    intro t ht
    rcases List.mem_append.1 ht with ht | ht
    · exact hattributes.ownLabelled hapart (List.Subset.refl _) t ht
    · obtain ⟨hlabelled, hsingle⟩ := htext.ownLabelled hapart t ht
      exact ⟨hlabelled, htext.ordinary t ht, hsingle⟩
  obtain ⟨hmembers₁, hmembers₂, hmembers₃⟩ := List.pairwise_append.1 hmembers
  have hlabels₁ : c.elements.Pairwise fun s t => List.Disjoint s.labels t.labels := by
    have hdisjoint : c.elements.Pairwise fun s t => s.member ≠ t.member →
        List.Disjoint s.labels t.labels :=
      hpairs.pairwise fun s t a b ha hb hga hgb hdiffer hne =>
        fun {l} hl hl' => hga.labels_disjoint hapart hgb ha hb hdiffer hne l hl hl'
    exact (hmembers₁.and hdisjoint).imp fun hst => hst.2 hst.1
  have hlabels₂ : (c.attributes ++ c.text.toList).Pairwise
      fun s t => List.Disjoint s.labels t.labels := by
    refine hmembers₂.imp_of_mem fun {s t} hs ht hne l hl hl' => hne ?_
    exact ((hown s hs).1.2 l hl).1.symm.trans ((hown t ht).1.2 l hl').1
  constructor
  case members => exact hmembers
  case ordinary =>
    intro s hs
    rcases List.mem_append.1 hs with hs | hs
    · obtain ⟨source, hgives, hamong⟩ := hpairs.exists_source hs
      exact hgives.ordinary hapart hamong
    · exact (hown s hs).2.1
  case items =>
    refine List.pairwise_append.2 ⟨?_, ?_, fun s hs t ht _ hlist => ?_⟩
    · exact hpairs.pairwise fun s t a b ha hb hga hgb hdiffer hs ht =>
        hga.items_ne hapart hgb ha hb hdiffer hs ht
    · refine List.pairwise_of_forall_mem_list fun s hs t ht hlist => ?_
      exact absurd hlist (hown s hs).2.2
    · exact absurd hlist (hown t ht).2.2
  case labels =>
    refine List.nodup_flatMap.2 ⟨fun s hs => ?_, List.pairwise_append.2 ⟨hlabels₁, hlabels₂,
      fun s hs t ht => ?_⟩⟩
    · rcases List.mem_append.1 hs with hs | hs
      · obtain ⟨source, hgives, hamong⟩ := hpairs.exists_source hs
        exact hgives.labels_nodup hapart hamong
      · exact (hown s hs).1.1
    · obtain ⟨source, hgives, hamong⟩ := hpairs.exists_source hs
      intro l hl hl'
      exact hgives.labels_apart hapart hamong (hown t ht).1 (hmembers₃ s hs t ht) l hl hl'
  case ordinaryLabels =>
    intro l hl
    obtain ⟨s, hs, hl⟩ := List.mem_flatMap.1 hl
    rcases List.mem_append.1 hs with hs | hs
    · obtain ⟨source, hgives, hamong⟩ := hpairs.exists_source hs
      exact hgives.ordinary_label hapart hamong l hl
    · rw [((hown s hs).1.2 l hl).1]
      exact (hown s hs).2.1

/-! ## Variants -/

def fallbackVariant (n : Nat) : String := s!"Alternative{n}"

theorem toList_fallbackVariant (n : Nat) :
    (fallbackVariant n).toList = "Alternative".toList ++ Nat.toDigits 10 n := by
  simp [fallbackVariant, Nat.toList_repr, ToString.toString]

theorem fallbackVariant_inj {m n : Nat} (h : fallbackVariant m = fallbackVariant n) : m = n := by
  have hlist : "Alternative".toList ++ Nat.toDigits 10 m =
      "Alternative".toList ++ Nat.toDigits 10 n := by
    rw [← toList_fallbackVariant, h, toList_fallbackVariant]
  exact toDigits_inj (List.append_cancel_left hlist)

def childClass (d : Document) (r : Relation) : String := className (d.childTag r)

theorem childClass_eq {d : Document} {r : Relation} {target : Element}
    (h : d.elements.get? r.target = some target) : childClass d r = className target.name := by
  rw [childClass, Document.childTag, h]
  rfl

/-- Whether the alternatives of every choice have different class names, or none
    that might stand in for another. -/
def VariantsApart (d : Document) (e : Element) : Prop :=
  ∀ group, ((choiceOf e.elementRelations group).map (childClass d)).Nodup ∨
    ∀ r ∈ choiceOf e.elementRelations group, ∀ n, childClass d r ≠ fallbackVariant n

section
variable {d : Document} {path : List String} {made as : List Alternative} {rs : List Relation}
  {hs : List Holding}

theorem variantFor_eq (made : List Alternative) (target : Element) :
    variantFor made target = if className target.name ∈ made.map (·.name)
      then fallbackVariant made.length else className target.name := by
  have hiff : made.any (·.name == className target.name) = true ↔
      className target.name ∈ made.map (·.name) := by
    simp only [List.any_eq_true, beq_iff_eq, List.mem_map]
  rw [variantFor, fallbackVariant]
  exact ite_congr (propext hiff) (fun _ => rfl) (fun _ => rfl)

theorem AlternativesFor.variants_of_classes (h : AlternativesFor d path made rs as hs)
    (hnodup : (made.map (·.name) ++ rs.map (childClass d)).Nodup) :
    (as.map (·.name)).Nodup := by
  induction h with
  | nil => simpa using hnodup
  | dangling _ _ ih =>
    refine ih (hnodup.sublist ?_)
    exact (List.Sublist.refl _).append ((List.sublist_cons_self _ _).map _)
  | @cons made _ r _ target _ _ _ ht _ _ ih =>
    have hvariant := variantFor_eq made target
    rw [← childClass_eq ht] at hvariant
    have hfree : childClass d r ∉ made.map (·.name) :=
      fun hmem => List.disjoint_of_nodup_append hnodup hmem
        (List.mem_map_of_mem List.mem_cons_self)
    rw [if_neg hfree] at hvariant
    refine ih ?_
    rw [List.map_cons, ← List.singleton_append, ← List.append_assoc] at hnodup
    rw [List.map_append, List.map_singleton, hvariant]
    dsimp only
    exact hnodup

/-- Alternatives with no class name that stands in for another get different
    variants. -/
theorem AlternativesFor.variants_of_fallbacks (h : AlternativesFor d path made rs as hs)
    (hclasses : ∀ r ∈ rs, ∀ n, childClass d r ≠ fallbackVariant n)
    (hnodup : (made.map (·.name)).Nodup)
    (hmade : ∀ name ∈ made.map (·.name), (∀ n, name ≠ fallbackVariant n) ∨
      ∃ n < made.length, name = fallbackVariant n) : (as.map (·.name)).Nodup := by
  induction h with
  | nil => exact hnodup
  | dangling _ _ ih =>
    exact ih (fun r hr => hclasses r (List.mem_cons_of_mem _ hr)) hnodup hmade
  | @cons made _ r _ target type _ _ ht _ _ ih =>
    have hclass := hclasses r List.mem_cons_self
    rw [childClass_eq ht] at hclass
    -- the new variant is a class name that is free, or counts the alternatives before it
    obtain ⟨hfree, hkind⟩ : variantFor made target ∉ made.map (·.name) ∧
        ((∀ n, variantFor made target ≠ fallbackVariant n) ∨
          variantFor made target = fallbackVariant made.length) := by
      rw [variantFor_eq]
      split
      · refine ⟨fun hmem => ?_, .inr rfl⟩
        rcases hmade _ hmem with hne | ⟨n, hn, heq⟩
        · exact hne _ rfl
        · exact absurd (fallbackVariant_inj heq) (Nat.ne_of_gt hn)
      · rename_i hfree
        exact ⟨hfree, .inl hclass⟩
    refine ih (fun r hr => hclasses r (List.mem_cons_of_mem _ hr)) ?_ fun name hname => ?_
    · rw [List.map_append]
      refine List.nodup_append.2 ⟨hnodup, List.nodup_singleton _, ?_⟩
      rintro name hname _ hname' rfl
      rw [List.map_singleton, List.mem_singleton] at hname'
      rw [hname'] at hname
      exact hfree hname
    · rw [List.length_append, List.length_singleton]
      rw [List.map_append, List.mem_append, List.map_singleton, List.mem_singleton] at hname
      rcases hname with hname | rfl
      · rcases hmade name hname with hne | ⟨n, hn, heq⟩
        · exact .inl hne
        · exact .inr ⟨n, Nat.lt_succ_of_lt hn, heq⟩
      · rcases hkind with hne | heq
        · exact .inl hne
        · exact .inr ⟨made.length, Nat.lt_succ_self _, heq⟩

theorem AlternativesFor.variants_nodup {e : Element} {group : String} (hapart : VariantsApart d e)
    (h : AlternativesFor d path [] (choiceOf e.elementRelations group) as hs) :
    (as.map (·.name)).Nodup := by
  rcases hapart group with hnodup | hclasses
  · exact h.variants_of_classes (by simpa using hnodup)
  · exact h.variants_of_fallbacks hclasses .nil fun _ h => by cases h

end

theorem ClassFor.alternatives {site : Site} {path : List String} {e : Element} {c : Class}
    {hs : List Holding} (h : ClassFor site path e c hs) {union group : String}
    {as : List Alternative} (hu : (union, group, as) ∈ c.unions) :
    ∃ hs', AlternativesFor site.document path [] (choiceOf e.elementRelations group) as hs' := by
  obtain ⟨taken, taken', hs₁, hs₂, hs₃, rfl, helements, -, -⟩ := h.slots
  obtain ⟨s, hs, hplace⟩ := List.mem_filterMap.1 hu
  cases helements.slotFor hs with
  | child _ _ _ hslot =>
    obtain ⟨type, hchild, -⟩ := hslot.place
    rw [hchild] at hplace
    cases hplace
  | choice hslot =>
    obtain ⟨union', as', hs', hchoice, -, has⟩ := hslot.place
    rw [hchoice] at hplace
    cases hplace
    exact ⟨hs', has⟩

/-! ## Generated files -/

/-- **No function or variant is defined twice.**  Every class of a generated
    file is made for an element: its own functions have different names, if the
    names of the element keep them apart, and so have the variants of each of
    its unions. -/
theorem generate_functions_nodup {d : Document} (hd : d.Keyed) {o : Code.Options}
    {file : Code.File} (hok : (Code.generate d o).1 = .ok file) :
    ∃ rt classes, (plan (o.site d)).1 = .ok classes ∧ file = Code.fileOf o rt d classes ∧
      ∀ c ∈ classes, ∃ e, d.elements.get? c.element = some e ∧ c.name = className e.name ∧
        (d.FunctionsApart e → (Code.classOf o.runtime rt c).inherent.Nodup) ∧
        (VariantsApart d e → ∀ u ∈ (Code.classOf o.runtime rt c).unions,
          (u.variants.map (·.1)).Nodup) := by
  obtain ⟨rt, classes, -, hplan, hfile⟩ := exists_plan hok
  refine ⟨rt, classes, hplan, hfile, fun c hc => ?_⟩
  obtain ⟨id, e, path, hs, he, hclass⟩ := plan_faithful hd hplan hc
  refine ⟨e, hclass.get?_element hd he, hclass.name, fun hapart => ?_, fun hapart u hu => ?_⟩
  · have hslots : c.slots.Perm (c.elements ++ (c.attributes ++ c.text.toList)) :=
      List.perm_append_comm
    have henumerations : c.enumerations =
        (c.elements ++ (c.attributes ++ c.text.toList)).flatMap (·.place.enumerations) := by
      rw [Class.enumerations, List.append_assoc]
    rw [inherent_classOf, henumerations]
    refine (((hslots.flatMap_right _).append_right _).append_right _).nodup_iff.2 ?_
    exact (hclass.slotsApart hapart).functions_nodup c.root
  · obtain ⟨⟨union, group, as⟩, hmem, rfl⟩ := List.mem_map.1 hu
    obtain ⟨hs', has⟩ := hclass.alternatives hmem
    have hvariants : (Code.unionOf union group as).variants.map (·.1) = as.map (·.name) := by
      rw [Code.unionOf, List.map_map]
      rfl
    rw [hvariants]
    exact has.variants_nodup hapart

/-- Letters: a list of paragraphs and one of a choice, two of whose alternatives
    have one class name, and enumerations at every place. -/
def letterDocument : Document :=
  { roots := ["letter"]
    elements := ⟨[
      ("letter", {
        identifier := "letter", name := "letter"
        elementRelations := [
          { target := "priority" },
          { target := "paragraph", occurs := ⟨0, .unbounded⟩ },
          { target := "image", occurs := ⟨0, .unbounded⟩, choice := some "image+Image+tone" },
          { target := "Image", occurs := ⟨0, .unbounded⟩, choice := some "image+Image+tone" },
          { target := "tone", occurs := ⟨0, .unbounded⟩, choice := some "image+Image+tone" }]
        attributeRelations := [{ target := "letter@kind" }] }),
      ("priority", {
        identifier := "priority", name := "priority", text := true
        facet := some { values := ["low", "high"] } }),
      ("paragraph", { identifier := "paragraph", name := "paragraph", text := true }),
      ("image", { identifier := "image", name := "image", text := true }),
      ("Image", { identifier := "Image", name := "Image", text := true }),
      ("tone", {
        identifier := "tone", name := "tone", text := true
        facet := some { values := ["warm", "formal"] } })]⟩
    attributes := ⟨[
      ("letter@kind", {
        identifier := "letter@kind", name := "kind"
        facet := some { values := ["draft", "sent"] } })]⟩ }

set_option maxRecDepth 10000 in
theorem letter_functions_nodup : letterDocument.Keyed ∧
    (∀ id e, letterDocument.elements.get? id = some e →
      letterDocument.FunctionsApart e ∧ VariantsApart letterDocument e) ∧
    ∃ file, (Code.generate letterDocument {}).1 = .ok file ∧
      file.classes.map (fun c => (c.inherent, c.unions.map fun u => u.variants.map (·.1))) =
        [(["kind", "set_kind", "priority", "set_priority", "paragraph_list",
          "set_paragraph_list", "add_paragraph", "choice_list", "set_choice_list", "add_choice",
          "priority_from_string", "priority_to_string", "tone_from_string", "tone_to_string",
          "kind_from_string", "kind_to_string", "parse_string", "parse_file", "write_string",
          "write_file"], [["Image", "Alternative1", "Tone"]])] ∧
      ∀ c ∈ file.classes, c.inherent.Nodup ∧ ∀ u ∈ c.unions, (u.variants.map (·.1)).Nodup := by
  have hkeyed : letterDocument.Keyed := Document.keyed_of_entries (by decide)
  have hapart : ∀ id e, letterDocument.elements.get? id = some e →
      letterDocument.FunctionsApart e ∧ VariantsApart letterDocument e := by
    have hentries : ∀ entry ∈ letterDocument.elements.entries,
        letterDocument.FunctionsApart entry.2 ∧ ∀ r ∈ entry.2.elementRelations,
          ¬ "Alternative".toList <+: (childClass letterDocument r).toList := by
      decide +kernel
    intro id e he
    obtain ⟨hfunctions, hclasses⟩ := hentries (id, e) (Table.mem_entries_of_get? he)
    refine ⟨hfunctions, fun group => .inr fun r hr n hclass => ?_⟩
    refine hclasses r (List.mem_of_mem_filter hr) ?_
    rw [hclass, toList_fallbackVariant]
    exact List.prefix_append _ _
  refine ⟨hkeyed, hapart, exists_file (by decide +kernel) fun file hok _ _ hmade => ?_⟩
  obtain ⟨rt, classes, -, rfl, hclasses⟩ := generate_functions_nodup hkeyed hok
  obtain ⟨c, hc, rfl⟩ := List.mem_map.1 hmade
  obtain ⟨e, he, -, hfunctions, hvariants⟩ := hclasses c hc
  exact ⟨hfunctions (hapart _ e he).1, hvariants (hapart _ e he).2⟩

/-- Logs: two choices are lists, and an alternative of the second has the class
    name that stands in for that of another. -/
def logDocument : Document :=
  { roots := ["log"]
    elements := ⟨[
      ("log", {
        identifier := "log", name := "log"
        elementRelations := [
          { target := "note", occurs := ⟨0, .unbounded⟩, choice := some "note+mark" },
          { target := "mark", occurs := ⟨0, .unbounded⟩, choice := some "note+mark" },
          { target := "alternative2", occurs := ⟨0, .unbounded⟩,
            choice := some "alternative2+item+Item" },
          { target := "item", occurs := ⟨0, .unbounded⟩, choice := some "alternative2+item+Item" },
          { target := "Item", occurs := ⟨0, .unbounded⟩, choice := some "alternative2+item+Item" }] }),
      ("note", { identifier := "note", name := "note", text := true }),
      ("mark", { identifier := "mark", name := "mark", text := true }),
      ("alternative2", { identifier := "alternative2", name := "alternative2", text := true }),
      ("item", { identifier := "item", name := "item", text := true }),
      ("Item", { identifier := "Item", name := "Item", text := true })]⟩ }

set_option maxRecDepth 10000 in
/-- Two choices are added to by functions of one name, and the name that stands in
    for that of the third alternative is that of the first. -/
theorem log_functions_repeated : logDocument.Keyed ∧ logDocument.validate = .ok () ∧
    ∃ file, (Code.generate logDocument {}).1 = .ok file ∧ ∃ c ∈ file.classes,
      c.inherent = ["choice_list", "set_choice_list", "add_choice", "choice_list2",
        "set_choice_list2", "add_choice", "parse_string", "parse_file", "write_string",
        "write_file"] ∧ ¬ c.inherent.Nodup ∧
      ∃ u ∈ c.unions, u.variants.map (·.1) = ["Alternative2", "Item", "Alternative2"] ∧
        ¬ (u.variants.map (·.1)).Nodup := by
  have hnames : (Code.generate logDocument {}).1.toOption.map (fun file =>
      file.classes.map fun c => (c.inherent, c.unions.map fun u => u.variants.map (·.1))) =
      some [(["choice_list", "set_choice_list", "add_choice", "choice_list2", "set_choice_list2",
        "add_choice", "parse_string", "parse_file", "write_string", "write_file"],
        [["Note", "Mark"], ["Alternative2", "Item", "Alternative2"]])] := by
    decide +kernel
  obtain ⟨file, hok, hfile, -⟩ := exists_file hnames fun _ _ _ => trivial
  obtain ⟨c, hc, hlog⟩ := List.mem_map.1 (hfile.symm ▸ List.mem_singleton_self _)
  obtain ⟨hinherent, hunions⟩ := Prod.mk.inj hlog
  obtain ⟨u, hu, hvariants⟩ :=
    List.mem_map.1 (hunions.symm ▸ List.mem_cons_of_mem _ (List.mem_singleton_self _))
  refine ⟨Document.keyed_of_entries (by decide), by decide, file, hok, c, hc, hinherent, ?_, u, hu,
    hvariants, ?_⟩
  · rw [hinherent]
    decide
  · rw [hvariants]
    decide

end Binding

end Bindery
