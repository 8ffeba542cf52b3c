/-
  Planning records.

  A record is an element whose attributes, text and children are strings, each
  of which is there once.  No class is reached from it, so the slots of its own
  class follow from its relations alone (`buildClass_record`), and the classes of
  a document whose roots are records are those of its roots.

  * `Recorded`: what holds while the classes of the roots are made, one after
    the other (`ensures_createClass_record`);
  * `plan_records`: the classes of a plan are those of its roots.
-/
import Bindery.Proofs.Binding.Coherent
import Bindery.Proofs.Binding.Steps

namespace Bindery

namespace Schema

def isString (dataType : Option DataType) (facet : Option Facet) : Bool :=
  dataType.getD .string == .string && (Facet.proper facet).isNone

def Document.IsStringChild (d : Document) (r : Relation) : Prop :=
  r.occurs = ⟨1, .count 1⟩ ∧ r.choice = none ∧ ∃ target, d.elements.get? r.target = some target ∧
    target.isTextOnly = true ∧ isString target.dataType target.facet = true

def Document.IsStringAttribute (d : Document) (r : Relation) : Prop :=
  r.occurs = ⟨1, .count 1⟩ ∧ ∃ a, d.attributes.get? r.target = some a ∧
    isString a.dataType a.facet = true

/-- The attributes, the text and the children of an element are strings.  They
    are all there once, and have different names. -/
structure Document.IsRecord (d : Document) (e : Element) : Prop where
  attributes : ∀ r ∈ e.attributeRelations, d.IsStringAttribute r
  text : e.text = true → isString e.dataType e.facet = true
  children : ∀ r ∈ e.elementRelations, d.IsStringChild r
  attributeNames : (e.attributeRelations.map d.attributeName).Nodup
  childTags : (e.elementRelations.map d.childTag).Nodup

def Document.OfRecords (d : Document) : Prop :=
  ∀ root ∈ d.roots, ∃ e, d.elements.get? root = some e ∧ d.IsRecord e

end Schema

namespace Binding

open Schema
open Code (className memberName)

/-- Where the strings of a record stand. -/
def recordPlaces (d : Document) (e : Element) : List Place :=
  e.attributeRelations.map (fun r => .attr (d.attributeName r) (.scalar .string)) ++
    (if e.text then [.text (.scalar .string)] else []) ++
    e.elementRelations.map (fun r => .child (d.childTag r) (.scalar .string))

/-- The class of a record: one slot for every string, in its segment. -/
structure RecordClass (d : Document) (e : Element) (c : Class) : Prop where
  name : c.name = className e.name
  tag : c.tag = e.name
  attributes : c.attributes.map (·.place) =
    e.attributeRelations.map fun r => .attr (d.attributeName r) (.scalar .string)
  text : c.text.toList.map (·.place) = if e.text then [.text (.scalar .string)] else []
  elements : c.elements.map (·.place) =
    e.elementRelations.map fun r => .child (d.childTag r) (.scalar .string)
  single : ∀ s ∈ c.slots, s.cardinality = .one

section
variable {d : Document} {e : Element} {c : Class}

theorem RecordClass.places (h : RecordClass d e c) :
    c.slots.map (·.place) = recordPlaces d e := by
  rw [Class.slots, List.map_append, List.map_append, h.attributes, h.text, h.elements, recordPlaces]

theorem exists_place {place : String → Place} {f : Relation → String} {ss : List Slot}
    {rs : List Relation} (h : ss.map (·.place) = rs.map fun r => place (f r)) {s : Slot}
    (hs : s ∈ ss) : ∃ tag, s.place = place tag := by
  have hmem : s.place ∈ ss.map (·.place) := List.mem_map_of_mem hs
  rw [h] at hmem
  obtain ⟨r, -, hr⟩ := List.mem_map.1 hmem
  exact ⟨_, hr.symm⟩

theorem RecordClass.attribute (h : RecordClass d e c) {s : Slot} (hs : s ∈ c.attributes) :
    s.cardinality = .one ∧ ∃ tag, s.place = .attr tag (.scalar .string) :=
  ⟨h.single s (by simp [Class.slots, hs]), exists_place h.attributes hs⟩

theorem RecordClass.textSlot (h : RecordClass d e c) {s : Slot} (hs : s ∈ c.text.toList) :
    s.cardinality = .one ∧ s.place = .text (.scalar .string) := by
  have hmem : s.place ∈ c.text.toList.map (·.place) := List.mem_map_of_mem hs
  rw [h.text] at hmem
  refine ⟨h.single s (by simp only [Class.slots, List.mem_append, hs, or_true, true_or]), ?_⟩
  split at hmem
  · exact List.mem_singleton.1 hmem
  · cases hmem

theorem RecordClass.child (h : RecordClass d e c) {s : Slot} (hs : s ∈ c.elements) :
    s.cardinality = .one ∧ ∃ tag, s.place = .child tag (.scalar .string) :=
  ⟨h.single s (by simp [Class.slots, hs]), exists_place h.elements hs⟩

theorem tags_of_places (place : String → Place) {g : Relation → String} {tags : Slot → List String}
    (htags : ∀ s tag, s.place = place tag → tags s = [tag]) :
    ∀ {ss : List Slot} {rs : List Relation},
      ss.map (·.place) = rs.map (fun r => place (g r)) → ss.flatMap tags = rs.map g
  | [], [], _ => rfl
  | s :: ss, r :: rs, h => by
    obtain ⟨hs, hss⟩ := List.cons.inj h
    rw [List.flatMap_cons, htags s _ hs, tags_of_places place htags hss]
    rfl

theorem RecordClass.coherent (h : RecordClass d e c) (he : d.IsRecord e) (cs : Instance.Classes) :
    c.Coherent cs where
  attributes s hs := by
    obtain ⟨hone, tag, hp⟩ := h.attribute hs
    simp [Slot.isAttribute, hp, hone, ValueType.isLiteral]
  attributeTags := by
    rw [tags_of_places (.attr · _) (fun s tag hp => by simp [Slot.attributeTags, hp]) h.attributes]
    exact he.attributeNames
  text s hs := by
    obtain ⟨hone, hp⟩ := h.textSlot hs
    simp [Slot.isText, hp, hone, ValueType.isLiteral]
  elements s hs := by
    obtain ⟨-, tag, hp⟩ := h.child hs
    simp [Slot.isElement, hp]
  childTags := by
    rw [tags_of_places (.child · _) (fun s tag hp => by simp [Slot.children, hp]) h.elements]
    exact he.childTags
  bears s hs x hx := by
    obtain ⟨-, tag, hp⟩ := h.child hs
    obtain rfl : x = (tag, .scalar .string) := by simpa [Slot.children, hp] using hx
    rfl
  apart s hs _ x hx := by
    obtain ⟨-, tag, hp⟩ := h.child hs
    obtain rfl : x = (tag, .scalar .string) := by simpa [Slot.children, hp] using hx
    simp [ValueType.class?]

theorem RecordClass.enumerations (h : RecordClass d e c) : c.enumerations = [] := by
  refine List.flatMap_eq_nil_iff.2 fun s hs => ?_
  simp only [List.mem_append] at hs
  rcases hs with (hs | hs) | hs
  · obtain ⟨-, tag, hp⟩ := h.child hs
    simp [hp, Place.enumerations, Place.types, ValueType.enumeration?]
  · obtain ⟨-, tag, hp⟩ := h.attribute hs
    simp [hp, Place.enumerations, Place.types, ValueType.enumeration?]
  · simp [(h.textSlot hs).2, Place.enumerations, Place.types, ValueType.enumeration?]

end

/-! ## Slots -/

theorem scalarType_string {dataType : Option DataType} {facet : Option Facet}
    (h : isString dataType facet = true) (cls label : String) :
    (scalarType cls label dataType facet : PlanM _) = pure (.scalar .string) := by
  rw [isString, Bool.and_eq_true, beq_iff_eq, Option.isNone_iff_eq_none] at h
  rw [scalarType, h.2, h.1]

section
variable {d : Document} {r : Relation}

theorem childSlot_string (h : d.IsStringChild r) (path : PlanM (List String))
    (create : String → PlanM (Option String)) (cls : String) (taken : List String) :
    ∃ s taken', childSlot d path create cls taken r = pure (some s, taken') ∧
      s.place = .child (d.childTag r) (.scalar .string) ∧ s.cardinality = .one := by
  obtain ⟨hoccurs, -, target, ht, htext, hstring⟩ := h
  have hlist : r.isList = false := by simp [Relation.isList, hoccurs, Occurs.isList]
  have hoptional : r.isOptional = false := by simp [Relation.isOptional, hoccurs, Occurs.isOptional]
  have htag : d.childTag r = target.name := by simp [Document.childTag, ht]
  rw [childSlot, ht]
  simp only [hlist, childType, htext, if_true, scalarType_string hstring, pure_bind, hoptional]
  generalize memberName target.name = item
  generalize Code.unique taken (if false then item ++ "_list" else item) = member
  exact ⟨⟨member, item, .one, .child target.name (.scalar .string)⟩, member :: taken, rfl,
    by rw [htag], rfl⟩

theorem elementSlots_record (path : PlanM (List String))
    (create : String → PlanM (Option String)) (cls : String) (all : List Relation)
    (groups : List String) :
    ∀ (rs : List Relation) (taken : List String), (∀ r ∈ rs, d.IsStringChild r) →
      ∃ slots taken', elementSlots d path create cls all groups taken rs = pure (slots, taken') ∧
        slots.map (·.place) = rs.map (fun r => .child (d.childTag r) (.scalar .string)) ∧
        ∀ s ∈ slots, s.cardinality = .one
  | [], taken, _ => ⟨[], taken, rfl, rfl, fun _ h => absurd h List.not_mem_nil⟩
  | r :: rs, taken, h => by
    have hr := h r List.mem_cons_self
    obtain ⟨s, taken₁, hslot, hplace, hone⟩ := childSlot_string hr path create cls taken
    obtain ⟨slots, taken₂, hslots, hplaces, hones⟩ := elementSlots_record path create cls all groups
      rs taken₁ fun q hq => h q (List.mem_cons_of_mem _ hq)
    refine ⟨s :: slots, taken₂, ?_, by simp [hplace, hplaces], ?_⟩
    · rw [elementSlots, hr.2.1]
      simp only [hslot, pure_bind, hslots]
      rfl
    · rintro t ht
      rcases List.mem_cons.1 ht with rfl | ht
      · exact hone
      · exact hones t ht

theorem attributeSlots_record (cls : String) :
    ∀ (rs : List Relation) (taken : List String), (∀ r ∈ rs, d.IsStringAttribute r) →
      ∃ slots taken', (attributeSlots d cls taken rs : PlanM _) = pure (slots, taken') ∧
        slots.map (·.place) = rs.map (fun r => .attr (d.attributeName r) (.scalar .string)) ∧
        ∀ s ∈ slots, s.cardinality = .one
  | [], taken, _ => ⟨[], taken, rfl, rfl, fun _ h => absurd h List.not_mem_nil⟩
  | r :: rs, taken, h => by
    obtain ⟨hoccurs, a, ha, hstring⟩ := h r List.mem_cons_self
    have hoptional : r.isOptional = false := by
      simp [Relation.isOptional, hoccurs, Occurs.isOptional]
    have hname : d.attributeName r = a.name := by simp [Document.attributeName, ha]
    rw [attributeSlots, ha]
    simp only [scalarType_string hstring, pure_bind, hoptional]
    generalize Code.unique taken
      (if memberName a.name ∈ taken then memberName a.name ++ "_attr" else memberName a.name) = member
    obtain ⟨slots, taken', hslots, hplaces, hones⟩ := attributeSlots_record cls rs (member :: taken)
      fun q hq => h q (List.mem_cons_of_mem _ hq)
    refine ⟨⟨member, member, .one, .attr a.name (.scalar .string)⟩ :: slots, taken', ?_,
      by simp [hname, hplaces], ?_⟩
    · rw [hslots, pure_bind]
      rfl
    · rintro s hs
      rcases List.mem_cons.1 hs with rfl | hs
      · rfl
      · exact hones s hs

theorem textSlot_record {e : Element} (h : e.text = true → isString e.dataType e.facet = true)
    (cls : String) (taken : List String) :
    ∃ slot, (textSlot cls taken e : PlanM _) = pure slot ∧
      slot.toList.map (·.place) = (if e.text then [.text (.scalar .string)] else []) ∧
      ∀ s ∈ slot.toList, s.cardinality = .one := by
  rw [textSlot]
  by_cases ht : e.text = true
  · rw [if_pos ht, if_pos ht]
    simp only [scalarType_string (h ht), pure_bind]
    refine ⟨_, rfl, rfl, ?_⟩
    rintro s hs
    rw [Option.toList_some, List.mem_singleton] at hs
    rw [hs]
  · rw [if_neg ht, if_neg ht]
    exact ⟨none, rfl, rfl, fun _ hs => absurd hs List.not_mem_nil⟩

end

/-! ## Classes -/

theorem buildClass_record {site : Site} {e : Element} (h : site.document.IsRecord e)
    (path : PlanM (List String)) (create : String → PlanM (Option String)) :
    ∃ c, RecordClass site.document e c ∧
      buildClass site path create e =
        (requireLegal (c.slots.flatMap (·.names)) >>= fun _ => pure c) := by
  rw [buildClass]
  generalize hcls : className e.name = cls
  obtain ⟨elements, taken, helements, hplaces, hones⟩ :=
    elementSlots_record path create cls e.elementRelations [] _ [] h.children
  obtain ⟨attributes, taken', hattributes, haplaces, haones⟩ :=
    attributeSlots_record cls _ taken h.attributes
  obtain ⟨text, htext, htplaces, htones⟩ := textSlot_record h.text cls taken'
  simp only [helements, hattributes, htext, pure_bind]
  refine ⟨_, ⟨hcls.symm, rfl, haplaces, htplaces, hplaces, ?_⟩, rfl⟩
  intro s hs
  simp only [Class.slots, List.mem_append] at hs
  rcases hs with (hs | hs) | hs
  · exact haones s hs
  · exact htones s hs
  · exact hones s hs

theorem ensures_claimName_owned (policy : ConflictPolicy) (name id : String) (p : Planning) :
    Ensures (claimName policy name id) p fun free p' => SameClasses p p' ∧
      (free = true ∨ ∃ owner, p.owners.get? name = some owner) := by
  rw [claimName]
  refine .bind (ensures_get (P := fun q p' => q = p ∧ p' = p) ⟨rfl, rfl⟩) ?_
  rintro _ _ ⟨rfl, rfl⟩
  rename_i p
  cases ho : p.owners.get? name with
  | none => exact .pure ⟨.refl p, .inl rfl⟩
  | some previous =>
    dsimp only
    split
    · exact .pure ⟨.refl p, .inr ⟨previous, rfl⟩⟩
    · cases policy with
      | replace =>
        refine .bind (ensures_tell _ p) fun _ p₁ h₁ => ?_
        have hrelease : Ensures (release name) p₁ fun _ p' => SameClasses p₁ p' := by
          refine ensures_modify ?_
          split
          · exact ⟨rfl, rfl⟩
          · exact .refl p₁
        exact .bind hrelease fun _ _ h₂ => .pure ⟨h₁.trans h₂, .inl rfl⟩
      | keep =>
        exact .bind (ensures_tell _ p) fun _ _ h₁ => .pure ⟨h₁, .inr ⟨previous, rfl⟩⟩
      | error => exact .throw _

/-- What holds while the classes of records are made: every class is one of a
    root, under its name, and every name that is taken has its class. -/
structure Recorded (d : Document) (p : Planning) : Prop where
  classes : ∀ entry ∈ p.classes.entries, entry.2.name = entry.1 ∧
    ∃ root ∈ d.roots, ∃ e, d.elements.get? root = some e ∧ RecordClass d e entry.2
  keys : p.classes.keys.Nodup
  made : ∀ name id, p.owners.get? name = some id → name ∈ p.classes.keys

theorem Recorded.of_same {d : Document} {p p' : Planning} (h : Recorded d p)
    (hs : SameClasses p p') : Recorded d p' where
  classes := hs.1 ▸ h.classes
  keys := hs.1 ▸ h.keys
  made := hs.2 ▸ hs.1 ▸ h.made

theorem Recorded.enter {d : Document} {p p' : Planning} (hp : Recorded d p) {root : String}
    (hroot : root ∈ d.roots) {e : Element} (he : d.elements.get? root = some e) {c : Class}
    (hc : RecordClass d e c) (hclasses : p'.classes = p.classes.insert c.name c)
    (howners : p'.owners = p.owners.insert c.name root) : Recorded d p' where
  classes entry hm := by
    rw [hclasses] at hm
    rcases Table.mem_entries_insert hm with rfl | hm
    · exact ⟨rfl, root, hroot, e, he, hc⟩
    · exact hp.classes entry hm
  keys := hclasses ▸ Table.nodup_keys_insert hp.keys
  made name id hn := by
    rw [howners] at hn
    rw [hclasses, Table.mem_keys_insert]
    by_cases hname : name = c.name
    · exact .inl hname
    · rw [Table.get?_insert_of_ne _ _ hname] at hn
      exact .inr (hp.made name id hn)

theorem ensures_createClass_record {site : Site} {root : String} {e : Element}
    (hroot : root ∈ site.document.roots) (he : site.document.elements.get? root = some e)
    (h : site.document.IsRecord e) {p : Planning} (hp : Recorded site.document p) :
    Ensures (createClass site [] root) p fun _ p' => Recorded site.document p' ∧
      ∀ name, name = className e.name ∨ name ∈ p.classes.keys → name ∈ p'.classes.keys := by
  obtain ⟨c, hc, hbuild⟩ := buildClass_record h (pure [root]) (createClass site [root])
  rw [createClass_some he, if_neg List.not_mem_nil, hbuild, ← hc.name]
  refine .bind (ensures_claimName_owned site.policy c.name root p) ?_
  rintro free p₁ ⟨h₁, hfree⟩
  cases free with
  | false =>
    obtain ⟨owner, ho⟩ := hfree.resolve_left Bool.false_ne_true
    refine .pure ⟨hp.of_same h₁, ?_⟩
    rintro name (rfl | hname)
    · exact h₁.1 ▸ hp.made _ _ ho
    · exact h₁.1 ▸ hname
  | true =>
    refine .bind (ensures_tell _ p₁) fun _ p₂ h₂ => ?_
    refine .bind (ensures_modify (P := fun _ p' =>
      p' = { p₂ with owners := p₂.owners.insert c.name root }) rfl) fun _ p₃ h₃ => ?_
    refine .bind (.bind (ensures_requireLegal _ p₃) fun _ p₄ h₄ =>
      .pure (P := fun made p' => c = made ∧ SameClasses p₃ p') ⟨rfl, h₄⟩) ?_
    rintro _ p₄ ⟨rfl, h₄⟩
    refine .bind (ensures_modify (P := fun _ p' =>
      p' = { p₄ with classes := p₄.classes.insert c.name c }) rfl) fun _ p₅ h₅ => ?_
    have hsame := h₁.trans h₂
    have hclasses : p₅.classes = p.classes.insert c.name c := by
      rw [h₅, h₄.1, h₃, hsame.1]
    have howners : p₅.owners = p.owners.insert c.name root := by
      rw [h₅, h₄.2, h₃, hsame.2]
    refine .pure ⟨hp.enter hroot he hc hclasses howners, fun name hname => ?_⟩
    rw [hclasses, Table.mem_keys_insert]
    exact hname

/-! ## Plans -/

theorem Recorded.start (d : Document) : Recorded d (Planning.start d) where
  classes _ h := by cases h
  keys := .nil
  made _ _ h := by cases h

theorem ensures_createRoots_records {site : Site} (h : site.document.OfRecords) :
    Ensures (createRoots site) (Planning.start site.document) fun _ p => Recorded site.document p ∧
      ∀ root ∈ site.document.roots, ∀ e, site.document.elements.get? root = some e →
        className e.name ∈ p.classes.keys := by
  have hroots : ∀ (roots : List String) {p : Planning},
      (∀ root ∈ roots, root ∈ site.document.roots) → Recorded site.document p →
      Ensures (roots.forM fun root => discard (createClass site [] root)) p fun _ p' =>
        Recorded site.document p' ∧ (∀ name ∈ p.classes.keys, name ∈ p'.classes.keys) ∧
        ∀ root ∈ roots, ∀ e, site.document.elements.get? root = some e →
          className e.name ∈ p'.classes.keys := by
    intro roots
    induction roots with
    | nil => exact fun _ hp => .pure ⟨hp, fun _ hname => hname, fun _ hm => by cases hm⟩
    | cons root roots ih =>
      intro p hmem hp
      have hroot := hmem root List.mem_cons_self
      obtain ⟨e, he, hrecord⟩ := h root hroot
      have hdiscard : Ensures (discard (createClass site [] root)) p fun _ p' =>
          Recorded site.document p' ∧
            ∀ name, name = className e.name ∨ name ∈ p.classes.keys → name ∈ p'.classes.keys :=
        .bind (ensures_createClass_record hroot he hrecord hp) fun _ _ h => .pure h
      rw [List.forM]
      refine .bind hdiscard fun _ p₁ h₁ => ?_
      refine (ih (fun r hr => hmem r (List.mem_cons_of_mem _ hr)) h₁.1).mono ?_
      rintro _ p₂ ⟨hp₂, hkeep, hmade⟩
      refine ⟨hp₂, fun name hname => hkeep name (h₁.2 name (.inr hname)), fun r hr e' he' => ?_⟩
      rcases List.mem_cons.1 hr with rfl | hr
      · obtain rfl : e = e' := Option.some.inj (he.symm.trans he')
        exact hkeep _ (h₁.2 _ (.inl rfl))
      · exact hmade r hr e' he'
  refine (hroots _ (fun _ hm => hm) (Recorded.start _)).mono ?_
  exact fun _ _ hp => ⟨hp.1, hp.2.2⟩

/-- **The classes of records are those of the roots**, each found by its name. -/
theorem plan_records {site : Site} (h : site.document.OfRecords) {classes : List Class}
    (hplan : (plan site).1 = .ok classes) :
    (∀ root ∈ site.document.roots, ∀ e, site.document.elements.get? root = some e →
      ∃ c ∈ classes, c.name = className e.name) ∧
    ∀ c ∈ classes, Instance.Classes.get? classes c.name = some c ∧
      ∃ root ∈ site.document.roots, ∃ e, site.document.elements.get? root = some e ∧
        RecordClass site.document e c := by
  rw [plan] at hplan
  rcases hrun : (createRoots site).run (Planning.start site.document) with ⟨e | _, p⟩ <;>
    rw [hrun] at hplan
  · cases hplan
  · cases hplan
    obtain ⟨hp, hmade⟩ := ensures_createRoots_records h _ p hrun
    have hnames : ∀ entry ∈ p.classes.entries, entry.2.name = entry.1 :=
      fun entry hm => (hp.classes entry hm).1
    refine ⟨fun root hroot e he => ?_, fun c hc => ⟨get?_values hp.keys hnames c hc, ?_⟩⟩
    · obtain ⟨entry, hm, hname⟩ := List.mem_map.1 (hmade root hroot e he)
      exact ⟨entry.2, List.mem_map.2 ⟨entry, hm, rfl⟩, (hnames entry hm).trans hname⟩
    · obtain ⟨entry, hm, rfl⟩ := List.mem_map.1 hc
      exact (hp.classes entry hm).2

end Binding

end Bindery
