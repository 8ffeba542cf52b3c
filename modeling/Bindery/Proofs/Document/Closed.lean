/-
  Built documents are closed.

  Every relation of the document of a grammar leads to an entity of it, and
  nothing stands in it twice.  No name is excluded: where two elements come by
  one identifier, the second entity replaces the first, and the relations of
  either still lead to it.

  * `Closing`: what the loop keeps.  An element is in the table as soon as it is
    entered, and it gets its relations when all of its content is, so even a
    half-built document has no relation that leads nowhere;
  * `validate_build`: the finished document passes validation;
  * `build_closed`: it is closed, and free of duplicates.
-/
import Bindery.Schema.Dialect
import Bindery.Proofs.Document.Entity

namespace Bindery.Schema

open ElementPattern

/-! ## Documents that pass -/

theorem Document.danglingIn_eq_none {α : Type} {table : Table α} {relations : List Relation} :
    danglingIn table relations = none ↔ ∀ r ∈ relations, r.target ∈ table.keys := by
  simp [danglingIn, List.find?_eq_none, Table.contains_iff]

/-- **What validating asks for**: relations lead to the elements and attributes
    of the document, and its roots are among its elements. -/
theorem Document.validate_eq_ok {d : Document} : d.validate = .ok () ↔
    (∀ e ∈ d.elements.values, (∀ r ∈ e.elementRelations, r.target ∈ d.elements.keys) ∧
      ∀ r ∈ e.attributeRelations, r.target ∈ d.attributes.keys) ∧
    ∀ root ∈ d.roots, root ∈ d.elements.keys := by
  have hentity : ∀ e, d.danglingOf e = none ↔
      (∀ r ∈ e.elementRelations, r.target ∈ d.elements.keys) ∧
        ∀ r ∈ e.attributeRelations, r.target ∈ d.attributes.keys := by
    intro e
    simp only [danglingOf, Option.map_eq_none_iff, Option.orElse_eq_orElse, Option.orElse_eq_or,
      Option.or_eq_none_iff, danglingIn_eq_none]
  have hentities : d.elements.values.findSome? d.danglingOf = none ↔
      ∀ e ∈ d.elements.values, (∀ r ∈ e.elementRelations, r.target ∈ d.elements.keys) ∧
        ∀ r ∈ e.attributeRelations, r.target ∈ d.attributes.keys := by
    simp only [List.findSome?_eq_none_iff, hentity]
  have hroots : d.roots.find? (!d.elements.contains ·) = none ↔
      ∀ root ∈ d.roots, root ∈ d.elements.keys := by
    simp [List.find?_eq_none, Table.contains_iff]
  rw [← hentities, ← hroots, validate]
  cases d.elements.values.findSome? d.danglingOf with
  | some fault => simp
  | none => cases d.roots.find? (!d.elements.contains ·) <;> simp

/-- Whether an element fits under `key` into the document: it has that
    identifier, and its relations lead to entities of the document, to each
    one once, and among the attributes to its own. -/
structure Document.Holds (d : Document) (key : String) (e : Element) : Prop where
  identifier : e.identifier = key
  elements : ∀ r ∈ e.elementRelations, r.target ∈ d.elements.keys
  attributes : ∀ r ∈ e.attributeRelations, r.target ∈ d.attributes.keys
  owns : ∀ r ∈ e.attributeRelations, ∃ name, r.target = key ++ "@" ++ name
  elementTargets : (e.elementRelations.map (·.target)).Nodup
  attributeTargets : (e.attributeRelations.map (·.target)).Nodup

/-- Whether all entities stand under their identifiers, once each, and all
    relations lead to entities. -/
structure Document.Closed (d : Document) : Prop where
  elements : ∀ entry ∈ d.elements.entries, d.Holds entry.1 entry.2
  attributes : ∀ entry ∈ d.attributes.entries, entry.2.identifier = entry.1
  elementKeys : d.elements.keys.Nodup
  attributeKeys : d.attributes.keys.Nodup

theorem Document.Holds.mono {d d' : Document} {key : String} {e : Element} (h : d.Holds key e)
    (helements : ∀ k ∈ d.elements.keys, k ∈ d'.elements.keys)
    (hattributes : ∀ k ∈ d.attributes.keys, k ∈ d'.attributes.keys) : d'.Holds key e :=
  { h with
    elements := fun r hr => helements _ (h.elements r hr)
    attributes := fun r hr => hattributes _ (h.attributes r hr) }

/-! ## Names without repetitions -/

theorem nodup_distinct (names : List String) : (distinct names).Nodup := by
  induction names using List.reverseRecOn with
  | nil => exact .nil
  | append_singleton names n ih =>
    rw [distinct_concat]
    split
    · exact ih
    · rename_i hn
      refine List.nodup_append.2 ⟨ih, by simp, ?_⟩
      rintro a ha b hb rfl
      rw [List.mem_singleton.1 hb] at ha
      exact hn ha

/-- **The attribute relations of an element lead to its attributes**, to each
    identifier once. -/
theorem attributeRelations_targets (id : String) (content : List (AttributePattern × Pattern)) :
    (attributeRelations id content).map (·.target) =
      distinct (content.map fun c => id ++ "@" ++ c.1.name) := by
  induction content using List.reverseRecOn with
  | nil => rfl
  | append_singleton content c ih =>
    have hany : (attributeRelations id content).any (·.target == id ++ "@" ++ c.1.name) = true ↔
        id ++ "@" ++ c.1.name ∈ (attributeRelations id content).map (·.target) := by
      simp [List.any_eq_true]
    rw [attributeRelations_concat, List.map_append, List.map_singleton, distinct_concat, ← ih]
    by_cases h : id ++ "@" ++ c.1.name ∈ (attributeRelations id content).map (·.target)
    · rw [if_pos (hany.2 h), if_pos h]
    · rw [if_neg (fun ha => h (hany.1 ha)), if_neg h, List.map_append]
      rfl

/-- **Adding attributes** enters some of them under their identifiers, and does
    nothing else to the table. -/
theorem addAttributes_invariant {P : Table Attribute → Prop} {id : String}
    (enter : ∀ t a, P t → P (t.insert (id ++ "@" ++ a.name) (attributeEntity id a)))
    (content : List (AttributePattern × Pattern)) {attributes : Table Attribute}
    (h : P attributes) : P (addAttributes id content attributes).1 := by
  have hfold : ∀ (content : List (AttributePattern × Pattern)) (attributes : Table Attribute)
      (own : List String) (notices : List Notice), P attributes →
      P (content.foldl (addAttribute id) (attributes, own, notices)).1 := by
    intro content
    induction content with
    | nil => exact fun attributes own notices h => h
    | cons c content ih =>
      intro attributes own notices h
      rw [List.foldl_cons]
      dsimp only [addAttribute]
      split
      · exact ih _ _ _ h
      · refine ih _ _ _ ?_
        split
        · exact h
        · exact enter attributes c.1 h
  exact hfold content attributes [] [] h

/-! ## The loop -/

/-- What holds of a document while it is built. -/
structure Closing (g : Grammar) (b : Building) : Prop where
  attributed : Attributed g b
  closed : b.document.Closed
  /-- What is built is in the table. -/
  present : ∀ e id, (e, id) ∈ b.built → id ∈ b.document.elements.keys

section
variable {g : Grammar} {b : Building}

theorem Closing.target_mem (h : Closing g b) {c : ElementPattern}
    (hc : (b.built.identifier? c).isSome) :
    (b.built.identifier? c).getD c.name ∈ b.document.elements.keys := by
  obtain ⟨id, hid⟩ := Option.isSome_iff_exists.1 hc
  obtain ⟨p, hm⟩ := Built.mem_of_identifier? hid
  rw [hid]
  exact h.present _ id hm

theorem enter_keys (x : ElementPattern) :
    (∀ k ∈ b.document.elements.keys,
      k ∈ (b.enter g.definitions x).document.elements.keys) ∧
    ∀ k ∈ b.document.attributes.keys,
      k ∈ (b.enter g.definitions x).document.attributes.keys := by
  have hinsert : ∀ {α : Type} (t : Table α) (key : String) (value : α), ∀ k ∈ t.keys,
      k ∈ (t.insert key value).keys := by
    intro α t key value k hk
    rw [Table.keys_insert]
    split
    · exact hk
    · exact List.mem_append_left _ hk
  constructor
  · intro k hk
    exact hinsert _ _ _ k hk
  · intro k hk
    exact addAttributes_invariant (P := fun t => k ∈ t.keys) (fun t a ht => hinsert t _ _ k ht) _ hk

/-- **Entering an element keeps the document closed**: it has no relations yet. -/
theorem Closing.enter (h : Closing g b) (x : ElementPattern) :
    Closing g (b.enter g.definitions x) := by
  obtain ⟨helements, hattributes⟩ := enter_keys (g := g) (b := b) x
  have hnew : b.built.fresh x ∈ (b.enter g.definitions x).document.elements.keys :=
    Table.mem_keys_of_get? (Table.get?_insert_self _ _ _)
  refine ⟨h.attributed.enter x, ⟨?_, ?_, ?_, ?_⟩, ?_⟩
  · intro entry hm
    rcases Table.mem_entries_insert hm with rfl | hm
    · exact ⟨rfl, nofun, nofun, nofun, .nil, .nil⟩
    · exact (h.closed.elements entry hm).mono helements hattributes
  · refine addAttributes_invariant
      (P := fun t => ∀ entry ∈ t.entries, entry.2.identifier = entry.1) ?_ _ h.closed.attributes
    intro t a ht entry hm
    rcases Table.mem_entries_insert hm with rfl | hm
    · rfl
    · exact ht entry hm
  · exact Table.nodup_keys_insert h.closed.elementKeys
  · exact addAttributes_invariant (P := fun t => t.keys.Nodup)
      (fun t a ht => Table.nodup_keys_insert ht) _ h.closed.attributeKeys
  · intro e id hm
    rcases List.mem_append.1 hm with hm | hm
    · exact helements id (h.present e id hm)
    · cases List.mem_singleton.1 hm
      exact hnew

/-- **Completing an element keeps the document closed**: its content and its
    attributes are in the tables by then. -/
theorem Closing.complete {s : Site g} {rest : List (Task g)}
    (hu : Underway g (.complete s :: rest) b) (h : Closing g b) :
    Closing g (b.complete g.definitions s.val) := by
  obtain ⟨own, hown⟩ := hu.pending s List.mem_cons_self
  have hid := hu.numbered.identifier? hown
  have hkeys : (b.complete g.definitions s.val).document.elements.keys =
      b.document.elements.keys := Table.keys_modify _ _ _
  have hmono : ∀ k ∈ b.document.elements.keys,
      k ∈ (b.complete g.definitions s.val).document.elements.keys := by
    intro k hk
    rw [hkeys]
    exact hk
  refine ⟨⟨h.attributed.present, h.attributed.owned⟩, ⟨?_, h.closed.attributes, ?_,
    h.closed.attributeKeys⟩, ?_⟩
  · intro entry hm
    rcases Table.mem_entries_modify hm with hold | ⟨old, hold, rfl⟩
    · exact (h.closed.elements entry hold).mono hmono fun _ hk => hk
    · refine ⟨(h.closed.elements _ hold).identifier, ?_, ?_, ?_, ?_, ?_⟩
      · intro r hr
        have htarget := List.mem_map_of_mem (f := (·.target)) hr
        rw [elementRelations_targets, mem_distinct, List.map_map, List.mem_map] at htarget
        obtain ⟨⟨c, p⟩, hc, hrt⟩ := htarget
        rw [← hrt]
        exact hmono _ (h.target_mem (hu.ready.1 c p hc))
      · intro r hr
        obtain ⟨a, p, ha, rfl⟩ := mem_attributeRelations hr
        dsimp only
        rw [hid, Option.getD_some]
        exact Table.contains_iff.1 (h.attributed.present s.val own hown a p ha)
      · intro r hr
        obtain ⟨a, p, -, rfl⟩ := mem_attributeRelations hr
        exact ⟨a.name, rfl⟩
      · rw [elementRelations_targets]
        exact nodup_distinct _
      · rw [attributeRelations_targets]
        exact nodup_distinct _
  · rw [hkeys]
    exact h.closed.elementKeys
  · exact fun e id hm => hmono id (h.present e id hm)

theorem closing_finished (g : Grammar) : Closing g g.finished :=
  (build_invariant (I := fun agenda b => Underway g agenda b ∧ Closing g b)
    (fun _ _ _ h => ⟨h.1.complete, h.2.complete h.1⟩)
    (fun _ _ _ hs h => ⟨h.1.skip hs, h.2⟩)
    (fun s _ _ hs h => ⟨h.1.enter hs, h.2.enter s.val⟩) _ _
    ⟨underway_start g, ⟨(fun _ _ hm => by cases hm), (fun _ _ hk => by cases hk)⟩,
      ⟨nofun, nofun, .nil, .nil⟩, (fun _ _ hm => by cases hm)⟩).2

end

/-! ## The finished document -/

theorem roots_mem_keys (g : Grammar) : ∀ root ∈ g.build.1.roots, root ∈ g.build.1.elements.keys := by
  intro root hroot
  obtain ⟨s, hs, rfl⟩ := List.mem_map.1 (mem_distinct.1 hroot)
  obtain ⟨⟨⟨c, p⟩, hc⟩, -, rfl⟩ := List.mem_map.1 hs
  exact (closing_finished g).target_mem (visited_start hc)

theorem validate_build (g : Grammar) : g.build.1.validate = .ok () := by
  have hclosed := (closing_finished g).closed
  rw [Document.validate_eq_ok]
  refine ⟨fun e he => ?_, roots_mem_keys g⟩
  obtain ⟨entry, hm, rfl⟩ := List.mem_map.1 he
  exact ⟨(hclosed.elements entry hm).elements, (hclosed.elements entry hm).attributes⟩

/-- **The identifier of an attribute tells its name**, if those of elements do not
    contain `@`. -/
theorem attributeTarget_eq {g : Grammar} (hat : ∀ id ∈ g.build.1.elements.keys, '@' ∉ id.toList)
    {id : String} {e : Element} (he : g.build.1.elements.get? id = some e) {r : Relation}
    (hr : r ∈ e.attributeRelations) {a : Attribute}
    (ha : g.build.1.attributes.get? r.target = some a) : r.target = id ++ "@" ++ a.name := by
  have hclosing := closing_finished g
  obtain ⟨name, htarget⟩ := (hclosing.closed.elements _ (Table.mem_entries_of_get? he)).owns r hr
  obtain ⟨_, id', pattern, _, hm, -, hkey, hname⟩ := hclosing.attributed.owned _ _ ha
  have heq : id ++ "@" ++ name = id' ++ "@" ++ pattern.name := htarget.symm.trans hkey
  have hnames := (attributeIdentifier_inj (hat id (Table.mem_keys_of_get? he))
    (hat id' (hclosing.present _ _ hm)) heq).2
  rw [htarget, hname, hnames]

/-- **Every built document is closed and free of duplicates.**  Whatever the
    start and the definitions, resolved or not, with any names and with
    references that lead nowhere or back: the document of the grammar passes
    validation, so that building gives it; its entities stand under their
    identifiers, one under each; its roots are different; and the relations of
    an element lead to different elements and to different attributes. -/
theorem build_closed (g : Grammar) :
    (buildDocument g).1 = .ok g.build.1 ∧ g.build.1.validate = .ok () ∧
    (∀ entry ∈ g.build.1.elements.entries, entry.2.identifier = entry.1) ∧
    (∀ entry ∈ g.build.1.attributes.entries, entry.2.identifier = entry.1) ∧
    g.build.1.elements.keys.Nodup ∧ g.build.1.attributes.keys.Nodup ∧ g.build.1.roots.Nodup ∧
    ∀ e ∈ g.build.1.elements.values, (e.elementRelations.map (·.target)).Nodup ∧
      (e.attributeRelations.map (·.target)).Nodup := by
  have hclosed := (closing_finished g).closed
  refine ⟨?_, validate_build g, fun entry hm => (hclosed.elements entry hm).identifier,
    hclosed.attributes, hclosed.elementKeys, hclosed.attributeKeys, nodup_distinct _, ?_⟩
  · simp only [buildDocument, validate_build g]
  · intro e he
    obtain ⟨entry, hm, rfl⟩ := List.mem_map.1 he
    exact ⟨(hclosed.elements entry hm).elementTargets,
      (hclosed.elements entry hm).attributeTargets⟩

end Bindery.Schema
