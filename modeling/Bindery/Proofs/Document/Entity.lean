/-
  The entities of a built document.

  The loop that builds a document enters an element, visits its content and
  then completes it.  `build_invariant` is the induction over the loop, and
  `Underway` and `Described` are what it keeps: an identifier names one content,
  content is known before the element that has it is completed, and every
  entity tells what its pattern has.

  * `entity_of_mem`, `mem_of_entity`: the entities of the document are those of
    the patterns that were built;
  * `attribute_of_relation`: attribute relations lead to the attributes of the
    element, if no name contains `@` either.
-/
import Mathlib.Data.List.Induction
import Bindery.Proofs.Document.Identifier

namespace Bindery

namespace Table

variable {α : Type}

theorem get?_modify_self {t : Table α} {key : String} {value : α} (h : t.get? key = some value)
    (f : α → α) : (t.modify key f).get? key = some (f value) := by
  simp only [modify, h, get?_insert_self]

theorem get?_modify_of_ne (t : Table α) {key other : String} (f : α → α) (h : other ≠ key) :
    (t.modify key f).get? other = t.get? other := by
  unfold modify
  split
  · exact get?_insert_of_ne t _ h
  · rfl

end Table

namespace Schema

open ElementPattern

/-! ## Relations -/

theorem distinct_concat (names : List String) (n : String) : distinct (names ++ [n]) =
    if n ∈ distinct names then distinct names else distinct names ++ [n] := by
  rw [distinct, List.foldl_append]
  rfl

theorem mem_distinct {name : String} {names : List String} :
    name ∈ distinct names ↔ name ∈ names := by
  induction names using List.reverseRecOn with
  | nil => rfl
  | append_singleton names n ih =>
    rw [distinct_concat, List.mem_append, List.mem_singleton]
    split
    · rename_i hn
      rw [ih]
      exact ⟨.inl, fun h => h.elim id fun heq => ih.1 (heq ▸ hn)⟩
    · rw [List.mem_append, List.mem_singleton, ih]

theorem distinct_of_nodup {names : List String} (h : names.Nodup) : distinct names = names := by
  induction names using List.reverseRecOn with
  | nil => rfl
  | append_singleton names n ih =>
    obtain ⟨hnames, -, hne⟩ := List.nodup_append.1 h
    rw [distinct_concat, ih hnames, if_neg fun hn => hne n hn n List.mem_cons_self rfl]

theorem Folding.add_targets (f : Folding) (target : String) (pattern : Pattern) :
    (f.add target pattern).relations.map (·.target) =
      if target ∈ f.relations.map (·.target) then f.relations.map (·.target)
      else f.relations.map (·.target) ++ [target] := by
  have hany : f.relations.any (·.target == target) = true ↔
      target ∈ f.relations.map (·.target) := by
    simp [List.any_eq_true]
  unfold Folding.add
  by_cases h : target ∈ f.relations.map (·.target)
  · rw [if_pos (hany.2 h), if_pos h, List.map_map]
    refine List.map_congr_left fun r _ => ?_
    by_cases hr : r.target = target <;> simp [hr]
  · rw [if_neg (fun ha => h (hany.1 ha)), if_neg h, List.map_append]
    rfl

theorem Folding.tagged_targets (f : Folding) :
    f.tagged.map (·.target) = f.relations.map (·.target) := by
  have hfold : ∀ (choices : List (Option Nat × List String)) (relations : List Relation),
      (choices.foldl (fun relations choice =>
        if 1 < choice.2.length then
          relations.map fun r =>
            if r.target ∈ choice.2 then { r with choice := some ("+".intercalate choice.2) } else r
        else relations) relations).map (·.target) = relations.map (·.target) := by
    intro choices
    induction choices with
    | nil => intro relations; rfl
    | cons choice choices ih =>
      intro relations
      rw [List.foldl_cons, ih]
      split
      · rw [List.map_map]
        refine List.map_congr_left fun r _ => ?_
        by_cases hr : r.target ∈ choice.2 <;> simp [hr]
      · rfl
  exact hfold f.choices f.relations

theorem elementRelations_targets (content : List (String × Pattern)) :
    (elementRelations content).map (·.target) = distinct (content.map (·.1)) := by
  have hfold : ∀ (content : List (String × Pattern)) (f : Folding),
      (content.foldl (fun f c => f.add c.1 c.2) f).relations.map (·.target) =
        (content.map (·.1)).foldl (fun seen n => if n ∈ seen then seen else seen ++ [n])
          (f.relations.map (·.target)) := by
    intro content
    induction content with
    | nil => intro f; rfl
    | cons c content ih =>
      intro f
      rw [List.foldl_cons, List.map_cons, List.foldl_cons, ih, Folding.add_targets]
  rw [elementRelations, Folding.tagged_targets]
  exact hfold content {}

theorem attributeRelations_concat (id : String) (content : List (AttributePattern × Pattern))
    (c : AttributePattern × Pattern) : attributeRelations id (content ++ [c]) =
      if (attributeRelations id content).any (·.target == id ++ "@" ++ c.1.name) then
        attributeRelations id content
      else attributeRelations id content ++
        [{ target := id ++ "@" ++ c.1.name, occurs := c.2.occurs }] := by
  rw [attributeRelations, List.foldl_append]
  rfl

theorem mem_attributeRelations {id : String} {content : List (AttributePattern × Pattern)}
    {r : Relation} (h : r ∈ attributeRelations id content) :
    ∃ a p, (a, p) ∈ content ∧ r = { target := id ++ "@" ++ a.name, occurs := p.occurs } := by
  induction content using List.reverseRecOn with
  | nil => cases h
  | append_singleton content c ih =>
    have hold : r ∈ attributeRelations id content → ∃ a p, (a, p) ∈ content ++ [c] ∧
        r = { target := id ++ "@" ++ a.name, occurs := p.occurs } := by
      intro h
      obtain ⟨a, p, hm, hr⟩ := ih h
      exact ⟨a, p, List.mem_append_left _ hm, hr⟩
    rw [attributeRelations_concat] at h
    split at h
    · exact hold h
    · rcases List.mem_append.1 h with h | h
      · exact hold h
      · exact ⟨c.1, c.2, List.mem_append_right _ List.mem_cons_self, List.mem_singleton.1 h⟩

theorem mem_attributeRelations_of_first (id : String)
    {before after : List (AttributePattern × Pattern)} {c : AttributePattern × Pattern}
    (h : ∀ b ∈ before, b.1.name ≠ c.1.name) :
    { target := id ++ "@" ++ c.1.name, occurs := c.2.occurs } ∈
      attributeRelations id (before ++ c :: after) := by
  induction after using List.reverseRecOn with
  | nil =>
    rw [attributeRelations_concat, if_neg]
    · exact List.mem_append_right _ List.mem_cons_self
    · rw [List.any_eq_true]
      rintro ⟨r, hr, htarget⟩
      obtain ⟨a, p, hm, rfl⟩ := mem_attributeRelations hr
      exact h _ hm (by simpa using htarget)
  | append_singleton after d ih =>
    rw [← List.cons_append, ← List.append_assoc, attributeRelations_concat]
    split
    · exact ih
    · exact List.mem_append_left _ ih

/-! ## The loop -/

/-- **Induction over the loop**: what every step keeps holds of the result. -/
theorem build_invariant {g : Grammar} {I : List (Task g) → Building → Prop}
    (complete : ∀ s rest b, I (.complete s :: rest) b → I rest (b.complete g.definitions s.val))
    (skip : ∀ s rest b, (b.built.identifier? s.val).isSome → I (.visit s :: rest) b → I rest b)
    (enter : ∀ s rest b, b.built.identifier? s.val = none → I (.visit s :: rest) b →
      I (s.content.map .visit ++ .complete s :: rest) (b.enter g.definitions s.val))
    (agenda : List (Task g)) (b : Building) (h : I agenda b) : I [] (build g agenda b) := by
  fun_induction build g agenda b with
  | case1 b => exact h
  | case2 b s rest ih => exact ih (complete s rest b h)
  | case3 b s rest id hid ih => exact ih (skip s rest b (by rw [hid]; rfl) h)
  | case4 b s rest hnone ih => exact ih (enter s rest b hnone h)

def enteredEntity (e : ElementPattern) (id : String) : Element :=
  { identifier := id, name := e.name, text := e.hasText, dataType := e.dataType
    facet := Facet.proper e.facet }

def Built.entity (built : Built) (ds : Definitions) (e : ElementPattern) (id : String) : Element :=
  { enteredEntity e id with
    elementRelations := elementRelations
      ((contentElements ds e).map fun (c, p) => ((built.identifier? c).getD c.name, p))
    attributeRelations := attributeRelations id (contentAttributes ds e) }

def Built.HasContent (built : Built) (ds : Definitions) (e : ElementPattern) : Prop :=
  ∀ c p, (c, p) ∈ contentElements ds e → (built.identifier? c).isSome

/-- Whether every completion in the agenda finds the content of its element
    built: before the agenda is worked off, or by a visit ahead of it. -/
def Ready (g : Grammar) (known : ElementPattern → Prop) : List (Task g) → Prop
  | [] => True
  | .visit s :: rest => Ready g (fun x => known x ∨ x = s.val) rest
  | .complete s :: rest =>
    (∀ c p, (c, p) ∈ contentElements g.definitions s.val → known c) ∧ Ready g known rest

section
variable {g : Grammar}

theorem Ready.mono {agenda : List (Task g)} {known known' : ElementPattern → Prop}
    (hk : ∀ x, known x → known' x) (h : Ready g known agenda) : Ready g known' agenda := by
  induction agenda generalizing known known' with
  | nil => trivial
  | cons task rest ih =>
    cases task with
    | visit s =>
      have hvisit : ∀ x, known x ∨ x = s.val → known' x ∨ x = s.val :=
        fun x hx => hx.imp_left (hk x)
      exact ih hvisit h
    | complete s => exact ⟨fun c p hc => hk c (h.1 c p hc), ih hk h.2⟩

theorem Ready.visits {known : ElementPattern → Prop} {rest : List (Task g)} :
    ∀ ss : List (Site g), Ready g (fun x => known x ∨ ∃ s ∈ ss, x = s.val) rest →
      Ready g known (ss.map .visit ++ rest)
  | [], h => h.mono fun x hx => by simpa using hx
  | s :: ss, h => by
    refine Ready.visits ss (h.mono fun x hx => ?_)
    rcases hx with hx | ⟨s', hs, rfl⟩
    · exact .inl (.inl hx)
    · rcases List.mem_cons.1 hs with rfl | hs
      · exact .inl (.inr rfl)
      · exact .inr ⟨s', hs, rfl⟩

theorem Site.mem_content {s : Site g} {c : ElementPattern} {p : Pattern}
    (h : (c, p) ∈ contentElements g.definitions s.val) : ∃ s' ∈ s.content, c = s'.val :=
  ⟨_, List.mem_map.2 ⟨⟨(c, p), h⟩, List.mem_attach _ _, rfl⟩, rfl⟩

/-- Bookkeeping of the loop. -/
structure Underway (g : Grammar) (agenda : List (Task g)) (b : Building) : Prop where
  numbered : b.built.Numbered
  /-- What is built are patterns of the grammar. -/
  sites : ∀ e id, (e, id) ∈ b.built → e ∈ patterns g
  /-- What is to be completed has been entered. -/
  pending : ∀ s, .complete s ∈ agenda → ∃ id, (s.val, id) ∈ b.built
  ready : Ready g (fun x => (b.built.identifier? x).isSome) agenda
  /-- There are no entities but of what is built. -/
  known : ∀ id entity, b.document.elements.get? id = some entity → ∃ e, (e, id) ∈ b.built

theorem isSome_identifier?_append {built : Built} {e x : ElementPattern} {id : String}
    (h : (built.identifier? x).isSome) : (Built.identifier? (built ++ [(e, id)]) x).isSome := by
  rw [Built.identifier?_append, Option.isSome_or, h, Bool.true_or]

theorem Underway.complete {s : Site g} {rest : List (Task g)} {b : Building}
    (h : Underway g (.complete s :: rest) b) :
    Underway g rest (b.complete g.definitions s.val) where
  numbered := h.numbered
  sites := h.sites
  pending t ht := h.pending t (List.mem_cons_of_mem _ ht)
  ready := h.ready.2
  known id entity hget := by
    by_cases heq : id = (b.built.identifier? s.val).getD s.val.name
    · obtain ⟨id', hm⟩ := h.pending s List.mem_cons_self
      rw [h.numbered.identifier? hm] at heq
      exact ⟨s.val, heq ▸ hm⟩
    · have hold : (b.complete g.definitions s.val).document.elements.get? id =
          b.document.elements.get? id := Table.get?_modify_of_ne _ _ heq
      exact h.known id entity (hold ▸ hget)

theorem Underway.skip {s : Site g} {rest : List (Task g)} {b : Building}
    (hs : (b.built.identifier? s.val).isSome) (h : Underway g (.visit s :: rest) b) :
    Underway g rest b where
  numbered := h.numbered
  sites := h.sites
  pending t ht := h.pending t (List.mem_cons_of_mem _ ht)
  ready := h.ready.mono fun x hx => by
    rcases hx with hx | rfl
    · exact hx
    · exact hs
  known := h.known

theorem Underway.enter {s : Site g} {rest : List (Task g)} {b : Building}
    (hs : b.built.identifier? s.val = none) (h : Underway g (.visit s :: rest) b) :
    Underway g (s.content.map .visit ++ .complete s :: rest) (b.enter g.definitions s.val) where
  numbered := h.numbered.append hs
  sites e id hm := by
    rcases List.mem_append.1 hm with hm | hm
    · exact h.sites e id hm
    · cases List.mem_singleton.1 hm
      exact s.property
  pending t ht := by
    rcases List.mem_append.1 ht with ht | ht
    · obtain ⟨_, -, heq⟩ := List.mem_map.1 ht
      cases heq
    · rcases List.mem_cons.1 ht with heq | ht
      · cases heq
        exact ⟨_, List.mem_append_right _ List.mem_cons_self⟩
      · obtain ⟨id, hm⟩ := h.pending t (List.mem_cons_of_mem _ ht)
        exact ⟨id, List.mem_append_left _ hm⟩
  ready := by
    refine Ready.visits _ ⟨fun c p hc => .inr (Site.mem_content hc), ?_⟩
    refine Ready.mono (fun x hx => .inl ?_) h.ready
    rcases hx with hx | rfl
    · exact isSome_identifier?_append hx
    · exact (h.numbered.append hs).identifier? (List.mem_append_right _ List.mem_cons_self) ▸ rfl
  known id entity hget := by
    by_cases heq : id = b.built.fresh s.val
    · exact ⟨s.val, heq ▸ List.mem_append_right _ List.mem_cons_self⟩
    · have hold : (b.enter g.definitions s.val).document.elements.get? id =
          b.document.elements.get? id := Table.get?_insert_of_ne _ _ heq
      obtain ⟨e, hm⟩ := h.known id entity (hold ▸ hget)
      exact ⟨e, List.mem_append_left _ hm⟩

/-- Whether every entity is as its element has come: entered, and completed once
    no completion is left in the agenda. -/
def Described (g : Grammar) (agenda : List (Task g)) (b : Building) : Prop :=
  ∀ e id, (e, id) ∈ b.built →
    (∃ s, .complete s ∈ agenda ∧ s.val = e) ∧
        b.document.elements.get? id = some (enteredEntity e id) ∨
      b.built.HasContent g.definitions e ∧
        b.document.elements.get? id = some (b.built.entity g.definitions e id)

theorem Built.entity_append {ds : Definitions} {built : Built} {e new : ElementPattern}
    (h : built.HasContent ds e) (newId id : String) :
    Built.entity (built ++ [(new, newId)]) ds e id = built.entity ds e id := by
  have hcontent : (contentElements ds e).map
        (fun (c, p) => ((Built.identifier? (built ++ [(new, newId)]) c).getD c.name, p)) =
      (contentElements ds e).map fun (c, p) => ((built.identifier? c).getD c.name, p) := by
    refine List.map_congr_left fun ⟨c, p⟩ hc => ?_
    obtain ⟨found, hf⟩ := Option.isSome_iff_exists.1 (h c p hc)
    simp only [Built.identifier?_append, hf, Option.some_or]
  rw [Built.entity, hcontent, Built.entity]

section
variable (hsharp : ∀ e ∈ patterns g, '#' ∉ e.name.toList)
include hsharp

theorem Described.complete {s : Site g} {rest : List (Task g)} {b : Building}
    (hu : Underway g (.complete s :: rest) b) (h : Described g (.complete s :: rest) b) :
    Described g rest (b.complete g.definitions s.val) := by
  obtain ⟨own, hown⟩ := hu.pending s List.mem_cons_self
  have hid := hu.numbered.identifier? hown
  have hsites : ∀ e id, (e, id) ∈ b.built → '#' ∉ e.name.toList :=
    fun e id hm => hsharp e (hu.sites e id hm)
  intro e id hm
  by_cases heq : id = own
  · -- the element that is completed: all else of its entity is there since it was entered
    subst heq
    cases hu.numbered.unique hsites hm hown
    refine .inr ⟨hu.ready.1, ?_⟩
    rcases h s.val id hm with ⟨-, hget⟩ | ⟨-, hget⟩
    · simp only [Building.complete, hid, Option.getD_some]
      rw [Table.get?_modify_self hget]
      rfl
    · simp only [Building.complete, hid, Option.getD_some]
      rw [Table.get?_modify_self hget]
      rfl
  · have hold : (b.complete g.definitions s.val).document.elements.get? id =
        b.document.elements.get? id := by
      simp only [Building.complete, hid, Option.getD_some]
      exact Table.get?_modify_of_ne _ _ heq
    rw [hold]
    rcases h e id hm with ⟨⟨t, ht, rfl⟩, hget⟩ | hdone
    · refine .inl ⟨⟨t, ?_, rfl⟩, hget⟩
      rcases List.mem_cons.1 ht with hts | ht
      · cases hts
        rw [hu.numbered.identifier? hm] at hid
        exact absurd (Option.some.inj hid) heq
      · exact ht
    · exact .inr hdone

theorem Described.enter {s : Site g} {rest : List (Task g)} {b : Building}
    (hu : Underway g (.visit s :: rest) b) (h : Described g (.visit s :: rest) b) :
    Described g (s.content.map .visit ++ .complete s :: rest) (b.enter g.definitions s.val) := by
  intro e id hm
  rcases List.mem_append.1 hm with hm | hm
  · have hne := hu.numbered.fresh_ne hm (hsharp e (hu.sites e id hm)) (hsharp s.val s.property)
    have hold : (b.enter g.definitions s.val).document.elements.get? id =
        b.document.elements.get? id := Table.get?_insert_of_ne _ _ hne
    rw [hold]
    rcases h e id hm with ⟨⟨t, ht, rfl⟩, hget⟩ | ⟨hcontent, hget⟩
    · refine .inl ⟨⟨t, List.mem_append_right _ (List.mem_cons_of_mem _ ?_), rfl⟩, hget⟩
      rcases List.mem_cons.1 ht with hts | ht
      · cases hts
      · exact ht
    · refine .inr ⟨fun c p hc => isSome_identifier?_append (hcontent c p hc), ?_⟩
      rw [hget]
      exact congrArg some (Built.entity_append hcontent _ id).symm
  · cases List.mem_singleton.1 hm
    exact .inl ⟨⟨s, List.mem_append_right _ List.mem_cons_self, rfl⟩,
      Table.get?_insert_self _ _ _⟩

end

end

theorem mem_targets {built : Built} {ds : Definitions} {e : ElementPattern} {id t : String} :
    t ∈ (built.entity ds e id).elementRelations.map (·.target) ↔
      ∃ c p, (c, p) ∈ contentElements ds e ∧ (built.identifier? c).getD c.name = t := by
  rw [Built.entity, elementRelations_targets, mem_distinct, List.map_map]
  simp [List.mem_map]

/-! ## The finished document -/

def Grammar.finished (g : Grammar) : Building :=
  Schema.build g (g.startContent.map .visit) { notices := contentNotices g.definitions g.start }

def Grammar.Visited (g : Grammar) (x : ElementPattern) : Prop :=
  (g.finished.built.identifier? x).isSome

section
variable {g : Grammar}

theorem build_attributes (g : Grammar) : g.build.1.attributes = g.finished.document.attributes :=
  rfl

theorem underway_start (g : Grammar) : Underway g (g.startContent.map .visit)
    { notices := contentNotices g.definitions g.start } where
  numbered := .nil
  sites _ _ hm := by cases hm
  pending s hs := by
    obtain ⟨_, -, heq⟩ := List.mem_map.1 hs
    cases heq
  ready := by
    have hvisits : ∀ known, Ready g known (g.startContent.map .visit ++ []) :=
      fun _ => Ready.visits g.startContent trivial
    rw [List.append_nil] at hvisits
    exact hvisits _
  known _ _ hget := by cases hget

theorem underway_finished (g : Grammar) : Underway g [] g.finished :=
  build_invariant (I := Underway g) (fun _ _ _ h => h.complete) (fun _ _ _ hs h => h.skip hs)
    (fun _ _ _ hs h => h.enter hs) _ _ (underway_start g)

theorem visited_start {c : ElementPattern} {p : Pattern}
    (h : (c, p) ∈ contentElements g.definitions g.start) : g.Visited c := by
  let I : List (Task g) → Building → Prop := fun agenda b =>
    (b.built.identifier? c).isSome ∨ ∃ s, .visit s ∈ agenda ∧ s.val = c
  have hfinished : I [] g.finished := by
    refine build_invariant (I := I) ?_ ?_ ?_ _ _ (.inr ?_)
    · rintro s rest b (hb | ⟨t, ht, rfl⟩)
      · exact .inl hb
      · exact .inr ⟨t, (List.mem_cons.1 ht).resolve_left (by nofun), rfl⟩
    · rintro s rest b hs (hb | ⟨t, ht, rfl⟩)
      · exact .inl hb
      · rcases List.mem_cons.1 ht with heq | ht
        · cases heq
          exact .inl hs
        · exact .inr ⟨t, ht, rfl⟩
    · rintro s rest b hs (hb | ⟨t, ht, rfl⟩)
      · exact .inl (isSome_identifier?_append hb)
      · rcases List.mem_cons.1 ht with heq | ht
        · cases heq
          refine .inl ?_
          simp only [Building.enter, Built.identifier?_append, hs, sameContent_self]
          rfl
        · exact .inr ⟨t, List.mem_append_right _ (List.mem_cons_of_mem _ ht), rfl⟩
    · exact ⟨_, List.mem_map.2 ⟨_, List.mem_map.2 ⟨⟨(c, p), h⟩, List.mem_attach _ _, rfl⟩, rfl⟩,
        rfl⟩
  rcases hfinished with hb | ⟨s, hs, -⟩
  · exact hb
  · cases hs

theorem mem_of_entity {id : String} {entity : Element}
    (h : g.build.1.elements.get? id = some entity) :
    ∃ e ∈ patterns g, (e, id) ∈ g.finished.built := by
  obtain ⟨e, hm⟩ := (underway_finished g).known id entity h
  exact ⟨e, (underway_finished g).sites e id hm, hm⟩

section
variable (hsharp : ∀ e ∈ patterns g, '#' ∉ e.name.toList)
include hsharp

theorem described_finished : Described g [] g.finished :=
  (build_invariant (I := fun agenda b => Underway g agenda b ∧ Described g agenda b)
    (fun _ _ _ h => ⟨h.1.complete, h.2.complete hsharp h.1⟩)
    (fun s rest b hs h => ⟨h.1.skip hs, fun e id hm => by
      rcases h.2 e id hm with ⟨⟨t, ht, he⟩, hget⟩ | hdone
      · exact .inl ⟨⟨t, (List.mem_cons.1 ht).resolve_left (by nofun), he⟩, hget⟩
      · exact .inr hdone⟩)
    (fun _ _ _ hs h => ⟨h.1.enter hs, h.2.enter hsharp h.1⟩) _ _
    ⟨underway_start g, fun _ _ hm => by cases hm⟩).2

/-- **Every pattern that was built has its entity in the document**, and its
    content was built too. -/
theorem entity_of_mem {e : ElementPattern} {id : String} (h : (e, id) ∈ g.finished.built) :
    g.finished.built.HasContent g.definitions e ∧
      g.build.1.elements.get? id = some (g.finished.built.entity g.definitions e id) := by
  rcases described_finished hsharp e id h with ⟨⟨s, hs, -⟩, -⟩ | hdone
  · cases hs
  · exact hdone

theorem Grammar.Visited.content {x c : ElementPattern} {p : Pattern} (h : g.Visited x)
    (hc : (c, p) ∈ contentElements g.definitions x) : g.Visited c := by
  obtain ⟨id, hid⟩ := Option.isSome_iff_exists.1 h
  obtain ⟨q, hm⟩ := Built.mem_of_identifier? hid
  exact (entity_of_mem hsharp hm).1 c p hc

theorem Grammar.Visited.entity {x : ElementPattern} (h : g.Visited x) :
    ∃ id, g.finished.built.identifier? x = some id ∧
      g.build.1.elements.get? id = some (g.finished.built.entity g.definitions x id) := by
  obtain ⟨id, hid⟩ := Option.isSome_iff_exists.1 h
  obtain ⟨q, hm⟩ := Built.mem_of_identifier? hid
  exact ⟨id, hid, (entity_of_mem hsharp hm).2⟩

theorem Grammar.Visited.target {x c : ElementPattern} {p : Pattern} (h : g.Visited x)
    (hc : (c, p) ∈ contentElements g.definitions x) :
    ∃ target, g.build.1.elements.get? ((g.finished.built.identifier? c).getD c.name) =
      some target ∧ target.name = c.name := by
  obtain ⟨id, hid, hget⟩ := (h.content hsharp hc).entity hsharp
  exact ⟨_, by rw [hid]; exact hget, rfl⟩

theorem element_of_relation {x : ElementPattern} {id : String} (h : (x, id) ∈ g.finished.built)
    {r : Relation} (hr : r ∈ (g.finished.built.entity g.definitions x id).elementRelations) :
    ∃ c p, (c, p) ∈ contentElements g.definitions x ∧
      ∃ target, g.build.1.elements.get? r.target = some target ∧ target.name = c.name := by
  have hvisited : g.Visited x := by
    rw [Grammar.Visited, (underway_finished g).numbered.identifier? h]
    rfl
  obtain ⟨c, p, hc, htarget⟩ := mem_targets.1 (List.mem_map.2 ⟨r, hr, rfl⟩)
  obtain ⟨target, hget, hname⟩ := hvisited.target hsharp hc
  exact ⟨c, p, hc, target, htarget ▸ hget, hname⟩

theorem relations_of_entity {id : String} {entity : Element}
    (h : g.build.1.elements.get? id = some entity) :
    ∃ x ∈ patterns g, x.name = entity.name ∧ ∀ r ∈ entity.elementRelations,
      ∃ c p, (c, p) ∈ contentElements g.definitions x ∧
        ∃ target, g.build.1.elements.get? r.target = some target ∧ target.name = c.name := by
  obtain ⟨x, hx, hm⟩ := mem_of_entity h
  rw [(entity_of_mem hsharp hm).2] at h
  cases h
  exact ⟨x, hx, rfl, fun r hr => element_of_relation hsharp hm hr⟩

end

end

/-! ## Attributes -/

def attributeEntity (id : String) (a : AttributePattern) : Attribute :=
  { identifier := id ++ "@" ++ a.name, name := a.name, dataType := a.dataType
    facet := Facet.proper a.facet }

def addAttribute (id : String) (taken : Table Attribute × List String × List Notice)
    (c : AttributePattern × Pattern) : Table Attribute × List String × List Notice :=
  let target := id ++ "@" ++ c.1.name
  if target ∈ taken.2.1 then (taken.1, taken.2.1, taken.2.2 ++ [.repeatedAttribute target])
  else
    (if taken.1.contains target then taken.1 else taken.1.insert target (attributeEntity id c.1),
      taken.2.1 ++ [target], taken.2.2)

/-- **Adding attributes**: those that are there stay, and of the new ones the
    first under each identifier is taken. -/
theorem get?_addAttributes (id : String) (content : List (AttributePattern × Pattern))
    (attributes : Table Attribute) (key : String) :
    (addAttributes id content attributes).1.get? key =
      (attributes.get? key).or
        ((content.find? fun c => id ++ "@" ++ c.1.name == key).map fun c =>
          attributeEntity id c.1) := by
  -- the identifiers taken so far are in the table, so only the table matters
  have hfold : ∀ (content : List (AttributePattern × Pattern)) (attributes : Table Attribute)
      (own : List String) (notices : List Notice), (∀ t ∈ own, (attributes.get? t).isSome) →
      (content.foldl (addAttribute id) (attributes, own, notices)).1.get? key =
        (attributes.get? key).or
          ((content.find? fun c => id ++ "@" ++ c.1.name == key).map fun c =>
            attributeEntity id c.1) := by
    intro content
    induction content with
    | nil => intro attributes own notices _; simp
    | cons c content ih =>
      intro attributes own notices hown
      obtain ⟨a, p⟩ := c
      rw [List.foldl_cons, List.find?_cons]
      dsimp only [addAttribute]
      by_cases hmem : id ++ "@" ++ a.name ∈ own
      · rw [if_pos hmem, ih attributes own _ hown]
        obtain ⟨found, hf⟩ := Option.isSome_iff_exists.1 (hown _ hmem)
        by_cases hkey : id ++ "@" ++ a.name = key
        · subst hkey
          simp [hf]
        · simp [beq_false_of_ne hkey]
      · rw [if_neg hmem]
        by_cases hcontains : attributes.contains (id ++ "@" ++ a.name)
        · have hsome : (attributes.get? (id ++ "@" ++ a.name)).isSome := hcontains
          obtain ⟨found, hf⟩ := Option.isSome_iff_exists.1 hsome
          rw [if_pos hcontains, ih attributes _ _ fun t ht => by
            rcases List.mem_append.1 ht with ht | ht
            · exact hown t ht
            · rw [List.mem_singleton.1 ht, hf]
              rfl]
          by_cases hkey : id ++ "@" ++ a.name = key
          · subst hkey
            simp [hf]
          · simp [beq_false_of_ne hkey]
        · have hnone : attributes.get? (id ++ "@" ++ a.name) = none := by
            simpa [Table.contains] using hcontains
          rw [if_neg hcontains, ih _ _ _ fun t ht => by
            rcases List.mem_append.1 ht with ht | ht
            · rw [Table.get?_insert_of_ne]
              · exact hown t ht
              · rintro rfl
                exact hmem ht
            · rw [List.mem_singleton.1 ht, Table.get?_insert_self]
              rfl]
          by_cases hkey : id ++ "@" ++ a.name = key
          · subst hkey
            simp [hnone, attributeEntity]
          · rw [Table.get?_insert_of_ne _ _ (Ne.symm hkey)]
            simp [beq_false_of_ne hkey]
  exact hfold content attributes [] [] fun t ht => absurd ht List.not_mem_nil

/-- Whether the attributes of the document are those of the elements built. -/
structure Attributed (g : Grammar) (b : Building) : Prop where
  present : ∀ e id, (e, id) ∈ b.built → ∀ a p, (a, p) ∈ contentAttributes g.definitions e →
    (b.document.attributes.get? (id ++ "@" ++ a.name)).isSome
  owned : ∀ key entity, b.document.attributes.get? key = some entity →
    ∃ e id a p, (e, id) ∈ b.built ∧ (a, p) ∈ contentAttributes g.definitions e ∧
      key = id ++ "@" ++ a.name ∧ entity.name = a.name

section
variable {g : Grammar}

theorem Attributed.enter {b : Building} (h : Attributed g b) (x : ElementPattern) :
    Attributed g (b.enter g.definitions x) := by
  have hget : ∀ key, (b.enter g.definitions x).document.attributes.get? key =
      (addAttributes (b.built.fresh x) (contentAttributes g.definitions x)
        b.document.attributes).1.get? key := fun _ => rfl
  refine ⟨fun e id hm a p ha => ?_, fun key entity hk => ?_⟩
  · rw [hget, get?_addAttributes, Option.isSome_or, Bool.or_eq_true]
    rcases List.mem_append.1 hm with hm | hm
    · exact .inl (h.present e id hm a p ha)
    · cases List.mem_singleton.1 hm
      refine .inr ?_
      rw [Option.isSome_map, List.find?_isSome]
      exact ⟨(a, p), ha, by simp⟩
  · rw [hget, get?_addAttributes, Option.or_eq_some_iff] at hk
    rcases hk with hk | ⟨-, hk⟩
    · obtain ⟨e, id, a, p, hm, hc⟩ := h.owned key entity hk
      exact ⟨e, id, a, p, List.mem_append_left _ hm, hc⟩
    · obtain ⟨⟨a, p⟩, hfind, rfl⟩ := Option.map_eq_some_iff.1 hk
      have hkey := List.find?_some hfind
      simp only [beq_iff_eq] at hkey
      exact ⟨x, _, a, p, List.mem_append_right _ List.mem_cons_self,
        List.mem_of_find?_eq_some hfind, hkey.symm, rfl⟩

theorem attributed_finished (g : Grammar) : Attributed g g.finished :=
  build_invariant (I := fun _ b => Attributed g b) (fun _ _ _ h => ⟨h.present, h.owned⟩)
    (fun _ _ _ _ h => h) (fun s _ _ _ h => h.enter s.val) _ _
    ⟨(fun _ _ hm => by cases hm), (fun _ _ hk => by cases hk)⟩

theorem attribute_of_relation (hat : ∀ e ∈ patterns g, '@' ∉ e.name.toList) {e : ElementPattern}
    {id : String} (hm : (e, id) ∈ g.finished.built) {r : Relation}
    (hr : r ∈ attributeRelations id (contentAttributes g.definitions e)) :
    ∃ entity a p, g.build.1.attributes.get? r.target = some entity ∧
      (a, p) ∈ contentAttributes g.definitions e ∧ entity.name = a.name ∧
      r = { target := id ++ "@" ++ a.name, occurs := p.occurs } := by
  have hid : ∀ {e id}, (e, id) ∈ g.finished.built → '@' ∉ id.toList := by
    intro e id hm
    obtain ⟨k, -, rfl⟩ := (underway_finished g).numbered.exists_number hm
    exact not_mem_numberedName (by decide) (hat e ((underway_finished g).sites e _ hm)) k
  have hattributed := attributed_finished g
  obtain ⟨a, p, ha, rfl⟩ := mem_attributeRelations hr
  obtain ⟨entity, hentity⟩ := Option.isSome_iff_exists.1 (hattributed.present e id hm a p ha)
  obtain ⟨e', id', a', p', hm', -, hkey, hname⟩ := hattributed.owned _ _ hentity
  refine ⟨entity, a, p, ?_, ha, ?_, rfl⟩
  · rw [build_attributes, hentity]
  · rw [hname, (attributeIdentifier_inj (hid hm) (hid hm') hkey).2]

end

end Schema

end Bindery
