/-
  Identifiers name content.

  The loop that builds a document visits element patterns: those in the content
  of the start, and those in the content of what it enters.  Every visit gives
  its pattern an identifier, and relations lead there.

  * `visits`: the visits of the loop, each with the identifier that is given;
  * `Traced`: what the loop keeps between the visits and the elements built;
  * `reached_iff`: the patterns visited are those reached from the start;
  * `identifiers_name_content`: patterns get one identifier if they have the
    same content, and only then, and the table has one entity for each.
-/
import Bindery.Proofs.Document.Closed

namespace Bindery.Schema

open ElementPattern

/-! ## Visits -/

/-- The visits of the loop in their order, each with the identifier that the
    pattern gets: that of its content if it is built, else a new one. -/
def visits (g : Grammar) (agenda : List (Task g)) (b : Building) :
    List (ElementPattern × String) :=
  match agenda with
  | [] => []
  | .complete s :: rest => visits g rest (b.complete g.definitions s.val)
  | .visit s :: rest =>
    match _h : b.built.identifier? s.val with
    | some id => (s.val, id) :: visits g rest b
    | none =>
      (s.val, b.built.fresh s.val) ::
        visits g (s.content.map .visit ++ .complete s :: rest) (b.enter g.definitions s.val)
termination_by (unbuilt b.built (patterns g), agenda.length)
decreasing_by
  · exact Prod.Lex.right _ (by simp)
  · exact Prod.Lex.right _ (by simp)
  · exact Prod.Lex.left _ _ (unbuilt_append_lt _ s.property _h)

def Grammar.visits (g : Grammar) : List (ElementPattern × String) :=
  Schema.visits g (g.startContent.map .visit) { notices := contentNotices g.definitions g.start }

inductive Grammar.Reached (g : Grammar) : ElementPattern → Prop
  | start {c p} : (c, p) ∈ contentElements g.definitions g.start → g.Reached c
  | content {e c p} : g.Reached e → (c, p) ∈ contentElements g.definitions e → g.Reached c

section
variable {g : Grammar}

theorem Site.of_mem_content {s t : Site g} (h : t ∈ s.content) :
    ∃ p, (t.val, p) ∈ contentElements g.definitions s.val := by
  obtain ⟨⟨⟨c, p⟩, hc⟩, -, rfl⟩ := List.mem_map.1 h
  exact ⟨p, hc⟩

theorem Grammar.of_mem_startContent {t : Site g} (h : t ∈ g.startContent) :
    ∃ p, (t.val, p) ∈ contentElements g.definitions g.start := by
  obtain ⟨⟨⟨c, p⟩, hc⟩, -, rfl⟩ := List.mem_map.1 h
  exact ⟨p, hc⟩

theorem visit_mem_append {s t : Site g} {rest : List (Task g)}
    (h : .visit t ∈ s.content.map .visit ++ .complete s :: rest) :
    t ∈ s.content ∨ .visit t ∈ rest := by
  rcases List.mem_append.1 h with h | h
  · obtain ⟨t', ht, heq⟩ := List.mem_map.1 h
    cases heq
    exact .inl ht
  · exact .inr ((List.mem_cons.1 h).resolve_left (by nofun))

/-- What holds of the visits `vs` by which the loop comes from `b` to `r`. -/
structure Traced (g : Grammar) (agenda : List (Task g)) (b r : Building)
    (vs : List (ElementPattern × String)) : Prop where
  /-- Identifiers do not change. -/
  kept : ∀ x id, b.built.identifier? x = some id → r.built.identifier? x = some id
  received : ∀ x id, (x, id) ∈ vs → r.built.identifier? x = some id
  /-- Visits in the agenda are made. -/
  made : ∀ s, .visit s ∈ agenda → ∃ id, (s.val, id) ∈ vs
  /-- What is entered was visited, and its content is. -/
  entered : ∀ x id, (x, id) ∈ r.built → (x, id) ∈ b.built ∨
    (x, id) ∈ vs ∧ ∀ c p, (c, p) ∈ contentElements g.definitions x → ∃ i, (c, i) ∈ vs
  reached : (∀ s, .visit s ∈ agenda → g.Reached s.val) → ∀ x id, (x, id) ∈ vs → g.Reached x

theorem Traced.nil (b : Building) : Traced g [] b b [] where
  kept _ _ h := h
  received _ _ h := by cases h
  made _ h := by cases h
  entered _ _ h := .inl h
  reached _ _ _ h := by cases h

variable {rest : List (Task g)} {s : Site g} {b r : Building}
  {vs : List (ElementPattern × String)}

theorem Traced.complete (h : Traced g rest (b.complete g.definitions s.val) r vs) :
    Traced g (.complete s :: rest) b r vs where
  kept := h.kept
  received := h.received
  made t ht := h.made t ((List.mem_cons.1 ht).resolve_left (by nofun))
  entered := h.entered
  reached hagenda := h.reached fun t ht => hagenda t (List.mem_cons_of_mem _ ht)

theorem Traced.skip {id : String} (hs : b.built.identifier? s.val = some id)
    (h : Traced g rest b r vs) : Traced g (.visit s :: rest) b r ((s.val, id) :: vs) where
  kept := h.kept
  received x i hm := by
    rcases List.mem_cons.1 hm with heq | hm
    · cases heq
      exact h.kept _ _ hs
    · exact h.received x i hm
  made t ht := by
    rcases List.mem_cons.1 ht with heq | ht
    · cases heq
      exact ⟨id, List.mem_cons_self⟩
    · obtain ⟨i, hi⟩ := h.made t ht
      exact ⟨i, List.mem_cons_of_mem _ hi⟩
  entered x i hm := by
    rcases h.entered x i hm with hm | ⟨hm, hcontent⟩
    · exact .inl hm
    · refine .inr ⟨List.mem_cons_of_mem _ hm, fun c p hc => ?_⟩
      obtain ⟨j, hj⟩ := hcontent c p hc
      exact ⟨j, List.mem_cons_of_mem _ hj⟩
  reached hagenda x i hm := by
    rcases List.mem_cons.1 hm with heq | hm
    · cases heq
      exact hagenda s List.mem_cons_self
    · exact h.reached (fun t ht => hagenda t (List.mem_cons_of_mem _ ht)) x i hm

theorem Traced.enter (hs : b.built.identifier? s.val = none)
    (h : Traced g (s.content.map .visit ++ .complete s :: rest) (b.enter g.definitions s.val) r vs) :
    Traced g (.visit s :: rest) b r ((s.val, b.built.fresh s.val) :: vs) where
  kept x i hx := by
    refine h.kept x i ?_
    simp only [Building.enter, Built.identifier?_append, hx, Option.some_or]
  received x i hm := by
    rcases List.mem_cons.1 hm with heq | hm
    · cases heq
      refine h.kept _ _ ?_
      simp only [Building.enter, Built.identifier?_append, hs, sameContent_self, Option.none_or,
        if_true]
    · exact h.received x i hm
  made t ht := by
    rcases List.mem_cons.1 ht with heq | ht
    · cases heq
      exact ⟨_, List.mem_cons_self⟩
    · obtain ⟨i, hi⟩ := h.made t (List.mem_append_right _ (List.mem_cons_of_mem _ ht))
      exact ⟨i, List.mem_cons_of_mem _ hi⟩
  entered x i hm := by
    rcases h.entered x i hm with hm | ⟨hm, hcontent⟩
    · rcases List.mem_append.1 hm with hm | hm
      · exact .inl hm
      · cases List.mem_singleton.1 hm
        refine .inr ⟨List.mem_cons_self, fun c p hc => ?_⟩
        obtain ⟨t, ht, rfl⟩ := Site.mem_content hc
        obtain ⟨j, hj⟩ := h.made t (List.mem_append_left _ (List.mem_map_of_mem ht))
        exact ⟨j, List.mem_cons_of_mem _ hj⟩
    · refine .inr ⟨List.mem_cons_of_mem _ hm, fun c p hc => ?_⟩
      obtain ⟨j, hj⟩ := hcontent c p hc
      exact ⟨j, List.mem_cons_of_mem _ hj⟩
  reached hagenda x i hm := by
    have hreached := hagenda s List.mem_cons_self
    rcases List.mem_cons.1 hm with heq | hm
    · cases heq
      exact hreached
    · refine h.reached (fun t ht => ?_) x i hm
      rcases visit_mem_append ht with ht | ht
      · obtain ⟨p, hp⟩ := Site.of_mem_content ht
        exact hreached.content hp
      · exact hagenda t (List.mem_cons_of_mem _ ht)

/-- **The visits tell how the loop runs.** -/
theorem traced (agenda : List (Task g)) (b : Building) :
    Traced g agenda b (build g agenda b) (visits g agenda b) := by
  fun_induction visits g agenda b with
  | case1 b =>
    rw [build]
    exact .nil b
  | case2 b s rest ih =>
    rw [build]
    exact ih.complete
  | case3 b s rest id hid ih =>
    rw [build]
    split
    · exact ih.skip hid
    · rename_i hnone
      rw [hid] at hnone
      cases hnone
  | case4 b s rest hnone ih =>
    rw [build]
    split
    · rename_i id hid
      rw [hnone] at hid
      cases hid
    · exact ih.enter hnone

end

/-! ## What is visited -/

section
variable {g : Grammar}

theorem traced_finished (g : Grammar) : Traced g (g.startContent.map .visit)
    { notices := contentNotices g.definitions g.start } g.finished g.visits :=
  traced _ _

theorem mem_built_of_visit {x : ElementPattern} {id : String} (h : (x, id) ∈ g.visits) :
    ∃ p, ({ x with pattern := p }, id) ∈ g.finished.built :=
  Built.mem_of_identifier? ((traced_finished g).received x id h)

theorem visit_of_built {x : ElementPattern} {id : String} (h : (x, id) ∈ g.finished.built) :
    (x, id) ∈ g.visits ∧
      ∀ c p, (c, p) ∈ contentElements g.definitions x → ∃ i, (c, i) ∈ g.visits :=
  ((traced_finished g).entered x id h).resolve_left (by nofun)

theorem reached_iff {x : ElementPattern} : g.Reached x ↔ ∃ id, (x, id) ∈ g.visits := by
  constructor
  · intro h
    induction h with
    | @start c p hc =>
      exact (traced_finished g).made _
        (List.mem_map_of_mem (List.mem_map.2 ⟨⟨(c, p), hc⟩, List.mem_attach _ _, rfl⟩))
    | @content e c p _ hc ih =>
      -- content does not depend on how the element occurs
      obtain ⟨id, hid⟩ := ih
      obtain ⟨q, hq⟩ := mem_built_of_visit hid
      exact (visit_of_built hq).2 c p hc
  · rintro ⟨id, hid⟩
    refine (traced_finished g).reached (fun s hs => ?_) x id hid
    obtain ⟨t, ht, heq⟩ := List.mem_map.1 hs
    cases heq
    obtain ⟨p, hp⟩ := Grammar.of_mem_startContent ht
    exact .start hp

end

/-! ## The order of the table -/

def Foreseen (g : Grammar) (built : Built) (x : ElementPattern) : Prop :=
  (∃ p, (x, p) ∈ contentElements g.definitions g.start) ∨
    ∃ e id p, (e, id) ∈ built ∧ (x, p) ∈ contentElements g.definitions e

/-- Whether what is built or to be visited was foreseen, and the table has the
    order in which elements were entered. -/
structure Ordered (g : Grammar) (agenda : List (Task g)) (b : Building) : Prop where
  agenda : ∀ s, .visit s ∈ agenda → Foreseen g b.built s.val
  built : ∀ before x after, b.built = before ++ x :: after → Foreseen g before x.1
  keys : b.document.elements.keys = b.built.map (·.2)

section
variable {g : Grammar} {rest : List (Task g)} {s : Site g} {b : Building}

theorem Foreseen.append {built : Built} {x : ElementPattern} (h : Foreseen g built x)
    (e : ElementPattern × String) : Foreseen g (built ++ [e]) x := by
  rcases h with h | ⟨e', id, p, he, hp⟩
  · exact .inl h
  · exact .inr ⟨e', id, p, List.mem_append_left _ he, hp⟩

theorem Ordered.skip (h : Ordered g (.visit s :: rest) b) : Ordered g rest b where
  agenda t ht := h.agenda t (List.mem_cons_of_mem _ ht)
  built := h.built
  keys := h.keys

theorem Ordered.complete (h : Ordered g (.complete s :: rest) b) :
    Ordered g rest (b.complete g.definitions s.val) where
  agenda t ht := h.agenda t (List.mem_cons_of_mem _ ht)
  built := h.built
  keys := (Table.keys_modify _ _ _).trans h.keys

/-- **Entering keeps the order**: the new element was foreseen, and now its
    content is; it comes last, since its identifier is new. -/
theorem Ordered.enter (hsharp : ∀ e ∈ patterns g, '#' ∉ e.name.toList)
    (hu : Underway g (.visit s :: rest) b) (h : Ordered g (.visit s :: rest) b) :
    Ordered g (s.content.map .visit ++ .complete s :: rest) (b.enter g.definitions s.val) where
  agenda t ht := by
    rcases visit_mem_append ht with ht | ht
    · obtain ⟨p, hp⟩ := Site.of_mem_content ht
      exact .inr ⟨s.val, _, p, List.mem_append_right _ List.mem_cons_self, hp⟩
    · exact (h.agenda t (List.mem_cons_of_mem _ ht)).append _
  built before x after heq := by
    rcases List.eq_nil_or_concat' after with rfl | ⟨after, last, rfl⟩
    · obtain ⟨rfl, hx⟩ := List.append_inj' heq rfl
      cases List.singleton_inj.1 hx
      exact h.agenda s List.mem_cons_self
    · refine h.built before x after ?_
      rw [← List.cons_append, ← List.append_assoc] at heq
      exact (List.append_inj' heq rfl).1
  keys := by
    have hnew : b.built.fresh s.val ∉ b.document.elements.keys := by
      intro hm
      rw [h.keys, List.mem_map] at hm
      obtain ⟨⟨e, id⟩, hm, heq⟩ := hm
      exact hu.numbered.fresh_ne hm (hsharp e (hu.sites e id hm)) (hsharp _ s.property) heq
    have hkeys : (b.enter g.definitions s.val).document.elements.keys =
        b.document.elements.keys ++ [b.built.fresh s.val] :=
      Table.keys_insert.trans (if_neg hnew)
    rw [hkeys, h.keys, Building.enter, List.map_append]
    rfl

theorem ordered_finished (hsharp : ∀ e ∈ patterns g, '#' ∉ e.name.toList) :
    Ordered g [] g.finished :=
  (build_invariant (I := fun agenda b => Underway g agenda b ∧ Ordered g agenda b)
    (fun _ _ _ h => ⟨h.1.complete, h.2.complete⟩)
    (fun _ _ _ hs h => ⟨h.1.skip hs, h.2.skip⟩)
    (fun _ _ _ hs h => ⟨h.1.enter hs, h.2.enter hsharp h.1⟩) _ _
    ⟨underway_start g, {
      agenda := fun s hs => by
        obtain ⟨t, ht, heq⟩ := List.mem_map.1 hs
        cases heq
        exact .inl (Grammar.of_mem_startContent ht)
      built := fun before x after heq => by simp at heq
      keys := rfl }⟩).2

end

/-! ## Identifiers -/

theorem sameContent_of_withPattern {x y : ElementPattern} {p q : Pattern}
    (h : { x with pattern := p } = { y with pattern := q }) : x.sameContent y = true := by
  cases x
  cases y
  simp only [ElementPattern.mk.injEq] at h
  simp [sameContent, h]

theorem visit_identifier_eq {g : Grammar} {x y : ElementPattern} {i j : String}
    (hx : (x, i) ∈ g.visits) (hy : (y, j) ∈ g.visits) (hsame : x.sameContent y = true) : i = j := by
  have hfound := (traced_finished g).received x i hx
  rw [eq_of_sameContent hsame, identifier?_withPattern, (traced_finished g).received y j hy]
    at hfound
  exact (Option.some.inj hfound).symm

section
variable {g : Grammar} (hsharp : ∀ e ∈ patterns g, '#' ∉ e.name.toList)
include hsharp

/-- **Patterns get one identifier if they have the same content, and only
    then.** -/
theorem visit_identifier_eq_iff {x y : ElementPattern} {i j : String} (hx : (x, i) ∈ g.visits)
    (hy : (y, j) ∈ g.visits) : i = j ↔ x.sameContent y = true := by
  refine ⟨?_, visit_identifier_eq hx hy⟩
  rintro rfl
  obtain ⟨p, hp⟩ := mem_built_of_visit hx
  obtain ⟨q, hq⟩ := mem_built_of_visit hy
  exact sameContent_of_withPattern ((underway_finished g).numbered.unique
    (fun e id hm => hsharp e ((underway_finished g).sites e id hm)) hp hq)

theorem entity_of_visit {x : ElementPattern} {id : String} (h : (x, id) ∈ g.visits) :
    g.build.1.elements.get? id = some (g.finished.built.entity g.definitions x id) := by
  obtain ⟨p, hp⟩ := mem_built_of_visit h
  exact (entity_of_mem hsharp hp).2

/-- **An entity that is not a root comes after one with a relation to it.** -/
theorem source_before {before after : List (String × Element)} {key : String} {entity : Element}
    (h : g.build.1.elements.entries = before ++ (key, entity) :: after)
    (hroot : key ∉ g.build.1.roots) :
    ∃ source ∈ before, ∃ r ∈ source.2.elementRelations, r.target = key := by
  have hordered := ordered_finished hsharp
  have hkeys : g.finished.built.map (·.2) =
      before.map (·.1) ++ key :: after.map (·.1) := by
    rw [← hordered.keys, ← List.map_cons (f := Prod.fst) (a := (key, entity)), ← List.map_append,
      ← h]
    rfl
  obtain ⟨built, others, hbuilt, hbefore, hothers⟩ := List.map_eq_append_iff.1 hkeys
  obtain ⟨⟨x, id⟩, later, rfl, rfl, -⟩ := List.map_eq_cons_iff.1 hothers
  have hx : g.finished.built.identifier? x = some id :=
    (underway_finished g).numbered.identifier? (hbuilt ▸ List.mem_append_right _ List.mem_cons_self)
  rcases hordered.built built (x, id) later hbuilt with ⟨p, hp⟩ | ⟨e, i, p, he, hp⟩
  · -- what the start has is a root
    refine absurd ?_ hroot
    refine mem_distinct.2 (List.mem_map.2 ⟨⟨x, _⟩, List.mem_map.2 ⟨⟨(x, p), hp⟩,
      List.mem_attach _ _, rfl⟩, ?_⟩)
    exact congrArg (Option.getD · x.name) hx
  · have hi : i ∈ before.map (·.1) := hbefore ▸ List.mem_map.2 ⟨(e, i), he, rfl⟩
    obtain ⟨⟨k, source⟩, hsource, rfl⟩ := List.mem_map.1 hi
    have hget := (entity_of_mem hsharp (hbuilt ▸ List.mem_append_left _ he)).2
    have hfound : g.build.1.elements.get? k = some source :=
      Table.get?_of_mem_entries (closing_finished g).closed.elementKeys
        (h ▸ List.mem_append_left _ hsource)
    have hentity : source = g.finished.built.entity g.definitions e k :=
      Option.some.inj (hfound.symm.trans hget)
    subst hentity
    have htarget : id ∈ (g.finished.built.entity g.definitions e k).elementRelations.map
        (·.target) := mem_targets.2 ⟨x, p, hp, by rw [hx]; rfl⟩
    obtain ⟨r, hr, hrt⟩ := List.mem_map.1 htarget
    exact ⟨_, hsource, r, hr, hrt⟩

end

/-- **Identifiers name content.**  Take any start and definitions in which no
    name of an element contains `#`.  Building visits the element patterns that
    are reached from the start.  Two of them get the same identifier if and only
    if they have the same content.  The table of elements has one entity under
    each identifier given and none besides, with the text flag, the data type
    and the facet of the content, unless that is empty, and with relations to
    the identifiers that its content got.  An entity that is not a root comes
    after one with a relation to it. -/
theorem identifiers_name_content {g : Grammar}
    (hsharp : ∀ e ∈ patterns g, '#' ∉ e.name.toList) :
    (∀ x, g.Reached x ↔ ∃ id, (x, id) ∈ g.visits) ∧
    (∀ x i y j, (x, i) ∈ g.visits → (y, j) ∈ g.visits → (i = j ↔ x.sameContent y = true)) ∧
    g.build.1.elements.keys.Nodup ∧
    (∀ key ∈ g.build.1.elements.keys, ∃ x, (x, key) ∈ g.visits) ∧
    (∀ x id, (x, id) ∈ g.visits → ∃ entity, g.build.1.elements.get? id = some entity ∧
      entity.name = x.name ∧ entity.text = x.hasText ∧ entity.dataType = x.dataType ∧
      entity.facet = Facet.proper x.facet ∧
      ∀ c p, (c, p) ∈ contentElements g.definitions x → ∃ j, (c, j) ∈ g.visits ∧
        ∃ r ∈ entity.elementRelations, r.target = j) ∧
    ∀ before key entity after, g.build.1.elements.entries = before ++ (key, entity) :: after →
      key ∉ g.build.1.roots → ∃ source ∈ before, ∃ r ∈ source.2.elementRelations, r.target = key := by
  refine ⟨fun x => reached_iff, fun x i y j hx hy => visit_identifier_eq_iff hsharp hx hy,
    (closing_finished g).closed.elementKeys, ?_, ?_,
    fun before key entity after h hroot => source_before hsharp h hroot⟩
  · intro key hkey
    have hordered := (ordered_finished hsharp).keys
    obtain ⟨⟨x, id⟩, hm, rfl⟩ := List.mem_map.1 (hordered ▸ hkey)
    exact ⟨x, (visit_of_built hm).1⟩
  · intro x id hx
    refine ⟨_, entity_of_visit hsharp hx, rfl, rfl, rfl, rfl, fun c p hc => ?_⟩
    obtain ⟨j, hj⟩ := reached_iff.1 ((reached_iff.2 ⟨id, hx⟩).content hc)
    have htarget : j ∈ (g.finished.built.entity g.definitions x id).elementRelations.map
        (·.target) := mem_targets.2 ⟨c, p, hc, by rw [(traced_finished g).received c j hj]; rfl⟩
    obtain ⟨r, hr, hrt⟩ := List.mem_map.1 htarget
    exact ⟨j, hj, r, hr, hrt⟩

def boxPattern : ElementPattern where
  name := "box"
  elements := [{ name := "item", hasText := true, attributes := [{ name := "key" }] }]
  references := [{ name := "box", pattern := { zeroOrMore := true } }]

def boxesGrammar : Grammar where
  start := { elements := [{ name := "item", hasText := true }], references := [{ name := "box" }] }
  definitions := ⟨[("box", [{ name := "box", elements := [boxPattern] }])]⟩

theorem box_items_named_apart : (∀ e ∈ patterns boxesGrammar, '#' ∉ e.name.toList) ∧
    ∃ i j, ({ name := "item", hasText := true }, i) ∈ boxesGrammar.visits ∧
      ({ name := "item", hasText := true, attributes := [{ name := "key" }] }, j) ∈
        boxesGrammar.visits ∧ i ≠ j := by
  have hsharp : ∀ e ∈ patterns boxesGrammar, '#' ∉ e.name.toList := by decide
  obtain ⟨hreached, hsame, -⟩ := identifiers_name_content hsharp
  have hitem : boxesGrammar.Reached { name := "item", hasText := true } :=
    .start (p := {}) (by decide)
  have hbox : boxesGrammar.Reached boxPattern := .start (p := {}) (by decide)
  have hkeyed : boxesGrammar.Reached
      { name := "item", hasText := true, attributes := [{ name := "key" }] } :=
    hbox.content (p := {}) (by decide)
  obtain ⟨i, hi⟩ := (hreached _).1 hitem
  obtain ⟨j, hj⟩ := (hreached _).1 hkeyed
  refine ⟨hsharp, i, j, hi, hj, fun heq => ?_⟩
  have hcontent := (hsame _ i _ j hi hj).1 heq
  revert hcontent
  decide

end Bindery.Schema
