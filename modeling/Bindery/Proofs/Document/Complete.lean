/-
  A document loses no child element.

  The relations of an entity come from the content of the resolved element and
  from the bodies that are left behind its references.  Where recursion is
  guarded these have all children and attributes that the element licenses.

  * `visited_of_leadsTo`, `visited_of_reaches`: all that the start leads to is
    visited;
  * `whole_of_licenses`: a resolved element with its content has all that is
    licensed;
  * `document_complete`: so have the relations of its entity;
  * `ledger_not_complete`: two ways in which a child is lost where recursion is
    not guarded.
-/
import Mathlib
import Bindery.Proofs.Document.Licensed
import Bindery.Proofs.Resolution.Coverage

namespace Bindery.Schema

open ElementPattern

/-! ## What is visited -/

section
variable {g : Grammar}

theorem child_mem_content (ds : Definitions) {c e : ElementPattern} (h : c ∈ e.elements) :
    (c, c.pattern) ∈ contentElements ds e :=
  List.mem_append_left _ (List.mem_map.2 ⟨c, h, rfl⟩)

theorem Grammar.Visited.of_withPattern {c : ElementPattern} {p : Pattern}
    (h : g.Visited { c with pattern := p }) : g.Visited c := by
  rwa [Grammar.Visited, identifier?_withPattern] at h

theorem visited_below (hsharp : ∀ e ∈ patterns g, '#' ∉ e.name.toList) {e : ElementPattern}
    (h : ∀ c ∈ e.elements, g.Visited c) : ∀ x ∈ walkList e.elements, g.Visited x := by
  induction e using childInduction with
  | step e ih =>
    intro x hx
    obtain ⟨c, hc, hx⟩ := mem_walkList.1 hx
    rcases walk_eq.1 hx with rfl | hx
    · exact h x hc
    · exact ih c hc (fun d hd => (h c hc).content hsharp (child_mem_content _ hd)) x hx

end

section
variable {g : Grammar} {table : Definitions} {x x' : ElementPattern}

def ElementPattern.whole (ds : Definitions) (e : ElementPattern) : ElementPattern :=
  { e with
    elements := (contentElements ds e).map (·.1)
    attributes := (contentAttributes ds e).map (·.1) }

theorem ElementPattern.Joins.whole {b : ElementPattern} (h : b.Joins x) (ds : Definitions) :
    b.Joins (x.whole ds) where
  elements c hc := by
    obtain ⟨p, hp⟩ := h.elements c hc
    exact ⟨p, List.mem_map.2 ⟨_, child_mem_content ds hp, rfl⟩⟩
  attributes a ha := by
    obtain ⟨a', ha', hname⟩ := h.attributes a ha
    exact ⟨a', List.mem_map.2 ⟨_, mem_contentAttributes.2 (.inl ⟨ha', rfl⟩), rfl⟩, hname⟩

theorem ElementPattern.joins_self (e : ElementPattern) : e.Joins e where
  elements c hc := ⟨c.pattern, by cases c; exact hc⟩
  attributes a ha := ⟨a, ha, rfl⟩

theorem Covers.joins_whole (h : Covers table x x') {r : Reference} (hr : r ∈ x.references)
    (hd : g.definitions.get? r.name ≠ none) {resolved : List ElementPattern}
    (hget : table.get? r.name = some resolved) {b' : ElementPattern} (hb' : b' ∈ resolved) :
    b'.Joins (x'.whole (g.definitions.overlay table)) := by
  rcases h.references r hr with ⟨kept, hk, hname⟩ | ⟨bodies, hb, hin⟩
  · obtain ⟨bodies, hbodies⟩ := Option.ne_none_iff_exists'.1 hd
    have hover : b' ∈ ((g.definitions.overlay table).get? kept.name).getD [] := by
      rw [Definitions.get?_overlay, hname, hbodies, hget]
      exact hb'
    constructor
    · intro c hc
      refine ⟨c.pattern, List.mem_map.2 ⟨(c, c.pattern.merge kept.pattern), ?_, by cases c; rfl⟩⟩
      exact mem_contentElements.2 (.inr ⟨kept, hk, b', hover, hc, rfl⟩)
    · intro a ha
      exact ⟨a, List.mem_map.2 ⟨_, mem_contentAttributes.2 (.inr ⟨kept, hk, b', hover, ha, rfl⟩),
        rfl⟩, rfl⟩
  · rw [hget] at hb
    cases hb
    exact (hin b' hb').whole _

theorem Grammar.Reaches.leadsTo (h : g.Reaches x) {r : Reference} (hr : r ∈ x.references) :
    g.LeadsTo r.name := by
  cases h with
  | start hx => exact .start (walk_eq.2 (.inr hx)) hr
  | body hl hd hb hx => exact .body hl hd hb (walk_eq.2 (.inr hx)) hr

end

/-- A grammar that was read and resolved, with the table of its resolved
    definitions. -/
structure Grammar.ResolvedBy (g : Grammar) (table : Definitions) : Prop where
  guarded : g.Guarded
  freshStart : g.start.Fresh
  fresh : g.definitions.Fresh
  sharp : ∀ e ∈ patterns g.resolve.1, '#' ∉ e.name.toList
  stage : Stage g.definitions [] table
  start : Resolves g.definitions table [] g.start g.resolve.1.start
  overlay : g.resolve.1.definitions = Definitions.overlay g.definitions table

theorem exists_resolvedBy {dialect : Option Dialect} {root : Markup.Node} {g : Grammar}
    (hread : (readGrammar dialect root).1 = .ok g)
    (hsharp : ∀ e ∈ patterns g, '#' ∉ e.name.toList) (hguarded : g.Guarded) :
    ∃ table, g.ResolvedBy table := by
  obtain ⟨hfreshStart, hfresh⟩ := readGrammar_fresh hread
  obtain ⟨table, hstage, hstart, hoverlay⟩ := resolve_stage g
  exact ⟨table, hguarded, hfreshStart, hfresh, resolve_avoids hsharp, hstage, hstart, hoverlay⟩

section
variable {g : Grammar} {table : Definitions} (h : g.ResolvedBy table)
include h

theorem Grammar.ResolvedBy.body {name : String} (hl : g.LeadsTo name)
    {bodies : List ElementPattern} (hd : g.definitions.get? name = some bodies)
    {b : ElementPattern} (hb : b ∈ bodies) :
    ∃ found, table.get? name = some found ∧
      ∃ b' ∈ found, ∃ outer, Resolves g.definitions table outer b b' := by
  have hdefined : g.definitions.get? name ≠ none := by
    rw [hd]
    nofun
  obtain ⟨found, hfound⟩ := Option.isSome_iff_exists.1
    (h.stage.finds h.guarded h.freshStart h.fresh h.start hl hdefined)
  exact ⟨found, hfound, h.stage.body hd hfound hb⟩

theorem Grammar.ResolvedBy.visited_bodies {x x' : ElementPattern} (hcovers : Covers table x x')
    (hvisit : ∀ c p, (c, p) ∈ contentElements g.resolve.1.definitions x' → g.resolve.1.Visited c)
    {r : Reference} (hr : r ∈ x.references) {resolved : List ElementPattern}
    (hget : table.get? r.name = some resolved) :
    ∀ b' ∈ resolved, ∀ c ∈ b'.elements, g.resolve.1.Visited c := by
  intro b' hb' c hc
  obtain ⟨bodies, outer, hd, -, -⟩ := h.stage.resolved hget
  have hd : g.definitions.get? r.name ≠ none := by
    rw [hd]
    nofun
  obtain ⟨p, hp⟩ := (hcovers.joins_whole hr hd hget hb').elements c hc
  rw [← h.overlay] at hp
  obtain ⟨⟨_, q⟩, hm, rfl⟩ := List.mem_map.1 hp
  exact (hvisit _ q hm).of_withPattern

theorem Grammar.ResolvedBy.visited_of_start :
    ∀ x ∈ walkList g.resolve.1.start.elements, g.resolve.1.Visited x :=
  visited_below h.sharp fun _ hc => visited_start (child_mem_content _ hc)

theorem Grammar.ResolvedBy.visited_of_leadsTo {name : String} (hl : g.LeadsTo name)
    {resolved : List ElementPattern} (hget : table.get? name = some resolved) :
    ∀ b' ∈ resolved, ∀ c ∈ b'.elements, g.resolve.1.Visited c := by
  induction hl generalizing resolved with
  | @start x r hx hr =>
    rcases walk_eq.1 hx with rfl | hx
    · exact h.visited_bodies h.start.covers (fun c p => visited_start) hr hget
    · obtain ⟨x', hx', hres⟩ := h.start.descend x hx
      exact h.visited_bodies hres.covers
        (fun c p => (h.visited_of_start x' hx').content h.sharp) hr hget
  | @body name bodies b x r hl hd hb hx hr ih =>
    obtain ⟨found, hfound, b', hb', outer, hres⟩ := h.body hl hd hb
    rcases walk_eq.1 hx with rfl | hx
    · -- what a body refers to outside of its elements is among its elements now
      obtain ⟨own, outer, hown, -, -⟩ := h.stage.resolved hget
      rcases hres.covers.references r hr with ⟨q, hq, heq⟩ | ⟨again, hagain, hin⟩
      · have hnone := h.stage.bare h.guarded h.fresh _ _ hfound b' hb' q hq
        rw [heq, hown] at hnone
        cases hnone
      · rw [hget] at hagain
        cases hagain
        intro b₂ hb₂ c hc
        obtain ⟨p, hp⟩ := (hin b₂ hb₂).elements c hc
        exact (ih hfound b' hb' _ hp).of_withPattern
    · obtain ⟨x', hx', hres'⟩ := hres.descend x hx
      have hvisited := visited_below h.sharp (ih hfound b' hb') x' hx'
      exact h.visited_bodies hres'.covers (fun c p => hvisited.content h.sharp) hr hget

/-- **What the start reaches is resolved to an element that is visited.** -/
theorem Grammar.ResolvedBy.visited_of_reaches {e : ElementPattern} (he : g.Reaches e) :
    ∃ x' outer, g.resolve.1.Visited x' ∧ Resolves g.definitions table outer e x' := by
  cases he with
  | start he =>
    obtain ⟨x', hx', hres⟩ := h.start.descend e he
    exact ⟨x', _, h.visited_of_start x' hx', hres⟩
  | body hl hd hb he =>
    obtain ⟨found, hfound, b', hb', outer, hres⟩ := h.body hl hd hb
    obtain ⟨x', hx', hres'⟩ := hres.descend e he
    exact ⟨x', _, visited_below h.sharp (h.visited_of_leadsTo hl hfound b' hb') x' hx', hres'⟩

theorem Grammar.ResolvedBy.whole_of_licenses {e x' : ElementPattern} (he : g.Reaches e)
    {outer : List String} (hres : Resolves g.definitions table outer e x')
    {P : ElementPattern → Prop} (hP : Lasting P) (hl : g.definitions.Licenses P e) :
    P (x'.whole g.resolve.1.definitions) := by
  cases hl with
  | own hp =>
    refine hP.of_joins (x'.joins_self.whole _) ?_
    exact hP _ _ hres.covers.children hres.covers.attributes hp
  | @body _ r bodies b hr hd hb hl =>
    have hdefined : g.definitions.get? r.name ≠ none := by
      rw [hd]
      nofun
    obtain ⟨found, hfound, b', hb', outer', hres'⟩ := h.body (he.leadsTo hr) hd hb
    have hb := Resolves.of_licenses h.guarded h.fresh h.stage hP hl hres'
      (h.stage.bare h.guarded h.fresh _ _ hfound b' hb')
    rw [h.overlay]
    exact hP.of_joins (hres.covers.joins_whole hr hdefined hfound hb') hb

end

/-- **No child element is lost.**  For every element pattern that the start of
    a grammar reaches, its document has an entity of the same name that is
    related to elements of all names that the pattern licenses as children, if
    recursion is guarded and the names of elements do not contain `#`. -/
theorem document_complete {dialect : Option Dialect} {root : Markup.Node} {g : Grammar}
    (hread : (readGrammar dialect root).1 = .ok g)
    (hsharp : ∀ e ∈ patterns g, '#' ∉ e.name.toList) (hguarded : g.Guarded) {e : ElementPattern}
    (he : g.Reaches e) :
    ∃ id entity, g.resolve.1.build.1.elements.get? id = some entity ∧ entity.name = e.name ∧
      ∀ name, g.definitions.Licenses (·.HasChild name) e →
        ∃ r ∈ entity.elementRelations, ∃ target,
          g.resolve.1.build.1.elements.get? r.target = some target ∧ target.name = name := by
  obtain ⟨table, h⟩ := exists_resolvedBy hread hsharp hguarded
  obtain ⟨x', outer, hvisited, hres⟩ := h.visited_of_reaches he
  obtain ⟨id, hid, hget⟩ := hvisited.entity h.sharp
  refine ⟨id, _, hget, hres.name, fun name hl => ?_⟩
  obtain ⟨c, hc, rfl⟩ := h.whole_of_licenses he hres (lasting_hasChild name) hl
  obtain ⟨⟨c, q⟩, hm, rfl⟩ := List.mem_map.1 hc
  obtain ⟨r, hr, htarget⟩ := List.mem_map.1 (mem_targets.2 ⟨c, q, hm, rfl⟩)
  obtain ⟨target, hfound, hname⟩ := hvisited.target h.sharp hm
  exact ⟨r, hr, target, htarget ▸ hfound, hname⟩

def sectionsRoot : Markup.Node :=
  plainNode "grammar"
    [plainNode "start" [namedNode "ref" "section" []],
    namedNode "define" "section" [namedNode "element" "section"
      [namedNode "attribute" "title" [], namedNode "ref" "block" [],
      plainNode "zeroOrMore" [namedNode "ref" "section" []]]],
    namedNode "define" "block" [namedNode "ref" "para" []],
    namedNode "define" "para" [namedNode "element" "para" [plainNode "text" []]]]

/-- Sections depend on themselves, but inside elements only. -/
theorem sectionsGrammar_guarded : sectionsGrammar.Guarded :=
  Grammar.guarded_of_rank (fun name => ["para", "block"].idxOf name) (by decide)
    (by decide) (by decide)

theorem section_complete : ∃ id entity,
    sectionsGrammar.resolve.1.build.1.elements.get? id = some entity ∧
    entity.name = "section" ∧
    ∀ name ∈ ["para", "section"], ∃ r ∈ entity.elementRelations, ∃ target,
      sectionsGrammar.resolve.1.build.1.elements.get? r.target = some target ∧
        target.name = name := by
  have hread : (readGrammar none sectionsRoot).1 = .ok sectionsGrammar := by rfl
  have hreaches : sectionsGrammar.Reaches sectionPattern :=
    .body (.start (mem_walk_self _) List.mem_cons_self) rfl List.mem_cons_self
      (mem_walkList_of_mem_walk List.mem_cons_self (mem_walk_self _))
  obtain ⟨id, entity, hget, hname, hall⟩ := document_complete hread
    sectionsGrammar_avoids.1 sectionsGrammar_guarded hreaches
  refine ⟨id, entity, hget, hname, List.forall_mem_cons.2 ⟨hall _ ?_,
    List.forall_mem_singleton.2 (hall _ ?_)⟩⟩
  -- a paragraph is licensed over two definitions
  · exact .body (r := { name := "block" }) (.head _) rfl (.head _)
      (.body (.head _) rfl (.head _) (.own ⟨_, .head _, rfl⟩))
  · exact .body (.tail _ (.head _)) rfl (.head _) (.own ⟨_, .head _, rfl⟩)

/-- A ledger of entries that hold entries, in which two definitions depend on
    each other outside of elements, and a list with the name of the definition
    it refers to. -/
def ledgerRoot : Markup.Node :=
  plainNode "grammar"
    [plainNode "start" [namedNode "ref" "ledger" []],
    namedNode "define" "ledger" [namedNode "element" "ledger"
      [namedNode "element" "list" [namedNode "ref" "list" []], namedNode "ref" "entry" []]],
    namedNode "define" "entry"
      [namedNode "element" "entry" [namedNode "ref" "entry" []], namedNode "ref" "ledger" []],
    namedNode "define" "list" [namedNode "ref" "item" []],
    namedNode "define" "item" [namedNode "element" "item" [plainNode "text" []]]]

def entryPattern : ElementPattern where
  name := "entry"
  references := [{ name := "entry" }]

def listPattern : ElementPattern where
  name := "list"
  references := [{ name := "list" }]

/-- The definitions of the ledger, given the pattern of a ledger and the
    reference of an entry to ledgers. -/
def ledgerDefinitions (ledger : ElementPattern) (back : Reference) : Definitions :=
  ⟨[("ledger", [{ name := "ledger", elements := [ledger] }]),
    ("entry", [{ name := "entry", elements := [entryPattern], references := [back] }]),
    ("list", [{ name := "list", references := [{ name := "item" }] }]),
    ("item", [{ name := "item", elements := [{ name := "item", hasText := true }] }])]⟩

def ledgerGrammar : Grammar where
  start := { references := [{ name := "ledger" }] }
  definitions := ledgerDefinitions
    { name := "ledger", elements := [listPattern], references := [{ name := "entry" }] }
    { name := "ledger" }

def ledgerPattern : ElementPattern where
  name := "ledger"
  elements := [listPattern, entryPattern]
  references := [{ name := "ledger", substituted := true }]

def ledgerResolved : Grammar where
  start := { elements := [ledgerPattern] }
  definitions := ledgerDefinitions ledgerPattern { name := "ledger", substituted := true }

theorem ledgerGrammar_resolve : ledgerGrammar.resolve.1 = ledgerResolved := by cbv

/-- **Where recursion is not guarded children are lost**: an entry licenses a
    ledger and a list an item, but no entity with the name of an entry is
    related to a ledger, and none with the name of a list to an item. -/
theorem ledger_not_complete : (readGrammar none ledgerRoot).1 = .ok ledgerGrammar ∧
    (∀ e ∈ patterns ledgerGrammar, '#' ∉ e.name.toList) ∧
    ∀ lost ∈ [(entryPattern, "ledger"), (listPattern, "item")],
      ledgerGrammar.Reaches lost.1 ∧
      ledgerGrammar.definitions.Licenses (·.HasChild lost.2) lost.1 ∧
      ∀ id entity, ledgerGrammar.resolve.1.build.1.elements.get? id = some entity →
        entity.name = lost.1.name → ∀ r ∈ entity.elementRelations, ∀ target,
          ledgerGrammar.resolve.1.build.1.elements.get? r.target = some target →
            target.name ≠ lost.2 := by
  have hnames : (∀ e ∈ patterns ledgerGrammar, '#' ∉ e.name.toList) ∧
      ∀ lost ∈ [(entryPattern, "ledger"), (listPattern, "item")],
        ∀ x ∈ patterns ledgerResolved, x.name = lost.1.name →
          ∀ content ∈ contentElements ledgerResolved.definitions x, content.1.name ≠ lost.2 := by
    decide
  have hsharp := resolve_avoids hnames.1
  have hledger : ledgerGrammar.LeadsTo "ledger" :=
    .start (r := { name := "ledger" }) (mem_walk_self _) (.head _)
  have hentry : ledgerGrammar.LeadsTo "entry" :=
    .body (r := { name := "entry" }) hledger rfl (.head _)
      (walk_eq.2 (.inr (mem_walkList_of_mem (.head _)))) (.head _)
  have hreaches : ∀ lost ∈ [(entryPattern, "ledger"), (listPattern, "item")],
      ledgerGrammar.Reaches lost.1 := by
    refine List.forall_mem_cons.2 ⟨?_, List.forall_mem_singleton.2 ?_⟩
    · exact .body hentry rfl (.head _) (mem_walkList_of_mem (.head _))
    · exact .body hledger rfl (.head _) (mem_walkList_of_mem_walk (.head _)
        (walk_eq.2 (.inr (mem_walkList_of_mem (.head _)))))
  have hlicenses : ∀ lost ∈ [(entryPattern, "ledger"), (listPattern, "item")],
      ledgerGrammar.definitions.Licenses (·.HasChild lost.2) lost.1 := by
    refine List.forall_mem_cons.2 ⟨?_, List.forall_mem_singleton.2 ?_⟩
    · exact .body (.head _) rfl (.head _) (.body (.head _) rfl (.head _) (.own ⟨_, .head _, rfl⟩))
    · exact .body (.head _) rfl (.head _) (.body (.head _) rfl (.head _) (.own ⟨_, .head _, rfl⟩))
  refine ⟨by rfl, hnames.1, fun lost hlost => ⟨hreaches lost hlost, hlicenses lost hlost, ?_⟩⟩
  intro id entity hget hname r hr target htarget
  obtain ⟨x, hx, hxname, hrelations⟩ := relations_of_entity hsharp hget
  obtain ⟨c, p, hc, found, hfound, hcname⟩ := hrelations r hr
  rw [htarget] at hfound
  cases hfound
  rw [ledgerGrammar_resolve] at hx hc
  rw [hcname]
  exact hnames.2 lost hlost x hx (hxname ▸ hname) (c, p) hc

end Bindery.Schema
