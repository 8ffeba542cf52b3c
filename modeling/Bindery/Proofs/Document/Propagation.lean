/-
  Text and scalar types reach the elements that refer to them.

  Where definitions do not depend on themselves and no element refers to its
  own name, resolving expands every element.  The document then has an entity
  for each element pattern that the start reaches, with the text, the data type
  and the facet that are found in the pattern and in the bodies below it.

  * `Grammar.Reaches.entityFor`: an element pattern has its entity;
  * `text_and_types_propagate`: its text, data type and facet;
  * `title_not_typed`: an element with the name of the definition that it
    refers to gets nothing from it.
-/
import Mathlib
import Bindery.Proofs.Document.Complete
import Bindery.Proofs.Resolution.Gathering

namespace Bindery.Schema

open ElementPattern

/-- **The entity that the document has for an element pattern**: the one with
    the identifier of the expanded pattern. -/
def Grammar.entityFor (g : Grammar) (e : ElementPattern) : Option Element :=
  (g.resolve.1.finished.built.identifier? (expand (expansion g.definitions) e)).bind
    g.resolve.1.build.1.elements.get?

/-- Whether resolving expands all elements of the grammar, and the names of
    elements cannot be taken for numbered ones. -/
structure Grammar.Expandable (g : Grammar) : Prop where
  freshStart : g.start.Fresh
  fresh : g.definitions.Fresh
  acyclic : g.definitions.Acyclic
  noSelfNamed : g.NoSelfNamed
  sharp : ∀ e ∈ patterns g, '#' ∉ e.name.toList

def Grammar.Opened (g : Grammar) (e : ElementPattern) : Prop :=
  ∀ c ∈ (expand (expansion g.definitions) e).elements, g.resolve.1.Visited c

section
variable {g : Grammar} (h : g.Expandable) {e : ElementPattern}
include h

theorem Grammar.Expandable.opened_start : g.Opened g.start := by
  intro c hc
  rw [← resolve_start h.freshStart h.fresh h.noSelfNamed h.acyclic] at hc
  exact visited_start (child_mem_content _ hc)

theorem Grammar.Opened.of_visited
    (hv : g.resolve.1.Visited (expand (expansion g.definitions) e)) : g.Opened e :=
  fun _ hc => hv.content (resolve_avoids h.sharp) (child_mem_content _ hc)

theorem Grammar.Opened.below (ho : g.Opened e) : ∀ x ∈ walkList e.elements,
    g.resolve.1.Visited (expand (expansion g.definitions) x) := by
  induction e using childInduction with
  | step e ih =>
    intro x hx
    obtain ⟨c, hc, hx⟩ := mem_walkList.1 hx
    have hv := ho _ (mem_elements_expand_of_child hc)
    rcases walk_eq.1 hx with rfl | hx
    · exact hv
    · exact ih c hc (.of_visited h hv) x hx

theorem Grammar.Opened.walk (ho : g.Opened e) {x : ElementPattern} (hx : x ∈ e.walk) :
    g.Opened x := by
  rcases walk_eq.1 hx with rfl | hx
  · exact ho
  · exact .of_visited h (ho.below h x hx)

theorem Grammar.Opened.body (ho : g.Opened e) {r : Reference} (hr : r ∈ e.references)
    {bodies : List ElementPattern} (hd : g.definitions.get? r.name = some bodies) :
    ∀ b ∈ bodies, g.Opened b := by
  intro b hb c hc
  obtain ⟨p, hp⟩ := mem_elements_expand_of_body h.acyclic
    (Definitions.mem_bodiesOf.2 ⟨r, hr, bodies, hd, hb⟩) hc
  exact (ho _ hp).of_withPattern

theorem Grammar.LeadsTo.opened {name : String} (hl : g.LeadsTo name)
    {bodies : List ElementPattern} (hd : g.definitions.get? name = some bodies) :
    ∀ b ∈ bodies, g.Opened b := by
  induction hl generalizing bodies with
  | start hx hr => exact (h.opened_start.walk h hx).body h hr hd
  | body _ hbodies hb hx hr ih => exact ((ih hbodies _ hb).walk h hx).body h hr hd

theorem Grammar.Reaches.visited_expand (he : g.Reaches e) :
    g.resolve.1.Visited (expand (expansion g.definitions) e) := by
  cases he with
  | start he => exact h.opened_start.below h e he
  | body hl hd hb he => exact (hl.opened h hd _ hb).below h e he

/-- **The content of an expanded element are its children**: behind the
    references left in it is nothing. -/
theorem Grammar.Expandable.contentElements_expand (e : ElementPattern) :
    contentElements g.resolve.1.definitions (expand (expansion g.definitions) e) =
      (expand (expansion g.definitions) e).elements.map fun c => (c, c.pattern) := by
  obtain ⟨table, -, -, hoverlay⟩ := resolve_stage g
  have hnothing : ∀ r ∈ (expand (expansion g.definitions) e).references,
      g.resolve.1.definitions.get? r.name = none := by
    intro r hr
    rw [hoverlay, Definitions.get?_overlay, get?_of_mem_references_expand h.acyclic e r hr]
    rfl
  rw [contentElements, List.append_right_eq_self, List.flatMap_eq_nil_iff]
  intro r hr
  rw [hnothing r hr]
  rfl

/-- **Every element pattern that the start reaches has its entity.** -/
theorem Grammar.Reaches.entityFor (he : g.Reaches e) : ∃ id, g.entityFor e =
    some (g.resolve.1.finished.built.entity g.resolve.1.definitions
      (expand (expansion g.definitions) e) id) := by
  obtain ⟨id, hid, hget⟩ := (he.visited_expand h).entity (resolve_avoids h.sharp)
  refine ⟨id, ?_⟩
  rw [Grammar.entityFor, hid]
  exact hget

end

/-- **Text and scalar types reach their use sites.**  For a grammar that was
    read, whose definitions do not depend on themselves, in which no element
    refers to its own name and none has a name with `#`, the entity of an
    element pattern that the start reaches has text if the pattern or a body
    reached from it through references alone has, and the first data type and
    the first facet found in the pattern and, in the order of the references,
    in these bodies. -/
theorem text_and_types_propagate {dialect : Option Dialect} {root : Markup.Node} {g : Grammar}
    (hread : (readGrammar dialect root).1 = .ok g) (ha : g.definitions.Acyclic)
    (hn : g.NoSelfNamed) (hsharp : ∀ e ∈ patterns g, '#' ∉ e.name.toList) {e : ElementPattern}
    (he : g.Reaches e) :
    ∃ entity, g.entityFor e = some entity ∧ entity.name = e.name ∧
      (entity.text = true ↔ g.definitions.Licenses (·.hasText = true) e) ∧
      entity.dataType = (e :: g.definitions.bodiesBelow e).findSome? (·.dataType) ∧
      entity.facet =
        Facet.proper ((e :: g.definitions.bodiesBelow e).findSome? (·.facet)) := by
  obtain ⟨hfreshStart, hfresh⟩ := readGrammar_fresh hread
  obtain ⟨id, hentity⟩ := he.entityFor ⟨hfreshStart, hfresh, ha, hn, hsharp⟩
  refine ⟨_, hentity, name_expand _ e, ?_, dataType_expand ha e, ?_⟩
  · rw [Definitions.licenses_iff ha, ← List.any_eq_true, ← hasText_expand ha]
    rfl
  · rw [← facet_expand ha]
    rfl

def priceRoot : Markup.Node :=
  plainNode "grammar"
    [plainNode "start" [namedNode "element" "price" [namedNode "ref" "amount" []]],
    namedNode "define" "amount" [namedNode "ref" "currency" [], namedNode "ref" "number" []],
    namedNode "define" "currency" [plainNode "value" [.text "EUR"]],
    namedNode "define" "number"
      [.element { name := "data", attributes := [{ name := "type", value := "decimal" }] } []]]

def pricePattern : ElementPattern where
  name := "price"
  references := [{ name := "amount" }]

def priceGrammar : Grammar where
  start := { elements := [pricePattern] }
  definitions :=
    ⟨[("amount", [{ name := "amount"
                    references := [{ name := "currency" }, { name := "number" }] }]),
      ("currency", [{ name := "currency", hasText := true, facet := some { values := ["EUR"] } }]),
      ("number", [{ name := "number", hasText := true, dataType := some .decimal }])]⟩

theorem price_typed : ∃ entity, priceGrammar.entityFor pricePattern = some entity ∧
    entity.name = "price" ∧ entity.text = true ∧ entity.dataType = some .decimal ∧
    entity.facet = some { values := ["EUR"] } := by
  have hread : (readGrammar none priceRoot).1 = .ok priceGrammar := by rfl
  have hbelow : priceGrammar.definitions.bodiesBelow pricePattern =
      priceGrammar.definitions.values.flatten := by cbv
  have ha : priceGrammar.definitions.Acyclic :=
    Definitions.acyclic_of_rank (fun name => if name = "amount" then 1 else 0) (by decide)
  have hnames : priceGrammar.NoSelfNamed ∧ ∀ e ∈ patterns priceGrammar, '#' ∉ e.name.toList := by
    unfold Grammar.NoSelfNamed
    decide
  obtain ⟨entity, hentity, hname, htext, htype, hfacet⟩ := text_and_types_propagate hread ha
    hnames.1 hnames.2 (.start (mem_walkList_of_mem (.head _)))
  refine ⟨entity, hentity, hname, htext.2 ?_, ?_, ?_⟩
  · rw [Definitions.licenses_iff ha, hbelow]
    exact ⟨_, .tail _ (.tail _ (.head _)), rfl⟩
  · rw [htype, hbelow]
    rfl
  · rw [hfacet, hbelow]
    rfl

-- with `#` in names an element may take the identifier of a numbered one, which
-- loses its entity: the second note has text
example : (Grammar.entityFor
      { start := { elements := [{ name := "note", elements := [{ name := "title" }] },
          { name := "note", hasText := true }, { name := "note#2" }] } }
      { name := "note", hasText := true }).map (fun entity => (entity.name, entity.text)) =
    some ("note#2", false) := by
  cbv

/-- A title that refers to the definition with its name. -/
def titleRoot : Markup.Node :=
  plainNode "grammar"
    [plainNode "start" [namedNode "element" "title" [namedNode "ref" "title" []]],
    namedNode "define" "title"
      [.element { name := "data", attributes := [{ name := "type", value := "int" }] } []]]

def titlePattern : ElementPattern where
  name := "title"
  references := [{ name := "title" }]

def titleGrammar : Grammar where
  start := { elements := [titlePattern] }
  definitions := ⟨[("title", [{ name := "title", hasText := true, dataType := some .int }])]⟩

/-- **An element with the name of the definition that it refers to gets nothing
    from it**, although its definition depends on nothing: a title is to have
    text of type `int`, but its entity has no text and no type. -/
theorem title_not_typed : (readGrammar none titleRoot).1 = .ok titleGrammar ∧
    titleGrammar.definitions.Acyclic ∧
    (∀ e ∈ titleGrammar.nodes, ∀ r ∈ e.references,
      (titleGrammar.definitions.get? r.name).isSome) ∧
    titleGrammar.Reaches titlePattern ∧
    titleGrammar.definitions.Licenses (·.hasText = true) titlePattern ∧
    (titleGrammar.definitions.bodiesBelow titlePattern).findSome? (·.dataType) = some .int ∧
    ∀ id entity, titleGrammar.resolve.1.build.1.elements.get? id = some entity →
      entity.name = "title" ∧ entity.text = false ∧ entity.dataType = none := by
  have hentities : titleGrammar.resolve.1.build.1.elements =
      ⟨[("title", { identifier := "title", name := "title" })]⟩ := by cbv
  refine ⟨by rfl, Definitions.acyclic_of_rank (fun _ => 0) (by decide), by decide,
    .start (mem_walkList_of_mem (.head _)), .body (.head _) rfl (.head _) (.own rfl), by cbv, ?_⟩
  intro id entity hget
  rw [hentities] at hget
  cases List.mem_singleton.1 (Table.mem_entries_of_get? hget)
  exact ⟨rfl, rfl, rfl⟩

end Bindery.Schema
