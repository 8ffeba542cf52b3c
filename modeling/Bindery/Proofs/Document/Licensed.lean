/-
  A document invents nothing.

  Every entity of the document of a grammar has only what one element pattern
  of its name licenses: the elements and attributes it is related to, and text.

  * `document_licensed`: the entities of the document have only what is
    licensed, if the names of elements contain neither `#` nor `@`;
  * `marks_not_licensed`: with `@` in names, an element may get the attribute
    of another.
-/
import Mathlib
import Bindery.Schema.Dialect
import Bindery.Proofs.Document.Entity
import Bindery.Proofs.Resolution.Licence

namespace Bindery.Schema

open ElementPattern

section
variable {g : Grammar} {o x : ElementPattern}

theorem resolve_avoids {mark : Char} (h : ∀ e ∈ patterns g, mark ∉ e.name.toList) :
    ∀ e ∈ patterns g.resolve.1, mark ∉ e.name.toList := by
  intro e he
  obtain ⟨o, ho, hs⟩ := (stems_resolve g).1 e he
  rw [hs.name]
  exact h o ho

theorem exists_stem {name : String} {b' : ElementPattern}
    (hb' : b' ∈ (g.resolve.1.definitions.get? name).getD []) :
    ∃ bodies b, g.definitions.get? name = some bodies ∧ b ∈ bodies ∧
      Stems g.definitions b b' := by
  cases hget : g.resolve.1.definitions.get? name with
  | none => simp [hget] at hb'
  | some resolved =>
    rw [hget, Option.getD_some] at hb'
    obtain ⟨bodies, hd, hall⟩ := (stems_resolve g).2 name resolved hget
    obtain ⟨b, hb, hs⟩ := hall b' hb'
    exact ⟨bodies, b, hd, hb, hs⟩

theorem licensed_content (h : Stems g.definitions o x) {c : ElementPattern} {p : Pattern}
    (hc : (c, p) ∈ contentElements g.resolve.1.definitions x) :
    g.definitions.Licenses (·.HasChild c.name) o := by
  rcases mem_contentElements.1 hc with ⟨hc, -⟩ | ⟨r, hr, b', hb', hc, -⟩
  · exact h.elements c hc
  · obtain ⟨bodies, b, hd, hb, hs⟩ := exists_stem hb'
    exact (h.references r hr).licenses.through hd hb (hs.elements c hc)

theorem offered_attribute (h : Stems g.definitions o x) {a : AttributePattern} {p : Pattern}
    (ha : (a, p) ∈ contentAttributes g.resolve.1.definitions x) :
    g.definitions.Offers o a.name p := by
  rcases mem_contentAttributes.1 ha with ⟨hm, rfl⟩ | ⟨r, hr, b', hb', hm, rfl⟩
  · exact h.attributes a hm
  · obtain ⟨bodies, b, hd, hb, hs⟩ := exists_stem hb'
    exact (h.references r hr).offers hd hb (hs.attributes a hm)

theorem Stems.relation_of_first {ds : Definitions} (h : Stems ds o x) (resolved : Definitions)
    (id : String) {before after : List AttributePattern} {a : AttributePattern}
    (ho : o.attributes = before ++ a :: after) (hfirst : ∀ b ∈ before, b.name ≠ a.name) :
    { target := id ++ "@" ++ a.name, occurs := a.pattern.occurs } ∈
      attributeRelations id (contentAttributes resolved x) := by
  obtain ⟨rest, hrest⟩ := h.own
  rw [ho, List.map_append, List.map_cons, List.append_assoc, List.cons_append] at hrest
  obtain ⟨xs, xs', hxs, hbefore, hxs'⟩ := List.map_eq_append_iff.1 hrest.symm
  obtain ⟨y, ys, rfl, hy, -⟩ := List.map_eq_cons_iff.1 hxs'
  obtain ⟨hname, hpattern⟩ := Prod.mk.inj hy
  rw [contentAttributes, hxs, List.map_append, List.map_cons, List.append_assoc, List.cons_append,
    ← hname, ← hpattern]
  refine mem_attributeRelations_of_first id (c := (y, y.pattern)) fun c hc heq => ?_
  obtain ⟨z, hz, rfl⟩ := List.mem_map.1 hc
  obtain ⟨b, hb, hheading⟩ := List.mem_map.1 (hbefore ▸ List.mem_map.2 ⟨z, hz, rfl⟩)
  exact hfirst b hb ((Prod.mk.inj hheading).1.trans (heq.trans hname))

end

/-- **A document invents nothing.**  For every entity of the document of a
    grammar there is an element pattern of the same name that licenses all it
    has: every element and every attribute that it is related to, and its text,
    if the names of elements contain neither `#` nor `@`. -/
theorem document_licensed {g : Grammar} (hsharp : ∀ e ∈ patterns g, '#' ∉ e.name.toList)
    (hat : ∀ e ∈ patterns g, '@' ∉ e.name.toList) {id : String} {entity : Element}
    (h : g.resolve.1.build.1.elements.get? id = some entity) :
    ∃ e ∈ patterns g, e.name = entity.name ∧
      (∀ r ∈ entity.elementRelations, ∃ target,
        g.resolve.1.build.1.elements.get? r.target = some target ∧
          g.definitions.Licenses (·.HasChild target.name) e) ∧
      (∀ r ∈ entity.attributeRelations, ∃ a,
        g.resolve.1.build.1.attributes.get? r.target = some a ∧
          g.definitions.Licenses (·.HasAttribute a.name) e) ∧
      (entity.text = true → g.definitions.Licenses (·.hasText = true) e) := by
  have hsharp' := resolve_avoids hsharp
  obtain ⟨x, hx, hm⟩ := mem_of_entity h
  obtain ⟨o, ho, hs⟩ := (stems_resolve g).1 x hx
  rw [(entity_of_mem hsharp' hm).2] at h
  cases h
  refine ⟨o, ho, hs.name.symm, fun r hr => ?_, fun r hr => ?_, hs.text⟩
  · obtain ⟨c, p, hc, target, hget, hname⟩ := element_of_relation hsharp' hm hr
    refine ⟨target, hget, ?_⟩
    rw [hname]
    exact licensed_content hs hc
  · obtain ⟨a, o', p, hget, ha, hname, -⟩ := attribute_of_relation (resolve_avoids hat) hm hr
    refine ⟨a, hget, ?_⟩
    rw [hname]
    exact (offered_attribute hs ha).licenses

def plainNode (tag : String) (children : List Markup.Node) : Markup.Node :=
  .element { name := tag } children

def namedNode (tag name : String) (children : List Markup.Node) : Markup.Node :=
  .element { name := tag, attributes := [{ name := "name", value := name }] } children

def sectionPattern : ElementPattern where
  name := "section"
  attributes := [{ name := "title" }]
  references := [{ name := "block" }, { name := "section", pattern := { zeroOrMore := true } }]

/-- Sections with a title, which hold a paragraph and sections. -/
def sectionsGrammar : Grammar where
  start := { references := [{ name := "section" }] }
  definitions :=
    ⟨[("section", [{ name := "section", elements := [sectionPattern] }]),
      ("block", [{ name := "block", references := [{ name := "para" }] }]),
      ("para", [{ name := "para", elements := [{ name := "para", hasText := true }] }])]⟩

theorem sectionsGrammar_avoids : (∀ e ∈ patterns sectionsGrammar, '#' ∉ e.name.toList) ∧
    ∀ e ∈ patterns sectionsGrammar, '@' ∉ e.name.toList := by
  decide

def sectionEntity : Element where
  identifier := "section"
  name := "section"
  elementRelations := [{ target := "para" },
    { target := "section", occurs := { min := 0, max := .unbounded } }]
  attributeRelations := [{ target := "section@title" }]

theorem section_licensed :
    sectionsGrammar.resolve.1.build.1.elements.get? "section" = some sectionEntity ∧
    ∃ e ∈ patterns sectionsGrammar, e.name = "section" ∧
      (∀ r ∈ sectionEntity.elementRelations, ∃ target,
        sectionsGrammar.resolve.1.build.1.elements.get? r.target = some target ∧
          sectionsGrammar.definitions.Licenses (·.HasChild target.name) e) ∧
      (∀ r ∈ sectionEntity.attributeRelations, ∃ a,
        sectionsGrammar.resolve.1.build.1.attributes.get? r.target = some a ∧
          sectionsGrammar.definitions.Licenses (·.HasAttribute a.name) e) ∧
      (sectionEntity.text = true → sectionsGrammar.definitions.Licenses (·.hasText = true) e) := by
  have hget : sectionsGrammar.resolve.1.build.1.elements.get? "section" =
      some sectionEntity := by cbv
  exact ⟨hget, document_licensed sectionsGrammar_avoids.1 sectionsGrammar_avoids.2 hget⟩

/-- Two elements whose attributes get one identifier. -/
def marksRoot : Markup.Node :=
  plainNode "grammar" [plainNode "start"
    [namedNode "element" "a" [namedNode "attribute" "b@c" []],
    namedNode "element" "a@b" [namedNode "attribute" "c" []]]]

def marksGrammar : Grammar where
  start :=
    { elements := [{ name := "a", attributes := [{ name := "b@c" }] },
        { name := "a@b", attributes := [{ name := "c" }] }] }

/-- **With `@` in names, an element may get the attribute of another**: the
    document gives the element `a@b` an attribute `b@c`, which none of the
    patterns of that name licenses. -/
theorem marks_not_licensed : (readGrammar none marksRoot).1 = .ok marksGrammar ∧
    (∀ e ∈ patterns marksGrammar, '#' ∉ e.name.toList) ∧
    ∃ entity : Element,
      marksGrammar.resolve.1.build.1.elements.get? "a@b" = some entity ∧ entity.name = "a@b" ∧
      ∃ r ∈ entity.attributeRelations, ∃ a : Attribute,
        marksGrammar.resolve.1.build.1.attributes.get? r.target = some a ∧
        ∀ e ∈ patterns marksGrammar, e.name = entity.name →
          ¬ marksGrammar.definitions.Licenses (·.HasAttribute a.name) e := by
  have helement : marksGrammar.resolve.1.build.1.elements.get? "a@b" = some
      { identifier := "a@b", name := "a@b"
        attributeRelations := [{ target := "a@b@c" }] } := by cbv
  have hattribute : marksGrammar.resolve.1.build.1.attributes.get? "a@b@c" = some
      { identifier := "a@b@c", name := "b@c" } := by cbv
  have hnames : (∀ e ∈ patterns marksGrammar, '#' ∉ e.name.toList) ∧
      ∀ e ∈ patterns marksGrammar, e.name = "a@b" →
        e.references = [] ∧ ∀ a ∈ e.attributes, a.name ≠ "b@c" := by
    decide
  refine ⟨by rfl, hnames.1, _, helement, rfl, _, List.mem_cons_self, _, hattribute, ?_⟩
  intro e he hname hl
  obtain ⟨hreferences, hattributes⟩ := hnames.2 e he hname
  cases hl with
  | own ha =>
    obtain ⟨a, ha, heq⟩ := ha
    exact hattributes a ha heq
  | body hr _ _ _ =>
    rw [hreferences] at hr
    cases hr

end Bindery.Schema
