/-
  The grammar languages agree.

  A declaration is read from RelaxNG to a start that holds its element, and from
  XML Schema to a start that refers to it.  Resolving takes the reference away
  (`resolve_reference`), and what is left does not depend on definitions
  (`build_plain`), so that the documents are equal.

  The readers differ in one thing: that of RelaxNG takes blanks from the ends of
  names.  A name may end with a blank, since the Ogham space mark is a name
  character, and then the documents differ (`ogham_disagree`).
-/
import Mathlib
import Bindery.Proofs.Declaration.RelaxNg
import Bindery.Proofs.Declaration.Xsd
import Bindery.Proofs.Document.Congruence

namespace Bindery.Schema

open Markup (Node)

/-! ## Patterns without references -/

theorem sameContentIn_of_references {x : ElementPattern} (h : x.references = [])
    (ds ds' : Definitions) : SameContentIn ds ds' x := by
  simp [SameContentIn, contentElements, contentAttributes, h]

theorem mem_contentElements_plain {ds : Definitions} {x c : ElementPattern} {p : Pattern}
    (hx : x.Plain) (h : (c, p) ∈ contentElements ds x) : c.Plain := by
  obtain ⟨⟨hreferences, -⟩, hchildren⟩ := ElementPattern.plain_iff.1 hx
  simp only [contentElements, hreferences, List.flatMap_nil, List.append_nil, List.mem_map,
    Prod.mk.injEq] at h
  obtain ⟨c', hc, rfl, -⟩ := h
  exact hchildren c' hc

theorem Grammar.Reached.plain {g : Grammar} (hstart : g.start.Plain) {x : ElementPattern}
    (h : g.Reached x) : x.Plain := by
  induction h with
  | start hc => exact mem_contentElements_plain hstart hc
  | content _ hc ih => exact mem_contentElements_plain ih hc

/-- **The document of a start without references** does not depend on the
    definitions. -/
theorem build_plain {g g' : Grammar} (hstart : g.start = g'.start) (hplain : g.start.Plain) :
    g.build.1 = g'.build.1 := by
  have hreferences := (ElementPattern.plain_iff.1 hplain).1.1
  refine build_congr ?_ fun x hx => ?_
  · rw [← hstart]
    exact (sameContentIn_of_references hreferences _ _).1
  · have hx' := ElementPattern.plain_iff.1 (hx.plain hplain)
    exact sameContentIn_of_references hx'.1.1 _ _

/-! ## Resolving -/

theorem start_resolve (g : Grammar) :
    g.resolve.1.start = (substitute (lookupIn g.definitions []) g.start {}).1 := rfl

theorem resolve_plain {g : Grammar} (h : g.start.Plain) : g.resolve.1.start = g.start := by
  rw [start_resolve, substitute_settled g.start h.settled]

theorem lookupIn_settled {ds : Definitions} {name : String} {bodies : List ElementPattern}
    (hget : ds.get? name = some bodies) (hsettled : ∀ body ∈ bodies, body.Settled) :
    (lookupIn ds [] name {}).1 = .resolved bodies := by
  rcases lookupIn_cases ds [] name {} with ⟨done, hdone, -⟩ | ⟨-, hpath, -⟩ | ⟨-, -, hnone, -⟩ |
    ⟨-, -, found, hfound, heq⟩
  · cases hdone
  · cases hpath
  · rw [hget] at hnone
    cases hnone
  · rw [hget] at hfound
    cases hfound
    rw [heq, substituteAll_fixed fun body hbody => substitute_settled body (hsettled body hbody)]

/-- **A start that refers to a definition of one element** is resolved to that
    element. -/
theorem resolve_reference {name : String} (hname : name ≠ "") {e : ElementPattern}
    (hplain : e.Plain) (hpattern : e.pattern = {}) :
    (Grammar.mk { references := [{ name }] }
      (Definitions.add {} name { name, elements := [e] })).resolve.1.start =
      { elements := [e] } := by
  have hbody : ElementPattern.Settled { name, elements := [e] } := by
    refine ElementPattern.settled_iff.2 ⟨⟨by simp, by simp⟩, fun c hc => ?_⟩
    rw [List.mem_singleton.1 hc]
    exact hplain.settled
  have hget : (Definitions.add {} name { name, elements := [e] }).get? name =
      some [{ name, elements := [e] }] := Table.get?_insert_self _ _ _
  have hlookup := lookupIn_settled hget fun body hm => List.mem_singleton.1 hm ▸ hbody
  have hmerged : { e with pattern := e.pattern.merge {} } = e := by
    rw [hpattern]
    cases e
    cases hpattern
    rfl
  obtain ⟨grown, s, heq, ⟨hkept | hkept, -⟩ | ⟨-, -, -, hgrown⟩⟩ :=
    expandReferences_cons (lookupIn (Definitions.add {} name { name, elements := [e] }) []) "" {}
      { name } [] {}
  · exact absurd hkept hname
  · cases hkept
  · rcases hgrown with ⟨bodies, hbodies, rfl⟩ | ⟨hother, -⟩
    · rw [hlookup] at hbodies
      cases hbodies
      have hgrown : [{ name, elements := [e] }].foldl (inlineBody {}) {} =
          { elements := [e] } := by simp [inlineBody, hmerged]
      rw [start_resolve, substitute_run]
      dsimp only
      rw [heq, hgrown]
      rfl
    · rw [hlookup] at hother
      rcases hother with hother | hother <;> cases hother

/-! ## Agreement -/

theorem readSchema_eq {n : Node} {g : Grammar} (h : (readGrammar none n).1 = .ok g) :
    (readSchema none n).1 = .ok g.resolve.1.build.1 := by
  rcases hread : readGrammar none n with ⟨result, notices⟩
  rw [hread] at h
  cases h
  simp only [readSchema, hread, buildDocument, validate_build]

def Declaration.start (d : Declaration) : ElementPattern := { elements := [(d.element {} 0).1] }

def Declaration.document (d : Declaration) : Document := (Grammar.mk d.start {}).build.1

theorem Declaration.plain_start (d : Declaration) : d.start.Plain := by
  refine ElementPattern.plain_iff.2 ⟨⟨rfl, by simp [Declaration.start]⟩, fun c hc => ?_⟩
  rw [List.mem_singleton.1 hc]
  exact d.plain_element {} 0

theorem readSchema_relaxNg {d : Declaration} (hsolid : ∀ name ∈ d.names, name.Solid)
    {n : Node} (hn : RelaxNg.vocabulary.Spells d.relaxNg n) :
    (readSchema none n).1 = .ok d.document := by
  have hresolve := resolve_plain (g := Grammar.mk d.start {}) d.plain_start
  rw [readSchema_eq (RelaxNg.readGrammar_spelled hsolid hn)]
  exact congrArg Except.ok (build_plain hresolve (hresolve ▸ d.plain_start))

theorem readSchema_schema {d : Declaration} {label : LocalName} {n : Node}
    (hn : (Xsd.vocabulary label).Spells (d.schema label) n) :
    (readSchema none n).1 = .ok d.document := by
  have hresolve := resolve_reference d.name.text_ne_empty (d.plain_element {} 0)
    (d.pattern_element {} 0)
  rw [readSchema_eq (Xsd.readGrammar_spelled hn)]
  exact congrArg Except.ok (build_plain hresolve (hresolve ▸ d.plain_start))

/-- **The grammar languages agree.**  Take any declaration of an element, with
    attributes that are required or optional and have a datatype, and either a
    datatype or a sequence of items, which are elements or choices that occur
    once, at most once, any number of times or at least once.  A document that
    spells it as an element pattern of RelaxNG, and one that spells it as the
    global element of a schema, with any prefix for XML Schema, are read to the
    same document, if no name begins or ends with the Ogham space mark. -/
theorem languages_agree (d : Declaration) (hsolid : ∀ name ∈ d.names, name.Solid)
    {label : LocalName} {n m : Node} (hn : RelaxNg.vocabulary.Spells d.relaxNg n)
    (hm : (Xsd.vocabulary label).Spells (d.schema label) m) :
    ∃ document, (readSchema none n).1 = .ok document ∧ (readSchema none m).1 = .ok document :=
  ⟨d.document, readSchema_relaxNg hsolid hn, readSchema_schema hm⟩

/-! ## Documents that spell declarations -/

def plainElement (space : String) (scope : List Markup.Binding) (tag : String)
    (attributes : List (String × String)) (children : List Node) : Node :=
  .element { space := some space, name := tag, scope
             attributes := attributes.map fun a => { name := a.1, value := a.2 } } children

theorem attribute?_plainElement (space : String) (scope : List Markup.Binding) (tag key : String)
    (attributes : List (String × String)) (children : List Node) :
    (plainElement space scope tag attributes children).attribute? key = attributes.lookup key := by
  simp only [plainElement, Node.attribute?, Node.attributes]
  induction attributes with
  | nil => rfl
  | cons a attributes ih =>
    rw [List.map_cons, List.lookup_cons]
    by_cases h : a.1 = key
    · simp [h]
    · have hne : (key == a.1) = false := beq_false_of_ne (Ne.symm h)
      rw [List.find?_cons_of_neg (by simpa using h), ih, hne]

def relaxNgNode : String → List (String × String) → List Node → Node :=
  plainElement RelaxNg.uri []

def schemaNode : String → List (String × String) → List Node → Node :=
  plainElement xsUri [{ label := some "xs", uri := xsUri }]

def xsLabel : LocalName := ⟨"xs", by decide⟩

@[simp]
theorem spells_relaxNgNode {tag : String} {attributes : List (String × String)}
    {content : List Markup.Content} {children : List Node} :
    RelaxNg.vocabulary.Spells (.element tag attributes content)
      (relaxNgNode tag attributes children) ↔
      RelaxNg.vocabulary.SpellsAll content (children.filter (·.isElement)) := by
  have hkeys := fun key => attribute?_plainElement RelaxNg.uri [] tag key attributes children
  simp only [relaxNgNode, plainElement, Vocabulary.Spells] at hkeys ⊢
  simp [hkeys, RelaxNg.vocabulary]

@[simp]
theorem spells_schemaNode {tag : String} {attributes : List (String × String)}
    {content : List Markup.Content} {children : List Node} :
    (Xsd.vocabulary xsLabel).Spells (.element tag attributes content)
      (schemaNode tag attributes children) ↔
      (Xsd.vocabulary xsLabel).SpellsAll content (children.filter (·.isElement)) := by
  have hkeys := fun key => attribute?_plainElement xsUri [{ label := some "xs", uri := xsUri }] tag
    key attributes children
  simp only [schemaNode, plainElement, Vocabulary.Spells] at hkeys ⊢
  simp [hkeys, Xsd.vocabulary, xsLabel]

def stringType : TypeName := ⟨⟨"string", by decide⟩, by decide⟩

def bookDeclaration : Declaration :=
  .record ⟨"book", by decide⟩ [⟨⟨"isbn", by decide⟩, true, stringType⟩]
    [.child .once (.scalar ⟨"title", by decide⟩ [] stringType),
      .child .zeroOrMore (.scalar ⟨"author", by decide⟩ [] stringType),
      .choice .optional [
        .child .once (.scalar ⟨"year", by decide⟩ [] ⟨⟨"integer", by decide⟩, by decide⟩),
        .child .oneOrMore (.scalar ⟨"remark", by decide⟩
          [⟨⟨"lang", by decide⟩, false, ⟨⟨"language", by decide⟩, by decide⟩⟩] stringType)]]

def bookPattern : Node :=
  relaxNgNode "element" [("name", "book")] [
    .text "\n  ",
    relaxNgNode "attribute" [("name", "isbn")] [relaxNgNode "data" [("type", "string")] []],
    relaxNgNode "element" [("name", "title")] [relaxNgNode "data" [("type", "string")] []],
    relaxNgNode "zeroOrMore" [] [
      relaxNgNode "element" [("name", "author")] [relaxNgNode "data" [("type", "string")] []]],
    relaxNgNode "optional" [] [relaxNgNode "choice" [] [
      relaxNgNode "element" [("name", "year")] [relaxNgNode "data" [("type", "integer")] []],
      relaxNgNode "oneOrMore" [] [relaxNgNode "element" [("name", "remark")] [
        relaxNgNode "optional" [] [relaxNgNode "attribute" [("name", "lang")]
          [relaxNgNode "data" [("type", "language")] []]],
        relaxNgNode "data" [("type", "string")] []]]]]]

def bookSchema : Node :=
  schemaNode "schema" [] [
    .comment "books",
    schemaNode "element" [("name", "book")] [schemaNode "complexType" [] [
      schemaNode "sequence" [] [
        schemaNode "element" [("name", "title"), ("type", "xs:string")] [],
        schemaNode "element" [("name", "author"), ("type", "xs:string"), ("minOccurs", "0"),
          ("maxOccurs", "unbounded")] [],
        schemaNode "choice" [("minOccurs", "0")] [
          schemaNode "element" [("name", "year"), ("type", "xs:integer")] [],
          schemaNode "element" [("name", "remark"), ("maxOccurs", "unbounded")] [
            schemaNode "complexType" [] [schemaNode "simpleContent" [] [
              schemaNode "extension" [("base", "xs:string")] [
                schemaNode "attribute" [("name", "lang"), ("type", "xs:language")] []]]]]]],
      schemaNode "attribute" [("name", "isbn"), ("type", "xs:string"), ("use", "required")] []]]]

theorem spells_bookPattern : RelaxNg.vocabulary.Spells bookDeclaration.relaxNg bookPattern := by
  have helement : ∀ tag attributes children,
      (relaxNgNode tag attributes children).isElement = true := fun _ _ _ => rfl
  have htext : ∀ s, (Node.text s).isElement = false := fun _ => rfl
  simp [bookDeclaration, bookPattern, Declaration.relaxNg, Item.relaxNg, Item.relaxNgAll,
    AttributeDeclaration.relaxNg, AttributeDeclaration.multiplicity, TypeName.relaxNg, stringType,
    Multiplicity.wrap, Vocabulary.SpellsAll, helement, htext]

theorem spells_bookSchema :
    (Xsd.vocabulary xsLabel).Spells (bookDeclaration.schema xsLabel) bookSchema := by
  have helement : ∀ tag attributes children,
      (schemaNode tag attributes children).isElement = true := fun _ _ _ => rfl
  have hcomment : ∀ s, (Node.comment s).isElement = false := fun _ => rfl
  have hlabel : xsLabel.text = "xs" := rfl
  simp [bookDeclaration, bookSchema, Declaration.schema, Declaration.xsd, Item.xsd, Item.xsdAll,
    AttributeDeclaration.xsd, TypeName.qualified, stringType, Multiplicity.bounds,
    simpleContentType, Vocabulary.SpellsAll, helement, hcomment, hlabel]

theorem book_agrees : (∀ name ∈ bookDeclaration.names, name.Solid) ∧
    ∃ document, (readSchema none bookPattern).1 = .ok document ∧
      (readSchema none bookSchema).1 = .ok document := by
  have hsolid : ∀ name ∈ bookDeclaration.names, name.Solid := by
    simp only [LocalName.Solid]
    decide
  exact ⟨hsolid, languages_agree bookDeclaration hsolid spells_bookPattern spells_bookSchema⟩

/-- An element whose name ends with the Ogham space mark. -/
def oghamDeclaration : Declaration := .scalar ⟨"a\u1680", by decide⟩ [] stringType

def oghamPattern : Node :=
  relaxNgNode "element" [("name", "a\u1680")] [relaxNgNode "data" [("type", "string")] []]

def oghamSchema : Node :=
  schemaNode "schema" [] [schemaNode "element" [("name", "a\u1680"), ("type", "xs:string")] []]

theorem spells_oghamSchema :
    (Xsd.vocabulary xsLabel).Spells (oghamDeclaration.schema xsLabel) oghamSchema := by
  have helement : ∀ tag attributes children,
      (schemaNode tag attributes children).isElement = true := fun _ _ _ => rfl
  have hlabel : xsLabel.text = "xs" := rfl
  simp [oghamDeclaration, oghamSchema, Declaration.schema, Declaration.xsd, TypeName.qualified,
    stringType, Multiplicity.bounds, Vocabulary.SpellsAll, helement, hlabel]

/-- **A name that ends with a blank is read in two ways**: RelaxNG takes the
    blank away, XML Schema keeps it. -/
theorem ogham_disagree : RelaxNg.vocabulary.Spells oghamDeclaration.relaxNg oghamPattern ∧
    (Xsd.vocabulary xsLabel).Spells (oghamDeclaration.schema xsLabel) oghamSchema ∧
    ∃ document document', (readSchema none oghamPattern).1 = .ok document ∧
      (readSchema none oghamSchema).1 = .ok document' ∧
      document.roots = ["a"] ∧ document'.roots = ["a\u1680"] := by
  have helement : ∀ tag attributes children,
      (relaxNgNode tag attributes children).isElement = true := fun _ _ _ => rfl
  have hpattern : RelaxNg.vocabulary.Spells oghamDeclaration.relaxNg oghamPattern := by
    simp [oghamDeclaration, oghamPattern, Declaration.relaxNg, TypeName.relaxNg, stringType,
      Vocabulary.SpellsAll, helement]
  have hgrammar : (readGrammar none oghamPattern).1 = .ok
      { start := { elements := [{ name := "a", hasText := true, dataType := some .string }] } } := by
    rfl
  have hstart : oghamDeclaration.start =
      { elements := [{ name := "a\u1680", hasText := true, dataType := some .string }] } := by
    simp only [Declaration.start, oghamDeclaration, Declaration.element]
    rfl
  refine ⟨hpattern, spells_oghamSchema, _, _, readSchema_eq hgrammar,
    readSchema_schema spells_oghamSchema, ?_, ?_⟩
  · cbv
  · rw [Declaration.document, hstart]
    cbv

end Bindery.Schema
