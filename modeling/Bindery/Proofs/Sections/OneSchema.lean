/-
  The sections of a description as one schema.

  The schemas in a description are read one after the other, into one table of
  definitions.  The simple types of a section are known from its beginning on,
  so an element may use those of its own section and of earlier ones.

  * `inStep_readSchemas`: reading sections one after the other is in step with
    reading all declarations at once, if no section uses a simple type that a
    later one declares;
  * `sections_read_as_one`: then a description is read to the grammar of the one
    schema that has all the declarations;
  * `later_type_unknown`: a description where it is not.
-/
import Mathlib
import Bindery.Proofs.Resolution.Outcome
import Bindery.Proofs.Sections.InStep

namespace Bindery.Schema

open Markup (Node Head)

namespace Xsd

/-! ## Declared simple types -/

def simpleTypeNames (ns : List Node) : List String :=
  ns.filterMap fun n => if n.name = "simpleType" then n.attribute? "name" else none

/-- The table with the simple types that further nodes declare, unless one of
    these has no name. -/
def noted (nodes : Table Node) : List Node → Option (Table Node)
  | [] => some nodes
  | n :: ns =>
    if n.name = "simpleType" then
      (n.attribute? "name").bind fun name => noted (nodes.insert name n) ns
    else noted nodes ns

theorem noted_append (ns ms : List Node) : ∀ nodes : Table Node,
    noted nodes (ns ++ ms) = (noted nodes ns).bind fun nodes' => noted nodes' ms := by
  induction ns with
  | nil => exact fun _ => rfl
  | cons n ns ih =>
    intro nodes
    rw [List.cons_append, noted, noted]
    split
    · cases n.attribute? "name" with
      | none => rfl
      | some name => exact ih _
    · exact ih nodes

/-- **Noting simple types** succeeds if all of them have names, and keeps what is
    known of those resolved. -/
theorem run_noteSimpleTypes (known : Table SimpleType) : ∀ (ns : List Node) (nodes : Table Node),
    (∃ found, noted nodes ns = some found ∧
      (noteSimpleTypes ns).run { nodes, known } = pure ((), { nodes := found, known })) ∨
    (noted nodes ns = none ∧ ∃ e, (noteSimpleTypes ns).run { nodes, known } = throw e)
  | [], nodes => .inl ⟨nodes, rfl, rfl⟩
  | n :: ns, nodes => by
    rw [noted, noteSimpleTypes]
    by_cases hn : n.name = "simpleType"
    · rw [if_pos hn, if_pos hn]
      cases hname : n.attribute? "name" with
      | none =>
        refine .inr ⟨rfl, .missingAttribute n.name "name" n.pos, ?_⟩
        simp only [requiredAttribute, hname]
        rfl
      | some name =>
        simp only [requiredAttribute, hname]
        exact run_noteSimpleTypes known ns (nodes.insert name n)
    · rw [if_neg hn, if_neg hn]
      exact run_noteSimpleTypes known ns nodes

theorem get?_noted {nodes nodes' : Table Node} {ns : List Node} (h : noted nodes ns = some nodes')
    {key : String} (hk : key ∉ simpleTypeNames ns) : nodes'.get? key = nodes.get? key := by
  induction ns generalizing nodes with
  | nil =>
    cases h
    rfl
  | cons n ns ih =>
    rw [noted] at h
    split at h
    · rename_i hn
      obtain ⟨name, hname, h⟩ := Option.bind_eq_some_iff.1 h
      rw [simpleTypeNames, List.filterMap_cons, if_pos hn, hname, List.mem_cons, not_or] at hk
      rw [ih h hk.2, Table.get?_insert_of_ne _ _ hk.1]
    · rename_i hn
      rw [simpleTypeNames, List.filterMap_cons, if_neg hn] at hk
      exact ih h hk

theorem mem_of_get?_noted {nodes nodes' : Table Node} {ns : List Node}
    (h : noted nodes ns = some nodes') {key : String} {node : Node}
    (hk : nodes'.get? key = some node) : nodes.get? key = some node ∨ node ∈ ns := by
  induction ns generalizing nodes with
  | nil =>
    cases h
    exact .inl hk
  | cons n ns ih =>
    rw [noted] at h
    split at h
    · obtain ⟨name, -, h⟩ := Option.bind_eq_some_iff.1 h
      rcases ih h with hget | hmem
      · rcases Table.get?_insert_cases hget with ⟨-, rfl⟩ | ⟨-, hget⟩
        · exact .inr List.mem_cons_self
        · exact .inl hget
      · exact .inr (List.mem_cons_of_mem _ hmem)
    · exact (ih h).imp_right (List.mem_cons_of_mem _)

/-- Whether the second table is the first without places. -/
def Unplaced (nodes nodes' : Table Node) : Prop :=
  ∀ key, nodes'.get? key = (nodes.get? key).map Node.unplaced

theorem exists_unplaced (nodes : Table Node) : ∃ nodes', Unplaced nodes nodes' :=
  ⟨⟨nodes.entries.map fun entry => (entry.1, entry.2.unplaced)⟩,
    fun key => Table.get?_map (fun _ node => node.unplaced) key nodes.entries⟩

theorem noted_unplaced (ns : List Node) : ∀ {nodes nodes' : Table Node}, Unplaced nodes nodes' →
    (noted nodes ns = none ∧ noted nodes' (ns.map Node.unplaced) = none) ∨
    ∃ full full', noted nodes ns = some full ∧
      noted nodes' (ns.map Node.unplaced) = some full' ∧ Unplaced full full' := by
  induction ns with
  | nil => exact fun {nodes nodes'} h => .inr ⟨nodes, nodes', rfl, rfl, h⟩
  | cons n ns ih =>
    intro nodes nodes' h
    simp only [List.map_cons, noted, Node.name_unplaced, Node.attribute?_unplaced]
    split
    · cases n.attribute? "name" with
      | none => exact .inl ⟨rfl, rfl⟩
      | some name =>
        refine ih fun key => ?_
        by_cases hk : key = name
        · rw [hk, Table.get?_insert_self, Table.get?_insert_self]
          rfl
        · rw [Table.get?_insert_of_ne _ _ hk, Table.get?_insert_of_ne _ _ hk, h key]
    · exact ih h

/-! ## Sections -/

theorem readGlobals_append (ns ms : List Node) : ∀ start : ElementPattern,
    readGlobals start (ns ++ ms) = readGlobals start ns >>= fun start => readGlobals start ms := by
  induction ns with
  | nil =>
    intro start
    rw [List.nil_append, readGlobals, pure_bind]
  | cons n ns ih =>
    intro start
    rw [List.cons_append, readGlobals, readGlobals, bind_assoc]
    exact bind_congr ih

theorem readSchema_eq (start : ElementPattern) (schema : Node) : readSchema start schema =
    noteSimpleTypes schema.elements >>= fun _ => readGlobals start schema.elements := by
  rw [readSchema, ← noteSimpleTypes_filter, ← readGlobals_filter]
  rfl

/-- Whether no section uses a simple type that a later section declares. -/
def InOrder (schemas : List Node) : Prop :=
  schemas.Pairwise fun s t => ∀ name ∈ typeNamesAll s.elements, name ∉ simpleTypeNames t.elements

theorem simpleTypeNames_append (ns ms : List Node) :
    simpleTypeNames (ns ++ ms) = simpleTypeNames ns ++ simpleTypeNames ms :=
  List.filterMap_append

theorem not_mem_later {schema : Node} {later : List Node} (horder : InOrder (schema :: later))
    {name : String} (hname : name ∈ typeNamesAll schema.elements) :
    name ∉ simpleTypeNames (later.flatMap (·.elements)) := by
  intro hmem
  obtain ⟨n, hn, hdeclared⟩ := List.mem_filterMap.1 hmem
  obtain ⟨s, hs, hn⟩ := List.mem_flatMap.1 hn
  exact (List.pairwise_cons.1 horder).1 s hs name hname (List.mem_filterMap.2 ⟨n, hn, hdeclared⟩)

section
variable {schema : Node} {later : List Node} {nodes found full nodes' : Table Node}

theorem typeNames_not_later (horder : InOrder (schema :: later))
    (hfound : noted nodes schema.elements = some found)
    (hold : ∀ key node, nodes.get? key = some node → ∀ name ∈ typeNames node,
      name ∉ simpleTypeNames ((schema :: later).flatMap (·.elements))) :
    ∀ key node, found.get? key = some node → ∀ name ∈ typeNames node,
      name ∉ simpleTypeNames (later.flatMap (·.elements)) := by
  intro key node hnode name hname
  rcases mem_of_get?_noted hfound hnode with hnode | hnode
  · have hnot := hold key node hnode name hname
    rw [List.flatMap_cons, simpleTypeNames_append, List.mem_append, not_or] at hnot
    exact hnot.2
  · exact not_mem_later horder (mem_typeNamesAll.2 ⟨node, hnode, hname⟩)

theorem run_readSchemas_cons (hfound : noted nodes schema.elements = some found)
    (start : ElementPattern) (known : Table SimpleType) :
    (readSchemas start (schema :: later)).run { nodes, known } =
      (readGlobals start schema.elements >>= fun start => readSchemas start later).run
        { nodes := found, known } := by
  rw [readSchemas, readSchema_eq, bind_assoc, StateT.run_bind]
  rcases run_noteSimpleTypes known schema.elements nodes with ⟨found', hnoted, hrun⟩ | ⟨hnone, -⟩
  · rw [hfound] at hnoted
    cases hnoted
    rw [hrun, pure_bind]
  · rw [hfound] at hnone
    cases hnone

end

/-- **Sections are read in step with all their declarations at once**, if they
    are in order: when a section is read, the table at hand and the full one
    agree in the names that the section uses. -/
theorem inStep_readSchemas (schemas : List Node) : ∀ {nodes full nodes' : Table Node}
    (start : ElementPattern) (known : Table SimpleType), InOrder schemas →
    noted nodes (schemas.flatMap (·.elements)) = some full → Unplaced full nodes' →
    (∀ key node, nodes.get? key = some node → ∀ name ∈ typeNames node,
      name ∉ simpleTypeNames (schemas.flatMap (·.elements))) →
    ReadM.InStep Reading.Same (fun a b => b.1 = a.1)
      ((readSchemas start schemas).run { nodes, known })
      ((readGlobals start ((schemas.flatMap (·.elements)).map Node.unplaced)).run
        { nodes := nodes', known }) := by
  induction schemas with
  | nil =>
    intro nodes full nodes' start known _ _ _ _
    exact .pure rfl
  | cons schema later ih =>
    intro nodes full nodes' start known horder hfull hplain hold
    rw [List.flatMap_cons, noted_append, Option.bind_eq_some_iff] at hfull
    obtain ⟨found, hfound, hfull⟩ := hfull
    have hnow := typeNames_not_later horder hfound hold
    have hagree : Agreeing (· ∉ simpleTypeNames (later.flatMap (·.elements))) found nodes' :=
      { get := fun key hk => by rw [hplain key, get?_noted hfull hk]
        closed := fun key node _ hnode => hnow key node hnode }
    have hglobals := inStep_readGlobals (resolves_of_agreeing hagree) schema.elements start
      fun key hk => not_mem_later horder hk
    rw [run_readSchemas_cons hfound, List.flatMap_cons, List.map_append, readGlobals_append]
    refine ReadM.InStep.bind (hglobals _ _ ⟨rfl, rfl, rfl⟩) ?_
    rintro ⟨a, _, _⟩ ⟨b, _, known'⟩ ⟨rfl, rfl, rfl, rfl⟩
    exact ih _ known' (List.pairwise_cons.1 horder).2 hfull hplain hnow

theorem readSchemas_fails (schemas : List Node) : ∀ {nodes : Table Node} (start : ElementPattern)
    (known : Table SimpleType) (r : Reading),
    noted nodes (schemas.flatMap (·.elements)) = none →
    ∃ e r', ((readSchemas start schemas).run { nodes, known }).run r = (.error e, r') := by
  induction schemas with
  | nil =>
    intro nodes start known r hnone
    cases hnone
  | cons schema later ih =>
    intro nodes start known r hnone
    rw [List.flatMap_cons, noted_append] at hnone
    cases hfound : noted nodes schema.elements with
    | none =>
      rcases run_noteSimpleTypes known schema.elements nodes with ⟨found, hnoted, -⟩ | ⟨-, e, hrun⟩
      · rw [hfound] at hnoted
        cases hnoted
      · refine ⟨e, r, ?_⟩
        rw [readSchemas, readSchema_eq, bind_assoc, StateT.run_bind, hrun]
        rfl
    | some found =>
      rw [hfound] at hnone
      -- reading the section keeps the table, as it does without places
      obtain ⟨nodes', hplain⟩ := exists_unplaced found
      have hagree : Agreeing (fun _ => True) found nodes' :=
        { get := fun key _ => hplain key, closed := fun _ _ _ _ _ _ => trivial }
      have hkeeps := inStep_readGlobals (resolves_of_agreeing hagree) schema.elements start
        fun _ _ => trivial
      rw [run_readSchemas_cons hfound, StateT.run_bind, ReadM.run_bind]
      rcases hkeeps { nodes := found, known } { nodes := nodes', known } ⟨rfl, rfl, rfl⟩ r r
        ⟨rfl, rfl⟩ with
        ⟨⟨a, _, known'⟩, -, r', -, hrun, -, ⟨-, rfl, -, -⟩, -⟩ | ⟨e, -, r', -, hrun, -⟩
      · rw [hrun]
        exact ih a known' r' hnone
      · rw [hrun]
        exact ⟨e, r', rfl⟩

end Xsd

/-! ## Descriptions and schemas -/

/-- **What schemas in order are read to** depends on their declarations only. -/
theorem Xsd.readSchemas_grammar? {schemas : List Node} (horder : InOrder schemas) :
    ((readSchemas {} schemas).run' {}).grammar? =
      (noted {} ((schemas.flatMap (·.elements)).map Node.unplaced)).bind fun nodes =>
        ((readGlobals {} ((schemas.flatMap (·.elements)).map Node.unplaced)).run'
          { nodes }).grammar? := by
  have hempty : Unplaced {} {} := fun _ => rfl
  rcases noted_unplaced (schemas.flatMap (·.elements)) hempty with
    ⟨hnone, hnone'⟩ | ⟨full, full', hfull, hfull', hplain⟩
  · obtain ⟨e, r, hrun⟩ := readSchemas_fails schemas {} {} {} hnone
    have hfails : ((readSchemas {} schemas).run' {}).run {} = (.error e, r) := by
      show ((readSchemas {} schemas).run {} >>= fun found => pure found.1 : ReadM _).run {} = _
      rw [ReadM.run_bind, hrun]
    rw [hnone', ReadM.grammar?, hfails]
    rfl
  · rw [hfull']
    have hin := inStep_readSchemas schemas {} {} horder hfull hplain (fun _ _ h => by cases h)
    refine ReadM.InStep.grammar?_eq_of_same (.bind hin ?_)
    intro a b heq
    exact .pure heq.symm

/-- **The sections of a description form one schema.**  Take a schema with the
    declarations of all sections, in the order of the sections and in any place,
    and suppose that no section uses a simple type that a later one declares.
    The description is read to a grammar if and only if the schema is, and then
    both have the same start and the same definitions. -/
theorem sections_read_as_one {description schema : Node}
    (hsame : schema.elements.map Node.unplaced =
      ((Xsd.sections description).flatMap (·.elements)).map Node.unplaced)
    (horder : Xsd.InOrder (Xsd.sections description)) :
    (readGrammar (some .wsdl) description).1.toOption =
      (readGrammar (some .xsd) schema).1.toOption := by
  have hone : Xsd.InOrder [schema] := List.pairwise_singleton _ _
  have hschema := Xsd.readSchemas_grammar? hone
  rw [List.flatMap_singleton, hsame] at hschema
  rw [readGrammar_toOption, readGrammar_toOption]
  exact (Xsd.readSchemas_grammar? horder).trans hschema.symm

def xsNode (tag : String) (attributes : List (String × String)) (children : List Node) : Node :=
  .element { name := tag, scope := [{ label := some "xs", uri := xsUri }]
             attributes := attributes.map fun a => { name := a.1, value := a.2 } } children

def describing (schemas : List (List Node)) : Node :=
  xsNode "definitions" [] (schemas.map fun declarations =>
    xsNode "types" [] [xsNode "schema" [] declarations])

def codeNode : Node :=
  xsNode "simpleType" [("name", "Code")] [xsNode "restriction" [("base", "xs:string")]
    [xsNode "enumeration" [("value", "A")] [], xsNode "enumeration" [("value", "B")] []]]

def shipmentNode : Node :=
  xsNode "element" [("name", "shipment"), ("type", "Parcel")] []

def parcelNode : Node :=
  xsNode "complexType" [("name", "Parcel")]
    [xsNode "attribute" [("name", "code"), ("type", "Code")] []]

theorem shipment_read_as_one :
    (readGrammar (some .wsdl) (describing [[codeNode, shipmentNode], [parcelNode]])).1.toOption =
      (readGrammar (some .xsd)
        (xsNode "schema" [] [codeNode, shipmentNode, parcelNode])).1.toOption ∧
    (readGrammar (some .xsd)
      (xsNode "schema" [] [codeNode, shipmentNode, parcelNode])).1.toOption.isSome = true := by
  refine ⟨sections_read_as_one (by rfl) ?_, by decide +kernel⟩
  unfold Xsd.InOrder
  decide +kernel

def labelNode : Node :=
  xsNode "element" [("name", "label"), ("type", "Code")] []

/-- The start and the definitions of the grammar that is read. -/
def grammarParts (dialect : Dialect) (root : Node) :
    Option (ElementPattern × List (String × List ElementPattern)) :=
  (readGrammar (some dialect) root).1.toOption.map fun g => (g.start, g.definitions.entries)

/-- **A simple type is unknown to earlier sections**: a label is read to an
    element that refers to a complex type of that name, which nothing
    declares, and in the one schema to an element with the text of a code. -/
theorem later_type_unknown :
    grammarParts .wsdl (describing [[labelNode], [codeNode]]) =
      some ({ references := [{ name := "label" }] }, [("label", [{ name := "label", elements :=
        [{ name := "label", references := [{ name := "type:Code" }] }] }])]) ∧
    grammarParts .xsd (xsNode "schema" [] [labelNode, codeNode]) =
      some ({ references := [{ name := "label" }] }, [("label", [{ name := "label", elements :=
        [{ name := "label", hasText := true, dataType := some .string,
           facet := some { values := ["A", "B"] } }] }])]) := by
  decide +kernel

end Bindery.Schema
