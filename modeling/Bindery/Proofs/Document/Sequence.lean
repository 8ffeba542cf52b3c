/-
  The order of child elements.

  In a grammar whose contents are plain sequences of elements, references and
  text, an element pattern keeps its elements and its references in two lists,
  each in the order of the nodes it was read from.  What references stand for
  is appended, so the relations of an entity follow the sequences from left to
  right with the references of each moved behind its elements.

  * `LeftToRight`: the child elements of a sequence, with the content of its
    definition in the place of each reference;
  * `relations_elements_first`: relations are in the order of the sequences, with
    elements first;
  * `letter_not_in_order`: they are not in the order of the sequences as they
    are.
-/
import Mathlib
import Bindery.Proofs.Document.Propagation

namespace Bindery.Schema

/-- **The relations of an entity are in the order of the expanded element**, if
    its children have different names. -/
theorem relations_expand {g : Grammar} (h : g.Expandable) {e : ElementPattern}
    (he : g.Reaches e)
    (hnodup : ((expand (expansion g.definitions) e).elements.map (·.name)).Nodup) :
    ∃ entity, g.entityFor e = some entity ∧ entity.name = e.name ∧
      entity.elementRelations.map
          (fun r => (g.resolve.1.build.1.elements.get? r.target).map (·.name)) =
        (expand (expansion g.definitions) e).elements.map (fun c => some c.name) := by
  have hvisited := he.visited_expand h
  obtain ⟨id, hentity⟩ := he.entityFor h
  refine ⟨_, hentity, name_expand _ e, ?_⟩
  let identifier (c : ElementPattern) : String :=
    (g.resolve.1.finished.built.identifier? c).getD c.name
  let nameOf (target : String) : Option String :=
    (g.resolve.1.build.1.elements.get? target).map (·.name)
  have hnames : ((expand (expansion g.definitions) e).elements.map identifier).map nameOf =
      (expand (expansion g.definitions) e).elements.map fun c => some c.name := by
    rw [List.map_map]
    refine List.map_congr_left fun c hc => ?_
    obtain ⟨target, hget, hname⟩ := hvisited.target (resolve_avoids h.sharp)
      (child_mem_content _ hc)
    simp only [Function.comp_apply, nameOf, identifier, hget, Option.map_some, hname]
  -- different names have different identifiers, so that no two relations are one
  have hdistinct : ((expand (expansion g.definitions) e).elements.map identifier).Nodup := by
    refine List.Nodup.of_map nameOf ?_
    rw [hnames]
    simpa [Function.comp_def] using hnodup.map (Option.some_injective String)
  have htargets : (g.resolve.1.finished.built.entity g.resolve.1.definitions
      (expand (expansion g.definitions) e) id).elementRelations.map (·.target) =
      (expand (expansion g.definitions) e).elements.map identifier := by
    rw [Built.entity, elementRelations_targets, h.contentElements_expand, List.map_map,
      List.map_map]
    exact distinct_of_nodup hdistinct
  rw [← hnames, ← htargets, List.map_map]
  rfl

namespace RelaxNg

open Markup (Node)

/-! ## Plain sequences -/

inductive Item where
  | element (name : String) (content : List Item)
  | ref (name : String)
  | text

namespace Item

def child? : Item → Option String
  | element name _ => some name
  | ref _ => none
  | text => none

def ref? : Item → Option String
  | element _ _ => none
  | ref name => some name
  | text => none

end Item

/-- Whether nodes are a plain sequence of the items.  Nodes that are not
    elements are white space or comments. -/
inductive IsSequence : List Node → List Item → Prop
  | nil : IsSequence [] []
  | element {head children ns name content items} : Construct.ofHead head = .element →
      patternName (.element head children) = .ok name → IsSequence children content →
      IsSequence ns items →
      IsSequence (.element head children :: ns) (.element name content :: items)
  | ref {head children ns name items} : Construct.ofHead head = .ref →
      requiredAttribute (.element head children) "name" = .ok name → IsSequence ns items →
      IsSequence (.element head children :: ns) (.ref name :: items)
  | text {head children ns items} : Construct.ofHead head = .text → IsSequence ns items →
      IsSequence (.element head children :: ns) (.text :: items)
  | skip {n ns items} : n.isElement = false → IsSequence ns items → IsSequence (n :: ns) items

/-- Whether nodes are the parts of a grammar whose start and definitions are
    plain sequences, each name being defined once. -/
inductive IsOutline : List Node → List (String × List Item) → Prop
  | nil : IsOutline [] []
  | start {head children ns items defines} : Construct.ofHead head = .start →
      IsSequence children items → IsOutline ns defines →
      IsOutline (.element head children :: ns) defines
  | define {head children ns name items defines} : Construct.ofHead head = .define →
      requiredAttribute (.element head children) "name" = .ok name → IsSequence children items →
      name ∉ defines.map (·.1) → IsOutline ns defines →
      IsOutline (.element head children :: ns) ((name, items) :: defines)
  | skip {n ns defines} : n.isElement = false → IsOutline ns defines → IsOutline (n :: ns) defines

/-- Whether a node is a grammar of plain sequences, with the definitions. -/
inductive IsGrammar : Node → Table (List Item) → Prop
  | intro {head parts defines} : Construct.ofHead head = .grammar → IsOutline parts defines →
      IsGrammar (.element head parts) ⟨defines⟩

mutual

def addItem (target : ElementPattern) : Item → ElementPattern
  | .element name content =>
    { target with elements := target.elements ++ [gather { name } content] }
  | .ref name => { target with references := target.references ++ [{ name }] }
  | .text => { target with hasText := true }

/-- **The element pattern with the items of a sequence added**, in order. -/
def gather (target : ElementPattern) : List Item → ElementPattern
  | [] => target
  | item :: items => gather (addItem target item) items

end

/-- **The child elements of a sequence from left to right**, with the content of
    its definition in the place of each reference. -/
inductive LeftToRight (defines : Table (List Item)) : List Item → List String → Prop
  | nil : LeftToRight defines [] []
  | element {name content items names} : LeftToRight defines items names →
      LeftToRight defines (.element name content :: items) (name :: names)
  | text {items names} : LeftToRight defines items names →
      LeftToRight defines (.text :: items) names
  | ref {name content items inner names} : defines.get? name = some content →
      LeftToRight defines content inner → LeftToRight defines items names →
      LeftToRight defines (.ref name :: items) (inner ++ names)

/-- The sequence with its references moved behind its elements. -/
def elementsFirst (items : List Item) : List Item :=
  items.filter (!·.ref?.isSome) ++ items.filter (·.ref?.isSome)

/-! ## Reading -/

theorem run_readPatterns_cons {n : Node} {target target' : ElementPattern} {r : Reading}
    (h : (readPattern {} target n).run r = (.ok target', r)) (ns : List Node) :
    (readPatterns {} target (n :: ns)).run r = (readPatterns {} target' ns).run r := by
  rw [readPatterns, ReadM.run_bind, h]

theorem readPatterns_sequence {ns : List Node} {items : List Item} (h : IsSequence ns items)
    (target : ElementPattern) (r : Reading) :
    (readPatterns {} target ns).run r = (.ok (gather target items), r) := by
  induction h generalizing target r with
  | nil =>
    rw [readPatterns, gather]
    rfl
  | @element head children ns name content items hhead hname _ _ ihchildren ihrest =>
    rw [run_readPatterns_cons, ihrest, gather, addItem]
    rw [readPattern]
    simp only [hhead, hname]
    rw [ReadM.run_bind]
    change ExceptT.run (do
      let element ← readPatterns {} { name } children
      pure { target with elements := target.elements ++ [element] }) r = _
    rw [ReadM.run_bind, ihchildren]
    rfl
  | @ref head children ns name items hhead hname _ ih =>
    rw [run_readPatterns_cons, ih, gather, addItem]
    rw [readPattern]
    simp only [hhead, hname]
    rfl
  | text hhead _ ih =>
    rw [run_readPatterns_cons, ih, gather, addItem]
    rw [readPattern]
    simp only [hhead]
    rfl
  | @skip n ns items hn _ ih =>
    rw [run_readPatterns_cons, ih]
    cases n with
    | element => cases hn
    | text | comment | instruction =>
      rw [readPattern]
      · rfl
      · simp

theorem run_readParts_cons {n : Node} {start start' : Option ElementPattern} {r r' : Reading}
    (h : (readPart start n).run r = (.ok start', r')) (ns : List Node) :
    (readParts start (n :: ns)).run r = (readParts start' ns).run r' := by
  rw [readParts, ReadM.run_bind, h]

theorem readDefine_sequence {head : Markup.Head} {children : List Node} {name : String}
    {items : List Item} (hname : requiredAttribute (.element head children) "name" = .ok name)
    (h : IsSequence children items) (r : Reading) :
    ∃ notices, (readDefine (.element head children)).run r = (.ok (),
      { r with definitions := r.definitions.add name (gather { name } items), notices }) := by
  let body := gather { name } items
  refine ⟨r.notices ++ [.definition name body.elements.length body.attributes.length
    body.references.length], ?_⟩
  rw [readDefine, ReadM.run_bind, hname]
  change ExceptT.run (do
    let body ← readPatterns {} { name } children
    ReadM.tell (.definition name body.elements.length body.attributes.length
      body.references.length)
    ReadM.define name body) r = _
  rw [ReadM.run_bind, readPatterns_sequence h]
  rfl

theorem get?_add {ds : Definitions} {name : String} (h : ds.get? name = none)
    (body : ElementPattern) (key : String) :
    (ds.add name body).get? key = if key = name then some [body] else ds.get? key := by
  split
  · rename_i heq
    rw [heq, Definitions.add, Table.get?_insert_self, h]
    rfl
  · rename_i hne
    rw [Definitions.add, Table.get?_insert_of_ne _ _ hne]

theorem readParts_outline {ns : List Node} {defines : List (String × List Item)}
    (h : IsOutline ns defines) (start : Option ElementPattern) (r : Reading)
    (hr : ∀ name ∈ defines.map (·.1), r.definitions.get? name = none) :
    ∃ start' r', (readParts start ns).run r = (.ok start', r') ∧
      ∀ name, r'.definitions.get? name =
        (((Table.mk defines).get? name).map fun items => [gather { name } items]).or
          (r.definitions.get? name) := by
  induction h generalizing start r with
  | nil => exact ⟨start, r, by rw [readParts]; rfl, fun name => rfl⟩
  | @start head children ns items defines hhead hseq _ ih =>
    obtain ⟨start', r', hrun, hget⟩ := ih (some (gather (start.getD {}) items)) r hr
    refine ⟨start', r', ?_, hget⟩
    rw [run_readParts_cons, hrun]
    rw [readPart]
    simp only [hhead]
    change ExceptT.run (do
      let found ← readPatterns {} (start.getD {}) children
      pure (some found)) r = _
    rw [ReadM.run_bind, readPatterns_sequence hseq]
    rfl
  | @define head children ns name items defines hhead hname hseq hnew _ ih =>
    obtain ⟨notices, hdefine⟩ := readDefine_sequence hname hseq r
    have hadd := get?_add (hr name List.mem_cons_self) (gather { name } items)
    obtain ⟨start', r', hrun, hget⟩ := ih start
        { r with definitions := r.definitions.add name (gather { name } items), notices } <| by
      intro key hk
      have hne : key ≠ name := fun heq => hnew (heq ▸ hk)
      rw [hadd, if_neg hne]
      exact hr key (List.mem_cons_of_mem _ hk)
    refine ⟨start', r', ?_, fun key => ?_⟩
    · rw [run_readParts_cons, hrun]
      rw [readPart]
      simp only [hhead]
      rw [ReadM.run_bind, hdefine]
      rfl
    · rw [hget, hadd, Table.get?_cons]
      by_cases hk : key = name
      · have hnone : (Table.mk defines).get? key = none := by
          refine List.lookup_eq_none_iff.2 fun entry he => ?_
          simpa using fun heq : key = entry.1 => hnew (List.mem_map.2 ⟨entry, he, heq ▸ hk⟩)
        rw [hnone, if_pos hk, if_pos hk, hk]
        rfl
      · rw [if_neg hk, if_neg hk]
  | @skip n ns defines hn _ ih =>
    obtain ⟨start', r', hrun, hget⟩ := ih start r hr
    refine ⟨start', r', ?_, hget⟩
    rw [run_readParts_cons, hrun]
    cases n with
    | element => cases hn
    | text | comment | instruction =>
      rw [readPart]
      · rfl
      · simp

/-- **The definitions of a grammar of plain sequences**: each has one body, with
    the items of its sequence. -/
theorem get?_readGrammar {dialect : Option Dialect} {root : Node} {defines : Table (List Item)}
    {g : Grammar} (ho : IsGrammar root defines)
    (hd : (dialect <|> Dialect.ofRoot? root) = some .relaxNg)
    (hread : (readGrammar dialect root).1 = .ok g) (name : String) :
    g.definitions.get? name = (defines.get? name).map fun items => [gather { name } items] := by
  obtain ⟨hhead, hparts⟩ := ho
  obtain ⟨start, r, hrun, hget⟩ := readParts_outline hparts none {} (fun _ _ => rfl)
  rw [readGrammar, hd] at hread
  simp only [Dialect.reader, read, hhead, ReadM.run_bind, hrun] at hread
  cases start with
  | none => cases hread
  | some start =>
    cases hread
    rw [hget]
    exact Option.or_none

/-! ## The pattern of a sequence -/

theorem name_gather (items : List Item) (target : ElementPattern) :
    (gather target items).name = target.name := by
  induction items generalizing target with
  | nil => rw [gather]
  | cons item items ih => cases item <;> rw [gather, ih, addItem]

theorem references_gather (items : List Item) (target : ElementPattern) :
    (gather target items).references.map (·.name) =
      target.references.map (·.name) ++ items.filterMap Item.ref? := by
  induction items generalizing target with
  | nil => simp [gather]
  | cons item items ih => cases item <;> simp [gather, addItem, ih, List.filterMap_cons, Item.ref?]

theorem elements_gather (items : List Item) (target : ElementPattern) :
    (gather target items).elements.map (·.name) =
      target.elements.map (·.name) ++ items.filterMap Item.child? := by
  induction items generalizing target with
  | nil => simp [gather]
  | cons item items ih =>
    cases item <;> simp [gather, addItem, ih, List.filterMap_cons, name_gather, Item.child?]

/-! ## Elements first -/

theorem Item.child?_of_ref? {item : Item} (h : item.ref?.isSome) : item.child? = none := by
  cases item with
  | element | text => cases h
  | ref => rfl

theorem filterMap_filter_of_none {p : Item → Bool} {f : Item → Option String}
    (h : ∀ item, p item = false → f item = none) (items : List Item) :
    (items.filter p).filterMap f = items.filterMap f := by
  rw [List.filterMap_filter]
  refine List.filterMap_congr fun item _ => ?_
  cases hp : p item with
  | false => exact (h item hp).symm
  | true => rfl

theorem child?_elementsFirst (items : List Item) :
    (elementsFirst items).filterMap Item.child? = items.filterMap Item.child? := by
  have hlast : (items.filter (·.ref?.isSome)).filterMap Item.child? = [] :=
    List.filterMap_eq_nil_iff.2 fun item h => Item.child?_of_ref? (List.mem_filter.1 h).2
  rw [elementsFirst, List.filterMap_append, hlast, List.append_nil]
  exact filterMap_filter_of_none (fun item h => Item.child?_of_ref? (by simpa using h)) items

theorem ref?_elementsFirst (items : List Item) :
    (elementsFirst items).filterMap Item.ref? = items.filterMap Item.ref? := by
  have hfirst : (items.filter (!·.ref?.isSome)).filterMap Item.ref? = [] :=
    List.filterMap_eq_nil_iff.2 fun item h => by simpa using (List.mem_filter.1 h).2
  rw [elementsFirst, List.filterMap_append, hfirst, List.nil_append]
  exact filterMap_filter_of_none (fun item h => by simpa using h) items

def RefsLast (items : List Item) : Prop :=
  items.Pairwise fun a b => a.ref?.isSome → b.child? = none

theorem refsLast_elementsFirst (items : List Item) : RefsLast (elementsFirst items) := by
  refine List.pairwise_append.2 ⟨?_, ?_, ?_⟩
  · refine List.pairwise_filter.2 (List.pairwise_of_forall ?_)
    intro a b ha _ hr
    rw [hr] at ha
    cases ha
  · refine List.pairwise_filter.2 (List.pairwise_of_forall ?_)
    intro a b _ hb _
    exact Item.child?_of_ref? hb
  · intro a ha b hb _
    exact Item.child?_of_ref? (List.mem_filter.1 hb).2

/-- The definitions with the references of each moved behind its elements. -/
def definesFirst (defines : Table (List Item)) : Table (List Item) :=
  ⟨defines.entries.map fun entry => (entry.1, elementsFirst entry.2)⟩

theorem get?_definesFirst (defines : Table (List Item)) (name : String) :
    (definesFirst defines).get? name = (defines.get? name).map elementsFirst :=
  Table.get?_map (fun _ => elementsFirst) name defines.entries

theorem bodiesBelow_gather (ds : Definitions) (name : String) (items : List Item) :
    ds.bodiesBelow (gather { name } items) =
      (items.filterMap Item.ref?).flatMap (ds.bodiesAlong []) := by
  have hrefs := references_gather items { name }
  rw [List.map_nil, List.nil_append] at hrefs
  rw [← hrefs, List.flatMap_map]
  rfl

/-- **The order of a sequence with elements first** is that of its elements,
    followed by those of the bodies it refers to. -/
theorem LeftToRight.names_eq {defines : Table (List Item)} {ds : Definitions} (ha : ds.Acyclic)
    (hdefs : ∀ name, ds.get? name =
      (defines.get? name).map fun items => [gather { name } items])
    {items : List Item} {names : List String} (h : LeftToRight (definesFirst defines) items names)
    (hlast : RefsLast items) :
    names = items.filterMap Item.child? ++ (items.filterMap Item.ref?).flatMap fun name =>
      (ds.bodiesAlong [] name).flatMap fun b => b.elements.map (·.name) := by
  induction h with
  | nil => rfl
  | element _ ih =>
    rw [ih (List.pairwise_cons.1 hlast).2]
    simp [List.filterMap_cons, Item.child?, Item.ref?]
  | text _ ih =>
    rw [ih (List.pairwise_cons.1 hlast).2]
    simp [List.filterMap_cons, Item.child?, Item.ref?]
  | @ref name content items inner names hget _ _ ihinner ihrest =>
    obtain ⟨hrefs, hrest⟩ := List.pairwise_cons.1 hlast
    -- behind the first reference there are references only
    have hnone : items.filterMap Item.child? = [] :=
      List.filterMap_eq_nil_iff.2 fun item hitem => hrefs item hitem rfl
    rw [get?_definesFirst, Option.map_eq_some_iff] at hget
    obtain ⟨own, hown, rfl⟩ := hget
    have hinner : inner =
        (ds.bodiesAlong [] name).flatMap fun b => b.elements.map (·.name) := by
      have hbody : ds.get? name = some [gather { name } own] := by
        rw [hdefs, hown]
        rfl
      rw [ihinner (refsLast_elementsFirst own), child?_elementsFirst, ref?_elementsFirst,
        Definitions.bodiesAlong_nil ha, hbody]
      simp [elements_gather, bodiesBelow_gather, List.flatMap_assoc]
    rw [hinner, ihrest hrest, hnone]
    simp [List.filterMap_cons, Item.child?, Item.ref?, hnone]

/-- **Declaration order is preserved up to references.**  In a grammar of plain
    sequences whose definitions do not depend on themselves, in which no element
    refers to its own name and none has a name with `#`, the relations of an
    element whose child elements have different names list them from left to
    right, with the references of every sequence moved behind its elements. -/
theorem relations_elements_first {dialect : Option Dialect} {root : Node}
    {defines : Table (List Item)} {g : Grammar} (ho : IsGrammar root defines)
    (hd : (dialect <|> Dialect.ofRoot? root) = some .relaxNg)
    (hread : (readGrammar dialect root).1 = .ok g) (ha : g.definitions.Acyclic)
    (hn : g.NoSelfNamed) (hsharp : ∀ e ∈ patterns g, '#' ∉ e.name.toList) {name : String}
    {content : List Item} {names : List String} (he : g.Reaches (gather { name } content))
    (horder : LeftToRight (definesFirst defines) (elementsFirst content) names)
    (hnodup : names.Nodup) :
    ∃ entity, g.entityFor (gather { name } content) = some entity ∧ entity.name = name ∧
      entity.elementRelations.map
          (fun r => (g.resolve.1.build.1.elements.get? r.target).map (·.name)) =
        names.map some := by
  obtain ⟨hfreshStart, hfresh⟩ := readGrammar_fresh hread
  have hnames : (expand (expansion g.definitions) (gather { name } content)).elements.map
      (·.name) = names := by
    rw [horder.names_eq ha (get?_readGrammar ho hd hread) (refsLast_elementsFirst content),
      child?_elementsFirst, ref?_elementsFirst, childNames_expand ha]
    simp [elements_gather, bodiesBelow_gather, List.flatMap_assoc]
  obtain ⟨entity, hentity, hname, hrelations⟩ :=
    relations_expand ⟨hfreshStart, hfresh, ha, hn, hsharp⟩ he (hnames ▸ hnodup)
  refine ⟨entity, hentity, hname.trans (name_gather content _), ?_⟩
  rw [hrelations, ← hnames, List.map_map]
  rfl

def reportRoot : Node :=
  plainNode "grammar"
    [plainNode "start" [namedNode "element" "report"
      [namedNode "ref" "head" [], namedNode "element" "body" [plainNode "text" []]]],
    namedNode "define" "head"
      [namedNode "ref" "date" [], namedNode "element" "author" [plainNode "text" []]],
    namedNode "define" "date" [namedNode "element" "date" [plainNode "text" []]]]

def reportDefines : Table (List Item) :=
  ⟨[("head", [.ref "date", .element "author" [.text]]), ("date", [.element "date" [.text]])]⟩

theorem isGrammar_report : IsGrammar reportRoot reportDefines := by
  have hstart : IsSequence
      [namedNode "element" "report"
        [namedNode "ref" "head" [], namedNode "element" "body" [plainNode "text" []]]]
      [.element "report" [.ref "head", .element "body" [.text]]] :=
    .element rfl rfl (.ref rfl rfl (.element rfl rfl (.text rfl .nil) .nil)) .nil
  have hhead : IsSequence
      [namedNode "ref" "date" [], namedNode "element" "author" [plainNode "text" []]]
      [.ref "date", .element "author" [.text]] :=
    .ref rfl rfl (.element rfl rfl (.text rfl .nil) .nil)
  have hdate : IsSequence [namedNode "element" "date" [plainNode "text" []]]
      [.element "date" [.text]] :=
    .element rfl rfl (.text rfl .nil) .nil
  exact .intro rfl (.start rfl hstart (.define rfl rfl hhead (by decide)
    (.define rfl rfl hdate (by decide) .nil)))

def reportGrammar : Grammar where
  start := gather {} [.element "report" [.ref "head", .element "body" [.text]]]
  definitions :=
    ⟨[("head", [gather { name := "head" } [.ref "date", .element "author" [.text]]]),
      ("date", [gather { name := "date" } [.element "date" [.text]]])]⟩

theorem report_in_order : ∃ entity,
    reportGrammar.entityFor
      (gather { name := "report" } [.ref "head", .element "body" [.text]]) = some entity ∧
    entity.name = "report" ∧
    entity.elementRelations.map
        (fun r => (reportGrammar.resolve.1.build.1.elements.get? r.target).map (·.name)) =
      [some "body", some "author", some "date"] := by
  have hread : (readGrammar none reportRoot).1 = .ok reportGrammar := by rfl
  have ha : reportGrammar.definitions.Acyclic :=
    Definitions.acyclic_of_rank (fun name => if name = "head" then 1 else 0) (by decide)
  have hnames : reportGrammar.NoSelfNamed ∧
      ∀ e ∈ patterns reportGrammar, '#' ∉ e.name.toList := by
    unfold Grammar.NoSelfNamed
    decide
  have horder : LeftToRight (definesFirst reportDefines)
      (elementsFirst [.ref "head", .element "body" [.text]]) ["body", "author", "date"] :=
    .element (.ref rfl (.element (.ref rfl (.element .nil) .nil)) .nil)
  exact relations_elements_first isGrammar_report rfl hread ha hnames.1 hnames.2
    (.start (ElementPattern.mem_walkList_of_mem (.head _))) horder (by decide)

/-- A letter whose date is defined elsewhere, with a list that has the name of
    the definition it refers to. -/
def letterRoot : Node :=
  plainNode "grammar"
    [plainNode "start" [namedNode "element" "letter"
      [namedNode "ref" "head" [], namedNode "element" "list" [namedNode "ref" "list" []]]],
    namedNode "define" "head" [namedNode "element" "date" [plainNode "text" []]],
    namedNode "define" "list" [namedNode "ref" "item" []],
    namedNode "define" "item" [namedNode "element" "item" [plainNode "text" []]]]

def letterDefines : Table (List Item) :=
  ⟨[("head", [.element "date" [.text]]), ("list", [.ref "item"]),
    ("item", [.element "item" [.text]])]⟩

def letterGrammar : Grammar where
  start := gather {} [.element "letter" [.ref "head", .element "list" [.ref "list"]]]
  definitions :=
    ⟨[("head", [gather { name := "head" } [.element "date" [.text]]]),
      ("list", [gather { name := "list" } [.ref "item"]]),
      ("item", [gather { name := "item" } [.element "item" [.text]]])]⟩

def letterEntities : Table Element :=
  ⟨[("letter", { identifier := "letter", name := "letter"
                 elementRelations := [{ target := "list" }, { target := "date" }] }),
    ("list", { identifier := "list", name := "list" }),
    ("date", { identifier := "date", name := "date", text := true })]⟩

theorem letterGrammar_build : letterGrammar.resolve.1.build.1.elements = letterEntities := by
  cbv

theorem isGrammar_letter : IsGrammar letterRoot letterDefines := by
  have hstart : IsSequence
      [namedNode "element" "letter"
        [namedNode "ref" "head" [], namedNode "element" "list" [namedNode "ref" "list" []]]]
      [.element "letter" [.ref "head", .element "list" [.ref "list"]]] :=
    .element rfl rfl (.ref rfl rfl (.element rfl rfl (.ref rfl rfl .nil) .nil)) .nil
  have hhead : IsSequence [namedNode "element" "date" [plainNode "text" []]]
      [.element "date" [.text]] :=
    .element rfl rfl (.text rfl .nil) .nil
  have hlist : IsSequence [namedNode "ref" "item" []] [.ref "item"] := .ref rfl rfl .nil
  have hitem : IsSequence [namedNode "element" "item" [plainNode "text" []]]
      [.element "item" [.text]] :=
    .element rfl rfl (.text rfl .nil) .nil
  exact .intro rfl (.start rfl hstart (.define rfl rfl hhead (by decide)
    (.define rfl rfl hlist (by decide) (.define rfl rfl hitem (by decide) .nil))))

/-- **The relations are not in the order of the sequences as they are**: a date
    that is defined elsewhere comes after the list that follows it, and the
    items of a list with the name of a definition are lost. -/
theorem letter_not_in_order : IsGrammar letterRoot letterDefines ∧
    (readGrammar none letterRoot).1 = .ok letterGrammar ∧
    letterGrammar.definitions.Acyclic ∧
    (letterGrammar.Reaches
        (gather { name := "letter" } [.ref "head", .element "list" [.ref "list"]]) ∧
      LeftToRight letterDefines [.ref "head", .element "list" [.ref "list"]] ["date", "list"] ∧
      ∀ id entity, letterGrammar.resolve.1.build.1.elements.get? id = some entity →
        entity.name = "letter" → entity.elementRelations.map (·.target) = ["list", "date"]) ∧
    letterGrammar.Reaches (gather { name := "list" } [.ref "list"]) ∧
      LeftToRight letterDefines [.ref "list"] ["item"] ∧
      ∀ id entity, letterGrammar.resolve.1.build.1.elements.get? id = some entity →
        entity.name = "list" → entity.elementRelations = [] := by
  have hentities : ∀ entry ∈ letterEntities.entries,
      (entry.2.name = "letter" → entry.2.elementRelations.map (·.target) = ["list", "date"]) ∧
        (entry.2.name = "list" → entry.2.elementRelations = []) := by
    decide
  have hentity : ∀ id entity, letterGrammar.resolve.1.build.1.elements.get? id = some entity →
      (id, entity) ∈ letterEntities.entries := by
    intro id entity hget
    rw [letterGrammar_build] at hget
    exact Table.mem_entries_of_get? hget
  have ha : letterGrammar.definitions.Acyclic :=
    Definitions.acyclic_of_rank (fun name => if name = "list" then 1 else 0) (by decide)
  refine ⟨isGrammar_letter, by rfl, ha, ⟨?_, ?_, ?_⟩, ?_, ?_, ?_⟩
  · exact .start (ElementPattern.mem_walkList_of_mem (.head _))
  · exact .ref rfl (.element .nil) (.element .nil)
  · exact fun id entity hget => (hentities _ (hentity id entity hget)).1
  · exact .start (mem_walkList_of_mem_walk (.head _)
      (walk_eq.2 (.inr (ElementPattern.mem_walkList_of_mem (.head _)))))
  · exact .ref rfl (.ref rfl (.element .nil) .nil) .nil
  · exact fun id entity hget => (hentities _ (hentity id entity hget)).2

end RelaxNg

end Bindery.Schema
