/-
  Declarations in RelaxNG.

  The element pattern that spells a declaration is read to the pattern that the
  declaration stands for.  The modifiers on the way are those of the wrappers
  (`readPattern_wrap`), and the rest follows the declaration: attributes, then
  the datatype or the items, with choices counted in their order.
-/
import Bindery.Proofs.Declaration.Reading
import Bindery.Proofs.Declaration.Spelling

namespace Bindery.Schema.RelaxNg

open Markup (Content Node Head)
open ReadM (Gives)

/-! ## Nodes -/

theorem ofHead_eq {head : Head} (h : vocabulary.accepts head) :
    Construct.ofHead head = Construct.ofTag head.name := by
  rw [Construct.ofHead]
  cases hspace : head.space with
  | none => rfl
  | some space => exact if_pos (h space hspace)

theorem readPatterns_singleton (p : Pattern) (target : ElementPattern) (n : Node) :
    readPatterns p target [n] = readPattern p target n := by
  rw [readPatterns]
  exact bind_pure _

theorem readPatterns_filter (p : Pattern) (target : ElementPattern) (ns : List Node) :
    readPatterns p target (ns.filter (·.isElement)) = readPatterns p target ns := by
  refine read_filter (fun t n ns ms h => ?_) (fun _ _ => ⟨fun _ => rfl, fun _ => rfl, rfl⟩) target ns
  simp only [readPatterns, h]

theorem readPatterns_append (p : Pattern) (target : ElementPattern) (ns ms : List Node) :
    readPatterns p target (ns ++ ms) =
      (readPatterns p target ns >>= fun target => readPatterns p target ms) := by
  induction ns generalizing target with
  | nil => rw [List.nil_append, readPatterns, pure_bind]
  | cons n ns ih =>
    rw [List.cons_append, readPatterns, readPatterns, bind_assoc]
    simp only [ih]

/-! ## Wrappers -/

/-- A wrapper of one pattern changes the modifiers under which that is read. -/
theorem readPattern_wrapper {tag : String} {c : Content} {n : Node}
    (hn : vocabulary.Spells (.element tag [] [c]) n) (modify : Pattern → Pattern)
    (hread : ∀ p target head children, Construct.ofHead head = Construct.ofTag tag →
      readPattern p target (.element head children) = readPatterns (modify p) target children) :
    ∃ inner, vocabulary.Spells c inner ∧
      ∀ p target, readPattern p target n = readPattern (modify p) target inner := by
  obtain ⟨head, children, rfl, haccepts, rfl, -, hchildren⟩ := hn.exists_element
  obtain ⟨inner, heq, hinner⟩ := hchildren.singleton_left
  refine ⟨inner, hinner, fun p target => ?_⟩
  rw [hread p target head children (ofHead_eq haccepts), ← readPatterns_filter, heq,
    readPatterns_singleton]

theorem readPattern_wrap {m : Multiplicity} {c : Content} {n : Node}
    (hn : vocabulary.Spells (m.wrap c) n) :
    ∃ inner, vocabulary.Spells c inner ∧
      ∀ p target, readPattern p target n = readPattern (m.under p) target inner := by
  cases m with
  | once => exact ⟨n, hn, fun _ _ => rfl⟩
  | optional =>
    refine readPattern_wrapper hn ({ · with optional := true }) fun p target head children h => ?_
    rw [readPattern, h]
    rfl
  | zeroOrMore =>
    refine readPattern_wrapper hn ({ · with zeroOrMore := true }) fun p target head children h => ?_
    rw [readPattern, h]
    rfl
  | oneOrMore =>
    refine readPattern_wrapper hn ({ · with oneOrMore := true }) fun p target head children h => ?_
    rw [readPattern, h]
    rfl

/-! ## Attributes and datatypes -/

theorem patternName_eq {n : Node} {name : LocalName} (hsolid : name.Solid)
    (h : n.attribute? "name" = some name.text) : patternName n = .ok name.text := by
  simp only [patternName, h, Option.orElse_eq_orElse, Option.orElse_eq_or, Option.some_or,
    LocalName.trim_text hsolid, localName_of_not_mem name.not_mem_colon]

theorem gives_data {type : TypeName} {n : Node} (hn : vocabulary.Spells type.relaxNg n)
    (p : Pattern) (target : ElementPattern) (k : Nat) : Gives (readPattern p target n) k
      { target with hasText := true, dataType := some (.ofName type.text) } k := by
  obtain ⟨head, children, rfl, haccepts, hname, hkeys, -⟩ := hn.exists_element
  have htype : requiredAttribute (.element head children) "type" = .ok type.text := by
    rw [requiredAttribute, hkeys "type" (by decide)]
    rfl
  rw [readPattern, ofHead_eq haccepts, hname]
  refine .bind (htype ▸ ReadM.gives_ofExcept) ?_
  rw [localName_of_not_mem type.not_mem_colon]
  exact .bind (ReadM.gives_dataType _) .pure

theorem gives_foldAttribute (name : String) (p : Pattern) {content : ElementPattern}
    (helements : content.elements = []) (hattributes : content.attributes = [])
    (hreferences : content.references = []) (k : Nat) : Gives (foldAttribute name p content) k
      { AttributePattern.under name p with
        dataType := content.dataType, facet := Facet.proper content.facet } k := by
  simp only [foldAttribute, helements, hattributes, hreferences]
  exact .pure

theorem gives_attribute {a : AttributeDeclaration} (hsolid : a.name.Solid) {n : Node}
    (hn : vocabulary.Spells a.relaxNg n) (target : ElementPattern) (k : Nat) :
    Gives (readPattern {} target n) k
      { target with attributes := target.attributes ++ [a.pattern] } k := by
  obtain ⟨inner, hinner, hread⟩ := readPattern_wrap hn
  obtain ⟨head, children, rfl, haccepts, hname, hkeys, hchildren⟩ := hinner.exists_element
  obtain ⟨value, hvalue, hdata⟩ := hchildren.singleton_left
  have hnamed := patternName_eq hsolid (hkeys "name" (by decide))
  rw [hread, readPattern, ofHead_eq haccepts, hname]
  refine .bind (hnamed ▸ ReadM.gives_ofExcept) ?_
  rw [← readPatterns_filter, hvalue, readPatterns_singleton]
  refine .bind (gives_data hdata _ _ k) ?_
  exact .bind (gives_foldAttribute _ _ rfl rfl rfl k) .pure

theorem gives_attributes {as : List AttributeDeclaration} (hsolid : ∀ a ∈ as, a.name.Solid)
    {ns : List Node} (hns : vocabulary.SpellsAll (as.map (·.relaxNg)) ns)
    (target : ElementPattern) (k : Nat) : Gives (readPatterns {} target ns) k
      { target with attributes := target.attributes ++ as.map (·.pattern) } k := by
  induction as generalizing ns target with
  | nil =>
    rw [hns.nil_left, readPatterns, List.map_nil, List.append_nil]
    cases target
    exact .pure
  | cons a as ih =>
    obtain ⟨m, ms, rfl, hm, hms⟩ := hns.cons_left
    rw [readPatterns]
    refine .bind (gives_attribute (hsolid a List.mem_cons_self) hm target k) ?_
    have hrest := ih (fun b hb => hsolid b (List.mem_cons_of_mem _ hb)) hms
      { target with attributes := target.attributes ++ [a.pattern] }
    simpa using hrest

/-! ## Elements -/

theorem gives_element {name : LocalName} {as : List AttributeDeclaration} {content : List Content}
    (hname : name.Solid) (has : ∀ a ∈ as, a.name.Solid) {n : Node}
    (hn : vocabulary.Spells (.element "element" [("name", name.text)]
      (as.map (·.relaxNg) ++ content)) n)
    (p : Pattern) (target : ElementPattern) {e : ElementPattern} {k k' : Nat}
    (hcontent : ∀ ns, vocabulary.SpellsAll content ns → Gives (readPatterns {}
      { name := name.text, pattern := p, attributes := as.map (·.pattern) } ns) k e k') :
    Gives (readPattern p target n) k { target with elements := target.elements ++ [e] } k' := by
  obtain ⟨head, children, rfl, haccepts, htag, hkeys, hchildren⟩ := hn.exists_element
  obtain ⟨ns, ms, heq, hns, hms⟩ := hchildren.append_left
  have hnamed := patternName_eq hname (hkeys "name" (by decide))
  rw [readPattern, ofHead_eq haccepts, htag]
  refine .bind (hnamed ▸ ReadM.gives_ofExcept) ?_
  rw [← readPatterns_filter, heq, readPatterns_append]
  exact .bind (.bind (gives_attributes has hns _ k) (hcontent ms hms)) .pure

mutual

theorem gives_declaration (p : Pattern) (k : Nat) : ∀ (d : Declaration),
    (∀ name ∈ d.names, name.Solid) → ∀ {n : Node}, vocabulary.Spells d.relaxNg n →
    ∀ target : ElementPattern, Gives (readPattern p target n) k
      { target with elements := target.elements ++ [(d.element p k).1] } (d.element p k).2
  | .scalar name attributes type => by
    intro hsolid n hn target
    rw [Declaration.relaxNg] at hn
    rw [Declaration.names] at hsolid
    rw [Declaration.element]
    refine gives_element (hsolid name List.mem_cons_self)
      (fun a ha => hsolid _ (List.mem_cons_of_mem _ (List.mem_map_of_mem ha))) hn p target ?_
    intro ns hns
    obtain ⟨m, rfl, hm⟩ := hns.singleton_left
    rw [readPatterns_singleton]
    exact gives_data hm _ _ k
  | .record name attributes items => by
    intro hsolid n hn target
    rw [Declaration.relaxNg] at hn
    rw [Declaration.names] at hsolid
    rw [Declaration.element]
    refine gives_element (hsolid name (List.mem_append_left _ List.mem_cons_self))
      (fun a ha => hsolid _
        (List.mem_append_left _ (List.mem_cons_of_mem _ (List.mem_map_of_mem ha)))) hn p target ?_
    intro ns hns
    exact gives_items {} k items (fun name hm => hsolid name (List.mem_append_right _ hm)) hns _

theorem gives_item (p : Pattern) (k : Nat) : ∀ (i : Schema.Item),
    (∀ name ∈ i.names, name.Solid) → ∀ {n : Node}, vocabulary.Spells i.relaxNg n →
    ∀ target : ElementPattern, Gives (readPattern p target n) k
      { target with elements := target.elements ++ (i.elements p k).1 } (i.elements p k).2
  | .child m d => by
    intro hsolid n hn target
    rw [Item.relaxNg] at hn
    rw [Item.names] at hsolid
    obtain ⟨inner, hinner, hread⟩ := readPattern_wrap hn
    rw [hread, Item.elements]
    exact gives_declaration (m.under p) k d hsolid hinner target
  | .choice m alternatives => by
    intro hsolid n hn target
    rw [Item.relaxNg] at hn
    rw [Item.names] at hsolid
    obtain ⟨inner, hinner, hread⟩ := readPattern_wrap hn
    obtain ⟨head, children, rfl, haccepts, htag, -, hchildren⟩ := hinner.exists_element
    rw [hread, Item.elements, readPattern, ofHead_eq haccepts, htag]
    refine .bind ReadM.gives_nextChoice ?_
    rw [← readPatterns_filter]
    exact gives_items _ (k + 1) alternatives hsolid hchildren target

theorem gives_items (p : Pattern) (k : Nat) : ∀ (is : List Schema.Item),
    (∀ name ∈ Item.namesAll is, name.Solid) → ∀ {ns : List Node},
    vocabulary.SpellsAll (Item.relaxNgAll is) ns → ∀ target : ElementPattern,
    Gives (readPatterns p target ns) k
      { target with elements := target.elements ++ (Item.elementsAll p k is).1 }
      (Item.elementsAll p k is).2
  | [] => by
    intro _ ns hns target
    rw [Item.relaxNgAll] at hns
    rw [hns.nil_left, readPatterns, Item.elementsAll, List.append_nil]
    cases target
    exact .pure
  | i :: is => by
    intro hsolid ns hns target
    rw [Item.relaxNgAll] at hns
    rw [Item.namesAll] at hsolid
    obtain ⟨m, ms, rfl, hm, hms⟩ := hns.cons_left
    rw [readPatterns, Item.elementsAll]
    refine .bind (gives_item p k i (fun name h => hsolid name (List.mem_append_left _ h)) hm
      target) ?_
    have hrest := gives_items p (i.elements p k).2 is
      (fun name h => hsolid name (List.mem_append_right _ h)) hms
      { target with elements := target.elements ++ (i.elements p k).1 }
    simpa using hrest

end

/-- **The grammar of a declaration in RelaxNG** starts with its element and has
    no definitions. -/
theorem readGrammar_spelled {d : Declaration} (hsolid : ∀ name ∈ d.names, name.Solid) {n : Node}
    (hn : vocabulary.Spells d.relaxNg n) :
    (readGrammar none n).1 = .ok { start := { elements := [(d.element {} 0).1] } } := by
  have htag : ∃ attributes content, d.relaxNg = .element "element" attributes content := by
    cases d <;> simp [Declaration.relaxNg]
  have hread := gives_declaration {} 0 d hsolid hn {}
  obtain ⟨attributes, content, heq⟩ := htag
  rw [heq] at hn
  obtain ⟨head, children, rfl, haccepts, hname, -, -⟩ := hn.exists_element
  obtain ⟨notices, hrun⟩ := hread {} rfl
  have hdialect : Dialect.ofRoot? (.element head children) = some .relaxNg := by
    simp only [Dialect.ofRoot?, Node.name, hname]
  have hstart : read (.element head children) =
      readPattern {} {} (.element head children) := by
    rw [read, ofHead_eq haccepts, hname]
    rfl
  have hreader : (Dialect.relaxNg.reader (.element head children)).run {} =
      (.ok { elements := [(d.element {} 0).1] }, { choices := (d.element {} 0).2, notices }) := by
    rw [Dialect.reader, hstart, hrun]
    rfl
  simp only [readGrammar, hdialect, Option.orElse_eq_orElse, Option.orElse_eq_or, Option.none_or,
    hreader]
  rfl

end Bindery.Schema.RelaxNg
