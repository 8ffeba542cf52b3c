/-
  Declarations in XML Schema.

  The schema whose global element spells a declaration is read to a reference to
  the definition of that element, and the element in it is the pattern that the
  declaration stands for.  Bounds are read to the modifiers of the item
  (`occursPattern_eq`), and names of datatypes to simple types without looking
  at those declared (`gives_simpleNamed`).
-/
import Bindery.Proofs.Declaration.Reading
import Bindery.Proofs.Declaration.Spelling

namespace Bindery.Schema.Xsd

open Markup (Content Node Head)

/-! ## Nodes -/

theorem name_of_not_element {n : Node} (hn : n.isElement = false) : n.name = "" := by
  cases n with
  | element head children => cases hn
  | text | comment | instruction => rfl

theorem readParticles_filter (p : Pattern) (target : ElementPattern) (ns : List Node) :
    readParticles p target (ns.filter (·.isElement)) = readParticles p target ns := by
  refine read_filter (fun t n ns ms h => ?_) (fun _ _ => ⟨fun _ => rfl, fun _ => rfl, rfl⟩) target ns
  simp only [readParticles, h]

theorem readAttributes_filter (target : ElementPattern) (ns : List Node) :
    readAttributes target (ns.filter (·.isElement)) = readAttributes target ns := by
  refine read_filter (fun t n ns ms h => ?_) (fun _ _ => ⟨fun _ => rfl, fun _ => rfl, rfl⟩) target ns
  simp only [readAttributes, h]

theorem readTypeParts_filter (target : ElementPattern) (ns : List Node) :
    readTypeParts target (ns.filter (·.isElement)) = readTypeParts target ns := by
  refine read_filter (fun t n ns ms h => ?_) (fun _ _ => ⟨fun _ => rfl, fun _ => rfl, rfl⟩) target ns
  simp only [readTypeParts, h]

theorem readSimpleContent_filter (target : ElementPattern) (ns : List Node) :
    readSimpleContent target (ns.filter (·.isElement)) = readSimpleContent target ns := by
  refine read_filter (fun t n ns ms h => ?_) (fun _ _ => ⟨fun _ => rfl, fun _ => rfl, rfl⟩) target ns
  simp only [readSimpleContent, h]

theorem readGlobals_filter (start : ElementPattern) (ns : List Node) :
    readGlobals start (ns.filter (·.isElement)) = readGlobals start ns := by
  refine read_filter (fun t n ns ms h => ?_) (fun _ _ => ⟨fun _ => rfl, fun _ => rfl, rfl⟩) start ns
  simp only [readGlobals, h]

theorem noteSimpleTypes_filter (ns : List Node) :
    noteSimpleTypes (ns.filter (·.isElement)) = noteSimpleTypes ns := by
  refine read_filter (f := fun _ => noteSimpleTypes) (fun t n ns ms h => ?_)
    (fun _ _ => ⟨fun _ => rfl, fun _ => rfl, rfl⟩) () ns
  simp only [noteSimpleTypes, h ()]

theorem readTypeChild_filter (target : ElementPattern) (ns : List Node) :
    readTypeChild target (ns.filter (·.isElement)) = readTypeChild target ns := by
  refine read_filter (fun t n ns ms h => ?_) (fun _ _ => ⟨fun _ => rfl, fun _ => rfl, rfl⟩) target ns
  simp only [readTypeChild, h]

theorem child?_filter (head : Head) (children : List Node) {name : String} (hname : name ≠ "") :
    (Node.element head children).child? name =
      (children.filter (·.isElement)).find? (·.name == name) := by
  refine (read_filter (f := fun (_ : Unit) ns => ns.find? (·.name == name))
    (fun t n ns ms h => ?_) (fun t ns => ?_) () children).symm
  · simp only [List.find?_cons, h ()]
  · have hneg : ("" == name) = false := by simpa using Ne.symm hname
    simp [Node.name, hneg]

/-! ## Types and bounds -/

theorem isBuiltin_qualified {label : LocalName} {head : Head}
    (h : (vocabulary label).accepts head) (children : List Node) (type : TypeName) :
    isBuiltin (.element head children) (type.qualified label) = true := by
  have hchars : (type.qualified label).toList = label.text.toList ++ ':' :: type.text.toList := by
    simp [TypeName.qualified]
  have hlabel : (type.qualified label).toList.takeWhile (· != ':') = label.text.toList := by
    rw [hchars]
    exact takeWhile_mark label.not_mem_colon (by rintro x ⟨⟩; rfl)
  have hcolon : ':' ∈ (type.qualified label).toList := by
    rw [hchars]
    exact List.mem_append_right _ List.mem_cons_self
  rw [isBuiltin, if_pos hcolon, hlabel, String.ofList_toList]
  exact decide_eq_true h

theorem gives_simpleNamed {label : LocalName} {head : Head}
    (h : (vocabulary label).accepts head) (children : List Node) (type : TypeName) (k : Nat) :
    Gives (simpleNamed (.element head children) (type.qualified label)) k
      (some { dataType := .ofName type.text }) k := by
  have hkey : localName (type.qualified label) = type.text := localName_append type.not_mem_colon
  have hbuiltin := isBuiltin_qualified h children type
  rw [DataType.ofName]
  cases htype : DataType.ofName? type.text with
  | some dataType =>
    refine gives_resolving [] fun nodes known => ?_
    rw [named, hkey, if_pos hbuiltin, if_neg type.isDataType]
    simp only [SimpleM.dataType, htype]
    rfl
  | none =>
    refine gives_resolving [.unknownDataType type.text] fun nodes known => ?_
    rw [named, hkey, if_pos hbuiltin, if_neg type.isDataType]
    simp only [SimpleM.dataType, htype]
    rfl

theorem merge_under (p : Pattern) (m : Multiplicity) : p.merge (m.under {}) = m.under p := by
  cases m <;> simp [Pattern.merge, Multiplicity.under]

theorem lookup_bounds (m : Multiplicity) {key : String} (hmin : key ≠ "minOccurs")
    (hmax : key ≠ "maxOccurs") : m.bounds.lookup key = none := by
  have hmin' : (key == "minOccurs") = false := beq_false_of_ne hmin
  have hmax' : (key == "maxOccurs") = false := beq_false_of_ne hmax
  cases m <;> simp [Multiplicity.bounds, List.lookup_cons, hmin', hmax']

/-- **Bounds are read to the modifiers they stand for.** -/
theorem occursPattern_eq {n : Node} {m : Multiplicity}
    (hmin : n.attribute? "minOccurs" = m.bounds.lookup "minOccurs")
    (hmax : n.attribute? "maxOccurs" = m.bounds.lookup "maxOccurs") :
    occursPattern n = .ok (m.under {}) := by
  rw [occursPattern, hmin, hmax]
  cases m <;> rfl

/-! ## Attributes -/

section
variable {label : LocalName}

theorem gives_readAttribute {a : AttributeDeclaration} {n : Node}
    (hn : (vocabulary label).Spells (a.xsd label) n) (k : Nat) :
    Gives (readAttribute n) k (some a.pattern) k := by
  obtain ⟨head, children, rfl, haccepts, -, hkeys, -⟩ := hn.exists_element
  have hname : (Node.element head children).attribute? "name" = some a.name.text :=
    hkeys "name" (by simp [vocabulary])
  have htype : (Node.element head children).attribute? "type" = some (a.type.qualified label) :=
    hkeys "type" (by simp [vocabulary])
  have huse := hkeys "use" (by simp [vocabulary])
  have huse' : (Node.element head children).attribute? "use" =
      if a.required then some "required" else none := by
    rw [huse]
    cases a.required <;> rfl
  simp only [readAttribute, huse', hname, htype]
  rw [AttributeDeclaration.pattern, AttributeDeclaration.multiplicity]
  cases a.required <;>
    exact .bind gives_ofExcept (.bind (gives_simpleNamed haccepts children a.type k) .pure)

theorem name_attribute {a : AttributeDeclaration} {n : Node}
    (hn : (vocabulary label).Spells (a.xsd label) n) : n.name = "attribute" := by
  obtain ⟨head, children, rfl, -, hname, -, -⟩ := hn.exists_element
  exact hname

theorem gives_readAttributes {as : List AttributeDeclaration} {ns : List Node}
    (hns : (vocabulary label).SpellsAll (as.map (·.xsd label)) ns) (target : ElementPattern)
    (k : Nat) : Gives (readAttributes target ns) k
      { target with attributes := target.attributes ++ as.map (·.pattern) } k := by
  induction as generalizing ns target with
  | nil =>
    rw [hns.nil_left, readAttributes, List.map_nil, List.append_nil]
    cases target
    exact .pure
  | cons a as ih =>
    obtain ⟨m, ms, rfl, hm, hms⟩ := hns.cons_left
    have hrest := ih hms { target with attributes := target.attributes ++ [a.pattern] }
    rw [readAttributes, name_attribute hm]
    refine .bind (gives_readAttribute hm k) (.bind .pure ?_)
    simpa using hrest

theorem gives_readTypeParts {as : List AttributeDeclaration} {ns : List Node}
    (hns : (vocabulary label).SpellsAll (as.map (·.xsd label)) ns) (target : ElementPattern)
    (k : Nat) : Gives (readTypeParts target ns) k target k := by
  induction as generalizing ns with
  | nil =>
    rw [hns.nil_left, readTypeParts]
    exact .pure
  | cons a as ih =>
    obtain ⟨m, ms, rfl, hm, hms⟩ := hns.cons_left
    rw [readTypeParts, name_attribute hm]
    exact .bind .pure (ih hms)

theorem names_attributes {as : List AttributeDeclaration} {ns : List Node}
    (hns : (vocabulary label).SpellsAll (as.map (·.xsd label)) ns) :
    ∀ n ∈ ns, n.name = "attribute" := by
  induction as generalizing ns with
  | nil => simp [hns.nil_left]
  | cons a as ih =>
    obtain ⟨m, ms, rfl, hm, hms⟩ := hns.cons_left
    intro n hn
    rcases List.mem_cons.1 hn with rfl | hn
    · exact name_attribute hm
    · exact ih hms n hn

theorem enumerationFacet_eq_none {n : Node} (h : ∀ c ∈ n.children, c.name ≠ "enumeration") :
    enumerationFacet n = none := by
  have hfold : ∀ (f : Facet → Node → Facet) (ns : List Node), (∀ c ∈ ns, f {} c = {}) →
      ns.foldl f {} = {} := by
    intro f ns hf
    induction ns with
    | nil => rfl
    | cons c ns ih =>
      rw [List.foldl_cons, hf c List.mem_cons_self]
      exact ih fun d hd => hf d (List.mem_cons_of_mem _ hd)
  rw [enumerationFacet, hfold _ _ fun c hc => if_neg (h c hc)]
  rfl

/-! ## Types -/

/-- **An extension of a datatype** gives the element that type and the
    attributes. -/
theorem gives_readSimpleDerivation {type : TypeName} {as : List AttributeDeclaration} {n : Node}
    (hn : (vocabulary label).Spells (.element "extension" [("base", type.qualified label)]
      (as.map (·.xsd label))) n) (name : String) (p : Pattern) (k : Nat) :
    Gives (readSimpleDerivation { name, pattern := p } n) k
      { name, pattern := p, attributes := as.map (·.pattern), hasText := true
        dataType := some (.ofName type.text) } k := by
  obtain ⟨head, children, rfl, haccepts, -, hkeys, hchildren⟩ := hn.exists_element
  have hbase : (Node.element head children).attribute? "base" = some (type.qualified label) :=
    hkeys "base" (by simp [vocabulary])
  have hfacet : enumerationFacet (.element head children) = none := by
    refine enumerationFacet_eq_none fun c hc => ?_
    by_cases helement : c.isElement = true
    · rw [names_attributes hchildren c (List.mem_filter.2 ⟨hc, helement⟩)]
      decide
    · rw [name_of_not_element (by simpa using helement)]
      decide
  simp only [readSimpleDerivation, hbase, hfacet]
  refine .bind (gives_simpleNamed haccepts children type k) (.bind .pure ?_)
  rw [← readAttributes_filter]
  exact gives_readAttributes hchildren _ k

theorem readAttributes_skip {n : Node} {tag : String} (hname : n.name = tag)
    (htag : tag ∉ ["attribute", "attributeGroup", "anyAttribute"]) (target : ElementPattern)
    (ns : List Node) : readAttributes target (n :: ns) = readAttributes target ns := by
  simp only [List.mem_cons, List.not_mem_nil, or_false, not_or] at htag
  rw [readAttributes, hname]
  split
  · exact absurd rfl htag.1
  · exact absurd rfl htag.2.1
  · exact absurd rfl htag.2.2
  · rw [pure_bind]

theorem markMixed_eq {n : Node} (h : n.attribute? "mixed" = none) (target : ElementPattern) :
    markMixed n target = target := by
  rw [markMixed, h]
  rfl

theorem gives_readType_simple {type : TypeName} {as : List AttributeDeclaration} {n : Node}
    (hn : (vocabulary label).Spells (simpleContentType label as type) n) (name : String)
    (p : Pattern) (k : Nat) : Gives (readType { name, pattern := p } n) k
      { name, pattern := p, attributes := as.map (·.pattern), hasText := true
        dataType := some (.ofName type.text) } k := by
  obtain ⟨head, children, rfl, -, -, hkeys, hchildren⟩ := hn.exists_element
  obtain ⟨content, hcontent, hspelled⟩ := hchildren.singleton_left
  obtain ⟨head', children', rfl, -, hname, -, hchildren'⟩ := hspelled.exists_element
  obtain ⟨derivation, hderivation, hextension⟩ := hchildren'.singleton_left
  have hderived : derivation.name = "extension" := by
    obtain ⟨_, _, rfl, -, hname, -, -⟩ := hextension.exists_element
    exact hname
  have hread : Gives (readSimpleContent { name, pattern := p } children') k
      { name, pattern := p, attributes := as.map (·.pattern), hasText := true
        dataType := some (.ofName type.text) } k := by
    rw [← readSimpleContent_filter, hderivation, readSimpleContent, hderived]
    exact .bind (gives_readSimpleDerivation hextension name p k) .pure
  rw [readType, markMixed_eq (hkeys "mixed" (by simp [vocabulary])), ← readTypeParts_filter,
    hcontent, readTypeParts]
  simp only [Node.name, hname]
  refine .bind (.bind hread .pure) ?_
  have htag : (Node.element head' children').name = "simpleContent" := hname
  rw [← readAttributes_filter, hcontent, readAttributes_skip htag (by decide)]
  exact .pure

theorem gives_readType_sequence {as : List AttributeDeclaration} {items : List Content} {n : Node}
    (hn : (vocabulary label).Spells (.element "complexType" []
      (.element "sequence" [] items :: as.map (·.xsd label))) n) (name : String) (p : Pattern)
    {es : List ElementPattern} {k k' : Nat}
    (hitems : ∀ ns, (vocabulary label).SpellsAll items ns →
      Gives (readParticles {} { name, pattern := p } ns) k { name, pattern := p, elements := es }
        k') :
    Gives (readType { name, pattern := p } n) k
      { name, pattern := p, attributes := as.map (·.pattern), elements := es } k' := by
  obtain ⟨head, children, rfl, -, -, hkeys, hchildren⟩ := hn.exists_element
  obtain ⟨content, attributes, heq, hspelled, hattributes⟩ := hchildren.cons_left
  obtain ⟨head', children', rfl, -, hname, hbounds, hchildren'⟩ := hspelled.exists_element
  have hoccurs : occursPattern (.element head' children') = .ok {} :=
    occursPattern_eq (m := .once) (hbounds "minOccurs" (by simp [vocabulary]))
      (hbounds "maxOccurs" (by simp [vocabulary]))
  have hread : Gives (readParticle {} { name, pattern := p } (.element head' children')) k
      { name, pattern := p, elements := es } k' := by
    simp only [readParticle, hname]
    refine .bind (hoccurs ▸ gives_ofExcept) ?_
    rw [← readParticles_filter]
    exact hitems _ hchildren'
  rw [readType, markMixed_eq (hkeys "mixed" (by simp [vocabulary])), ← readTypeParts_filter,
    heq, readTypeParts]
  simp only [Node.name, hname]
  refine .bind (.bind hread (gives_readTypeParts hattributes _ k')) ?_
  have htag : (Node.element head' children').name = "sequence" := hname
  rw [← readAttributes_filter, heq, readAttributes_skip htag (by decide)]
  exact gives_readAttributes hattributes _ k'

/-! ## Elements -/

theorem gives_readElement {name : LocalName} {m : Multiplicity} {content : List Content}
    {head : Head} {children : List Node}
    (hn : (vocabulary label).Spells (.element "element" (("name", name.text) :: m.bounds)
      [.element "complexType" [] content]) (.element head children)) (p : Pattern)
    {e : ElementPattern} {k k' : Nat}
    (htype : ∀ n, (vocabulary label).Spells (.element "complexType" [] content) n →
      Gives (readType { name := name.text, pattern := p } n) k e k') :
    Gives (readElement (fun e => readTypeChild e children) p (.element head children)) k e k' := by
  rw [Vocabulary.Spells] at hn
  obtain ⟨-, -, hkeys, hchildren⟩ := hn
  obtain ⟨complex, heq, hcomplex⟩ := hchildren.singleton_left
  have hcomplexName : complex.name = "complexType" := by
    obtain ⟨_, _, rfl, -, hname, -, -⟩ := hcomplex.exists_element
    exact hname
  have hname : requiredAttribute (.element head children) "name" = .ok name.text := by
    rw [requiredAttribute, hkeys "name" (by simp [vocabulary])]
    rfl
  have htypeless : (Node.element head children).attribute? "type" = none := by
    rw [hkeys "type" (by simp [vocabulary])]
    exact lookup_bounds m (by decide) (by decide)
  have hchild : ((Node.element head children).child? "complexType").isSome = true := by
    rw [child?_filter head children (by decide), heq]
    simp [hcomplexName]
  simp only [readElement, htypeless, hchild]
  refine .bind (hname ▸ gives_ofExcept) ?_
  rw [← readTypeChild_filter, heq, readTypeChild, if_pos hcomplexName]
  exact htype complex hcomplex

theorem gives_readElement_typed {name : LocalName} {type : TypeName} {m : Multiplicity}
    {head : Head} {children : List Node}
    (hn : (vocabulary label).Spells (.element "element"
      (("name", name.text) :: ("type", type.qualified label) :: m.bounds) [])
      (.element head children)) (p : Pattern) (k : Nat) :
    Gives (readElement (fun e => readTypeChild e children) p (.element head children)) k
      { name := name.text, pattern := p, hasText := true
        dataType := some (.ofName type.text) } k := by
  rw [Vocabulary.Spells] at hn
  obtain ⟨haccepts, -, hkeys, -⟩ := hn
  have hname : requiredAttribute (.element head children) "name" = .ok name.text := by
    rw [requiredAttribute, hkeys "name" (by simp [vocabulary])]
    rfl
  have htype : (Node.element head children).attribute? "type" = some (type.qualified label) :=
    hkeys "type" (by simp [vocabulary])
  simp only [readElement, htype]
  exact .bind (hname ▸ gives_ofExcept) (.bind (gives_simpleNamed haccepts children type k) .pure)

theorem xsd_eq_element (label : LocalName) (m : Multiplicity) (d : Declaration) : ∃ attributes content,
    d.xsd label m = .element "element" (("name", d.name.text) :: attributes) content ∧
      attributes.lookup "ref" = none ∧
      attributes.lookup "minOccurs" = m.bounds.lookup "minOccurs" ∧
      attributes.lookup "maxOccurs" = m.bounds.lookup "maxOccurs" := by
  have href : m.bounds.lookup "ref" = none := lookup_bounds m (by decide) (by decide)
  cases d with
  | scalar name attributes type =>
    rw [Declaration.xsd]
    split
    · exact ⟨_, _, rfl, href, rfl, rfl⟩
    · exact ⟨_, _, rfl, href, rfl, rfl⟩
  | record name attributes items =>
    rw [Declaration.xsd]
    exact ⟨_, _, rfl, href, rfl, rfl⟩

mutual

theorem gives_declaration (m : Multiplicity) (p : Pattern) (k : Nat) : ∀ (d : Declaration)
    ⦃head : Head⦄ ⦃children : List Node⦄,
    (vocabulary label).Spells (d.xsd label m) (.element head children) →
    Gives (readElement (fun e => readTypeChild e children) p (.element head children)) k
      (d.element p k).1 (d.element p k).2
  | .scalar name attributes type => by
    intro head children hn
    rw [Declaration.xsd] at hn
    rw [Declaration.element]
    cases attributes with
    | nil => exact gives_readElement_typed hn p k
    | cons a as =>
      exact gives_readElement hn p fun n hn => gives_readType_simple hn name.text p k
  | .record name attributes items => by
    intro head children hn
    rw [Declaration.xsd] at hn
    rw [Declaration.element]
    refine gives_readElement hn p fun n hn => gives_readType_sequence hn name.text p ?_
    intro ns hns
    exact gives_items {} k items hns _

theorem gives_item (p : Pattern) (k : Nat) : ∀ (i : Item) ⦃n : Node⦄,
    (vocabulary label).Spells (i.xsd label) n → ∀ target : ElementPattern,
    Gives (readParticle p target n) k
      { target with elements := target.elements ++ (i.elements p k).1 } (i.elements p k).2
  | .child m d => by
    intro n hn target
    rw [Item.xsd] at hn
    obtain ⟨attributes, content, heq, href, hmin, hmax⟩ := xsd_eq_element label m d
    have hspelled := hn
    rw [heq] at hspelled
    obtain ⟨head, children, rfl, -, hname, hkeys, -⟩ := hspelled.exists_element
    have hoccurs : occursPattern (.element head children) = .ok (m.under {}) :=
      occursPattern_eq ((hkeys "minOccurs" (by simp [vocabulary])).trans hmin)
        ((hkeys "maxOccurs" (by simp [vocabulary])).trans hmax)
    have hreference : (Node.element head children).attribute? "ref" = none :=
      (hkeys "ref" (by simp [vocabulary])).trans href
    simp only [readParticle, hname, hreference]
    refine .bind (hoccurs ▸ gives_ofExcept) ?_
    rw [merge_under, Item.elements]
    exact .bind (gives_declaration m (m.under p) k d hn) .pure
  | .choice m alternatives => by
    intro n hn target
    rw [Item.xsd] at hn
    obtain ⟨head, children, rfl, -, hname, hkeys, hchildren⟩ := hn.exists_element
    have hoccurs : occursPattern (.element head children) = .ok (m.under {}) :=
      occursPattern_eq (hkeys "minOccurs" (by simp [vocabulary]))
        (hkeys "maxOccurs" (by simp [vocabulary]))
    simp only [readParticle, hname]
    refine .bind (.lift ReadM.gives_nextChoice) (.bind (hoccurs ▸ gives_ofExcept) ?_)
    rw [merge_under, Item.elements, ← readParticles_filter]
    exact gives_items _ (k + 1) alternatives hchildren target

theorem gives_items (p : Pattern) (k : Nat) : ∀ (is : List Item) ⦃ns : List Node⦄,
    (vocabulary label).SpellsAll (Item.xsdAll label is) ns → ∀ target : ElementPattern,
    Gives (readParticles p target ns) k
      { target with elements := target.elements ++ (Item.elementsAll p k is).1 }
      (Item.elementsAll p k is).2
  | [] => by
    intro ns hns target
    rw [Item.xsdAll] at hns
    rw [hns.nil_left, readParticles, Item.elementsAll, List.append_nil]
    cases target
    exact .pure
  | i :: is => by
    intro ns hns target
    rw [Item.xsdAll] at hns
    obtain ⟨m, ms, rfl, hm, hms⟩ := hns.cons_left
    rw [readParticles, Item.elementsAll]
    refine .bind (gives_item p k i hm target) ?_
    have hrest := gives_items p (i.elements p k).2 is hms
      { target with elements := target.elements ++ (i.elements p k).1 }
    simpa using hrest

end

/-! ## Schemas -/

theorem readSchemas_single {head head' : Head} {children children' : List Node}
    (heq : children.filter (·.isElement) = [.element head' children'])
    (htag : head'.name = "element") : readSchemas {} [.element head children] =
      readGlobal {} (.element head' children') := by
  have hnote : noteSimpleTypes children = pure () := by
    rw [← noteSimpleTypes_filter, heq, noteSimpleTypes, Node.name, htag]
    rfl
  have hglobals : readGlobals {} children = readGlobal {} (.element head' children') := by
    rw [← readGlobals_filter, heq, readGlobals]
    exact bind_pure _
  rw [readSchemas, readSchema, Node.children, hnote, hglobals, pure_bind]
  exact bind_pure _

/-- **A global element becomes a definition**, and the start refers to it. -/
theorem run_readGlobal {d : Declaration} {head : Head} {children : List Node}
    (hn : (vocabulary label).Spells (d.xsd label .once) (.element head children)) :
    ∃ notices, ((readGlobal {} (.element head children)).run {}).run {} =
      (.ok ({ references := [{ name := d.name.text }] }, {}),
        { definitions := Definitions.add {} d.name.text
            { name := d.name.text, elements := [(d.element {} 0).1] }
          choices := (d.element {} 0).2, notices }) := by
  obtain ⟨notices, hrun⟩ := gives_declaration .once {} 0 d hn {} {} rfl
  obtain ⟨attributes, content, hxsd, -, -, -⟩ := xsd_eq_element label .once d
  rw [hxsd, Vocabulary.Spells] at hn
  obtain ⟨-, htag, hkeys, -⟩ := hn
  have hname : requiredAttribute (.element head children) "name" = .ok d.name.text := by
    rw [requiredAttribute, hkeys "name" (by simp [vocabulary])]
    rfl
  have hread : readGlobal {} (.element head children) = (do
      let element ← readElement (fun e => readTypeChild e children) {} (.element head children)
      ReadM.define d.name.text { name := d.name.text, elements := [element] }
      return refer {} d.name.text : XsdM ElementPattern) := by
    simp only [readGlobal, htag, hname]
    rfl
  refine ⟨notices, ?_⟩
  rw [hread, StateT.run_bind, ReadM.run_bind, hrun]
  rfl

/-- **The grammar of a declaration in XML Schema** starts with a reference to the
    definition of its element. -/
theorem readGrammar_spelled {d : Declaration} {n : Node}
    (hn : (vocabulary label).Spells (d.schema label) n) :
    (readGrammar none n).1 = .ok
      { start := { references := [{ name := d.name.text }] }
        definitions := Definitions.add {} d.name.text
          { name := d.name.text, elements := [(d.element {} 0).1] } } := by
  obtain ⟨head, children, rfl, -, hname, -, hchildren⟩ := hn.exists_element
  obtain ⟨declared, heq, hdeclared⟩ := hchildren.singleton_left
  obtain ⟨attributes, content, hxsd, -, -, -⟩ := xsd_eq_element label .once d
  obtain ⟨head', children', rfl, -, htag, -, -⟩ := (hxsd ▸ hdeclared).exists_element
  obtain ⟨notices, hglobal⟩ := run_readGlobal hdeclared
  have hdialect : Dialect.ofRoot? (.element head children) = some .xsd := by
    simp only [Dialect.ofRoot?, Node.name, hname]
  have hread : (read (.element head children)).run {} =
      ((readGlobal {} (.element head' children')).run {} >>= fun found => pure found.1).run {} := by
    rw [read, readSchemas_single heq htag]
    rfl
  have hreader : (Dialect.xsd.reader (.element head children)).run {} =
      (.ok { references := [{ name := d.name.text }] },
        { definitions := Definitions.add {} d.name.text
            { name := d.name.text, elements := [(d.element {} 0).1] }
          choices := (d.element {} 0).2, notices }) := by
    rw [Dialect.reader, hread, ReadM.run_bind, hglobal]
    rfl
  simp only [readGrammar, hdialect, Option.orElse_eq_orElse, Option.orElse_eq_or, Option.none_or,
    hreader]
  rfl

end

end Bindery.Schema.Xsd
