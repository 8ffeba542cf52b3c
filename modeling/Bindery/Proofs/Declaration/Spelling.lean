/-
  Declarations of elements, and how grammar languages spell them.

  A declaration says what an element has, in no language: attributes, and
  either a datatype or a sequence of items.  `Declaration.relaxNg` and
  `Declaration.schema` are its spellings in RelaxNG and in XML Schema, and
  `Declaration.element` is the element pattern that it stands for.

  * `Vocabulary.Spells`: whether a tree spells content in a language.  Blanks,
    comments, attributes that the language does not look at and positions may
    be anything;
  * `LocalName.trim_text`: no blank stands at the ends of a name, but for the
    one character that is a blank and a name character;
  * `Declaration.plain_element`: there is nothing to resolve in the pattern of
    a declaration.
-/
import Bindery.Markup.Writer
import Bindery.Proofs.Document.Identifier
import Bindery.Proofs.Markup.Lexing
import Bindery.Proofs.Resolution.Settled
import Bindery.Proofs.Text.Whitespace
import Bindery.Schema.Dialect

namespace Bindery.Schema

open Markup (Content Node Head)

/-! ## Declarations -/

structure LocalName where
  text : String
  isName : Markup.isLocalName text = true

/-- The name of a datatype.  The type of all content is none. -/
structure TypeName extends LocalName where
  isDataType : text ≠ "anyType"

inductive Multiplicity where
  | once
  | optional
  | zeroOrMore
  | oneOrMore
deriving DecidableEq

structure AttributeDeclaration where
  name : LocalName
  required : Bool
  type : TypeName

mutual

/-- The declaration of an element: its attributes, and a datatype or a sequence
    of items. -/
inductive Declaration where
  | scalar (name : LocalName) (attributes : List AttributeDeclaration) (type : TypeName)
  | record (name : LocalName) (attributes : List AttributeDeclaration) (items : List Item)

/-- An element or a choice, and how often it occurs. -/
inductive Item where
  | child (m : Multiplicity) (d : Declaration)
  | choice (m : Multiplicity) (alternatives : List Item)

end

def Declaration.name : Declaration → LocalName
  | .scalar name _ _ => name
  | .record name _ _ => name

mutual

def Declaration.names : Declaration → List LocalName
  | .scalar name attributes _ => name :: attributes.map (·.name)
  | .record name attributes items => name :: attributes.map (·.name) ++ Item.namesAll items

def Item.names : Item → List LocalName
  | .child _ d => d.names
  | .choice _ alternatives => Item.namesAll alternatives

def Item.namesAll : List Item → List LocalName
  | [] => []
  | i :: is => i.names ++ Item.namesAll is

end

/-! ## The pattern of a declaration -/

/-- The modifiers of an item inside others. -/
def Multiplicity.under (p : Pattern) : Multiplicity → Pattern
  | once => p
  | optional => { p with optional := true }
  | zeroOrMore => { p with zeroOrMore := true }
  | oneOrMore => { p with oneOrMore := true }

def AttributeDeclaration.multiplicity (a : AttributeDeclaration) : Multiplicity :=
  if a.required then .once else .optional

def AttributeDeclaration.pattern (a : AttributeDeclaration) : AttributePattern :=
  { AttributePattern.under a.name.text (a.multiplicity.under {}) with
    dataType := some (.ofName a.type.text) }

mutual

/-- The pattern of an element that occurs under `p`, if `k` choices came
    before it, and the number of choices then. -/
def Declaration.element (p : Pattern) (k : Nat) : Declaration → ElementPattern × Nat
  | .scalar name attributes type =>
    ({ name := name.text, pattern := p, attributes := attributes.map (·.pattern), hasText := true
       dataType := some (.ofName type.text) }, k)
  | .record name attributes items =>
    ({ name := name.text, pattern := p, attributes := attributes.map (·.pattern)
       elements := (Item.elementsAll {} k items).1 }, (Item.elementsAll {} k items).2)

def Item.elements (p : Pattern) (k : Nat) : Item → List ElementPattern × Nat
  | .child m d => ([(d.element (m.under p) k).1], (d.element (m.under p) k).2)
  | .choice m alternatives =>
    Item.elementsAll ((m.under p).inChoice (k + 1)) (k + 1) alternatives

def Item.elementsAll (p : Pattern) (k : Nat) : List Item → List ElementPattern × Nat
  | [] => ([], k)
  | i :: is =>
    ((i.elements p k).1 ++ (Item.elementsAll p (i.elements p k).2 is).1,
      (Item.elementsAll p (i.elements p k).2 is).2)

end

theorem Declaration.pattern_element (p : Pattern) (k : Nat) (d : Declaration) :
    (d.element p k).1.pattern = p := by
  cases d <;> simp only [element]

/-! ## RelaxNG -/

def Multiplicity.wrap (c : Content) : Multiplicity → Content
  | once => c
  | optional => .element "optional" [] [c]
  | zeroOrMore => .element "zeroOrMore" [] [c]
  | oneOrMore => .element "oneOrMore" [] [c]

def TypeName.relaxNg (t : TypeName) : Content := .element "data" [("type", t.text)] []

def AttributeDeclaration.relaxNg (a : AttributeDeclaration) : Content :=
  a.multiplicity.wrap (.element "attribute" [("name", a.name.text)] [a.type.relaxNg])

mutual

def Declaration.relaxNg : Declaration → Content
  | .scalar name attributes type =>
    .element "element" [("name", name.text)] (attributes.map (·.relaxNg) ++ [type.relaxNg])
  | .record name attributes items =>
    .element "element" [("name", name.text)]
      (attributes.map (·.relaxNg) ++ Item.relaxNgAll items)

def Item.relaxNg : Item → Content
  | .child m d => m.wrap d.relaxNg
  | .choice m alternatives => m.wrap (.element "choice" [] (Item.relaxNgAll alternatives))

def Item.relaxNgAll : List Item → List Content
  | [] => []
  | i :: is => i.relaxNg :: Item.relaxNgAll is

end

/-! ## XML Schema -/

def Multiplicity.bounds : Multiplicity → List (String × String)
  | once => []
  | optional => [("minOccurs", "0")]
  | zeroOrMore => [("minOccurs", "0"), ("maxOccurs", "unbounded")]
  | oneOrMore => [("maxOccurs", "unbounded")]

/-- The name of a type with the prefix of the namespace of XML Schema. -/
def TypeName.qualified (label : LocalName) (t : TypeName) : String := label.text ++ ":" ++ t.text

def AttributeDeclaration.xsd (label : LocalName) (a : AttributeDeclaration) : Content :=
  .element "attribute" (("name", a.name.text) :: ("type", a.type.qualified label) ::
    if a.required then [("use", "required")] else []) []

def simpleContentType (label : LocalName) (attributes : List AttributeDeclaration)
    (type : TypeName) : Content :=
  .element "complexType" [] [.element "simpleContent" [] [.element "extension"
    [("base", type.qualified label)] (attributes.map (·.xsd label))]]

mutual

def Declaration.xsd (label : LocalName) (m : Multiplicity) : Declaration → Content
  | .scalar name attributes type =>
    if attributes.isEmpty then
      .element "element" (("name", name.text) :: ("type", type.qualified label) :: m.bounds) []
    else
      .element "element" (("name", name.text) :: m.bounds)
        [simpleContentType label attributes type]
  | .record name attributes items =>
    .element "element" (("name", name.text) :: m.bounds) [.element "complexType" []
      (.element "sequence" [] (Item.xsdAll label items) :: attributes.map (·.xsd label))]

def Item.xsd (label : LocalName) : Item → Content
  | .child m d => d.xsd label m
  | .choice m alternatives => .element "choice" m.bounds (Item.xsdAll label alternatives)

def Item.xsdAll (label : LocalName) : List Item → List Content
  | [] => []
  | i :: is => i.xsd label :: Item.xsdAll label is

end

def Declaration.schema (label : LocalName) (d : Declaration) : Content :=
  .element "schema" [] [d.xsd label .once]

/-! ## Trees that spell content -/

/-- What a grammar language looks at: the elements that belong to it, and the
    attributes that it knows. -/
structure Vocabulary where
  accepts : Head → Prop
  keys : List String

mutual

def Vocabulary.Spells (v : Vocabulary) : Content → Node → Prop
  | .element tag attributes content, .element head children =>
    v.accepts head ∧ head.name = tag ∧
      (∀ key ∈ v.keys, (Node.element head children).attribute? key = attributes.lookup key) ∧
      v.SpellsAll content (children.filter (·.isElement))
  | _, _ => False

def Vocabulary.SpellsAll (v : Vocabulary) : List Content → List Node → Prop
  | [], [] => True
  | c :: cs, n :: ns => v.Spells c n ∧ v.SpellsAll cs ns
  | _, _ => False

end

/-- The vocabulary of RelaxNG.  Elements without a namespace are read too. -/
def RelaxNg.vocabulary : Vocabulary where
  accepts head := ∀ space ∈ head.space, space = RelaxNg.uri
  keys := ["name", "type"]

/-- The vocabulary of XML Schema, where `label` stands for its namespace. -/
def Xsd.vocabulary (label : LocalName) : Vocabulary where
  accepts head := (head.scope.find? (·.label == some label.text)).map (·.uri) = some xsUri
  keys := ["name", "ref", "type", "base", "use", "mixed", "minOccurs", "maxOccurs"]

section
variable {v : Vocabulary}

theorem Vocabulary.Spells.exists_element {tag : String} {attributes : List (String × String)}
    {content : List Content} {n : Node} (h : v.Spells (.element tag attributes content) n) :
    ∃ head children, n = .element head children ∧ v.accepts head ∧ head.name = tag ∧
      (∀ key ∈ v.keys, n.attribute? key = attributes.lookup key) ∧
      v.SpellsAll content (children.filter (·.isElement)) := by
  cases n with
  | element head children =>
    rw [Vocabulary.Spells] at h
    exact ⟨head, children, rfl, h⟩
  | text | comment | instruction => simp [Vocabulary.Spells] at h

theorem Vocabulary.SpellsAll.nil_left {ns : List Node} (h : v.SpellsAll [] ns) : ns = [] := by
  cases ns with
  | nil => rfl
  | cons => simp [Vocabulary.SpellsAll] at h

theorem Vocabulary.SpellsAll.cons_left {c : Content} {cs : List Content} {ns : List Node}
    (h : v.SpellsAll (c :: cs) ns) : ∃ m ms, ns = m :: ms ∧ v.Spells c m ∧ v.SpellsAll cs ms := by
  cases ns with
  | nil => simp [Vocabulary.SpellsAll] at h
  | cons m ms =>
    rw [Vocabulary.SpellsAll] at h
    exact ⟨m, ms, rfl, h⟩

theorem Vocabulary.SpellsAll.singleton_left {c : Content} {ns : List Node}
    (h : v.SpellsAll [c] ns) : ∃ m, ns = [m] ∧ v.Spells c m := by
  obtain ⟨m, ms, rfl, hm, hms⟩ := h.cons_left
  rw [hms.nil_left]
  exact ⟨m, rfl, hm⟩

theorem Vocabulary.SpellsAll.append_left {cs ds : List Content} {ns : List Node}
    (h : v.SpellsAll (cs ++ ds) ns) :
    ∃ ns₁ ns₂, ns = ns₁ ++ ns₂ ∧ v.SpellsAll cs ns₁ ∧ v.SpellsAll ds ns₂ := by
  induction cs generalizing ns with
  | nil => exact ⟨[], ns, rfl, by simp [Vocabulary.SpellsAll], h⟩
  | cons c cs ih =>
    obtain ⟨m, ms, rfl, hm, hms⟩ := Vocabulary.SpellsAll.cons_left h
    obtain ⟨ns₁, ns₂, rfl, h₁, h₂⟩ := ih hms
    exact ⟨m :: ns₁, ns₂, rfl, by simp [Vocabulary.SpellsAll, hm, h₁], h₂⟩

end

/-! ## Names -/

/-- Whether the name begins and ends with characters that are no blanks.  Of
    the characters in names, only the Ogham space mark is a blank. -/
def LocalName.Solid (name : LocalName) : Prop :=
  name.text.toList.head? ≠ some (Char.ofNat 0x1680) ∧
    name.text.toList.getLast? ≠ some (Char.ofNat 0x1680)

theorem eq_oghamSpace {c : Char} (hname : Markup.isNameChar c = true)
    (hblank : Text.isBlank c = true) : c = Char.ofNat 0x1680 := by
  have hcode : c.toNat ∈ [9, 10, 11, 12, 13, 0x20, 0x85, 0xa0, 0x1680, 0x2000, 0x2001, 0x2002,
      0x2003, 0x2004, 0x2005, 0x2006, 0x2007, 0x2008, 0x2009, 0x200a, 0x2028, 0x2029, 0x202f,
      0x205f, 0x3000] := by
    simp only [Text.isBlank, Bool.or_eq_true, Bool.and_eq_true, decide_eq_true_eq,
      beq_iff_eq] at hblank
    simp only [List.mem_cons, List.not_mem_nil, or_false]
    omega
  have hothers : ∀ n ∈ [9, 10, 11, 12, 13, 0x20, 0x85, 0xa0, 0x1680, 0x2000, 0x2001, 0x2002,
      0x2003, 0x2004, 0x2005, 0x2006, 0x2007, 0x2008, 0x2009, 0x200a, 0x2028, 0x2029, 0x202f,
      0x205f, 0x3000], n = 0x1680 ∨ Markup.isNameChar (Char.ofNat n) = false := by
    decide
  rw [← Char.ofNat_toNat c] at hname ⊢
  rcases hothers _ hcode with heq | hnot
  · rw [heq]
  · rw [hnot] at hname
    cases hname

theorem localName_of_not_mem {s : String} (h : ':' ∉ s.toList) : localName s = s := by
  have hnot : ':' ∉ s.toList.reverse := fun hm => h (List.mem_reverse.1 hm)
  have hall : s.toList.reverse.takeWhile (· != ':') = s.toList.reverse := by
    calc s.toList.reverse.takeWhile (· != ':')
        = (s.toList.reverse ++ []).takeWhile (· != ':') := by rw [List.append_nil]
      _ = s.toList.reverse := takeWhile_mark hnot (by simp)
  rw [localName, hall, List.reverse_reverse, String.ofList_toList]

theorem localName_append {label s : String} (h : ':' ∉ s.toList) :
    localName (label ++ ":" ++ s) = s := by
  have hchars : (label ++ ":" ++ s).toList.reverse =
      s.toList.reverse ++ ':' :: label.toList.reverse := by simp
  have hnot : ':' ∉ s.toList.reverse := fun hm => h (List.mem_reverse.1 hm)
  rw [localName, hchars, takeWhile_mark hnot (by rintro x ⟨⟩; rfl), List.reverse_reverse,
    String.ofList_toList]

namespace LocalName

theorem not_mem_colon (name : LocalName) : ':' ∉ name.text.toList := by
  obtain ⟨-, -, -, -, hchars⟩ := Markup.isLocalName_cons name.isName
  exact fun hm => (hchars ':' hm).2 rfl

theorem text_ne_empty (name : LocalName) : name.text ≠ "" := by
  obtain ⟨x, cs, hname, -⟩ := Markup.isLocalName_cons name.isName
  intro heq
  rw [heq] at hname
  cases hname

theorem trim_text {name : LocalName} (h : name.Solid) : Text.trim name.text = name.text := by
  obtain ⟨-, -, -, -, hchars⟩ := Markup.isLocalName_cons name.isName
  have hsolid : ∀ c ∈ name.text.toList, c ≠ Char.ofNat 0x1680 → Text.isBlank c = false := by
    intro c hc hne
    rw [Bool.eq_false_iff]
    exact fun hblank => hne (eq_oghamSpace (hchars c hc).1 hblank)
  rw [Text.trim, Text.trimChars_of_ends, String.ofList_toList]
  · intro c hc
    refine hsolid c (List.mem_of_mem_head? hc) ?_
    rintro rfl
    exact h.1 hc
  · intro c hc
    refine hsolid c (List.mem_of_mem_getLast? hc) ?_
    rintro rfl
    exact h.2 hc

end LocalName

/-! ## Nothing to resolve -/

/-- Whether there are no references in the element and below it. -/
def ElementPattern.Plain (e : ElementPattern) : Prop :=
  ∀ x ∈ e.walk, x.references = [] ∧ ∀ a ∈ x.attributes, a.valueReference = none

theorem ElementPattern.plain_iff {e : ElementPattern} : e.Plain ↔
    (e.references = [] ∧ ∀ a ∈ e.attributes, a.valueReference = none) ∧
      ∀ c ∈ e.elements, c.Plain :=
  forall_mem_walk

theorem ElementPattern.Plain.settled {e : ElementPattern} (h : e.Plain) : e.Settled := by
  intro x hx
  obtain ⟨hreferences, hvalues⟩ := h x hx
  refine ⟨fun r hr => ?_, hvalues⟩
  rw [hreferences] at hr
  cases hr

theorem valueReference_pattern {attributes : List AttributeDeclaration} {a : AttributePattern}
    (h : a ∈ attributes.map (·.pattern)) : a.valueReference = none := by
  obtain ⟨b, -, rfl⟩ := List.mem_map.1 h
  rfl

mutual

/-- **The pattern of a declaration has no references.** -/
theorem Declaration.plain_element (p : Pattern) (k : Nat) :
    ∀ d : Declaration, (d.element p k).1.Plain
  | .scalar name attributes type => by
    rw [Declaration.element, ElementPattern.plain_iff]
    exact ⟨⟨rfl, fun a ha => valueReference_pattern ha⟩, by simp⟩
  | .record name attributes items => by
    rw [Declaration.element, ElementPattern.plain_iff]
    exact ⟨⟨rfl, fun a ha => valueReference_pattern ha⟩, Item.plain_elementsAll {} k items⟩

theorem Item.plain_elements (p : Pattern) (k : Nat) :
    ∀ i : Item, ∀ e ∈ (i.elements p k).1, e.Plain
  | .child m d => by
    rw [Item.elements]
    intro e he
    rw [List.mem_singleton.1 he]
    exact d.plain_element (m.under p) k
  | .choice m alternatives => by
    rw [Item.elements]
    exact Item.plain_elementsAll _ _ alternatives

theorem Item.plain_elementsAll (p : Pattern) (k : Nat) :
    ∀ is : List Item, ∀ e ∈ (Item.elementsAll p k is).1, e.Plain
  | [] => by simp [Item.elementsAll]
  | i :: is => by
    rw [Item.elementsAll]
    intro e he
    rcases List.mem_append.1 he with he | he
    · exact i.plain_elements p k e he
    · exact Item.plain_elementsAll p _ is e he

end

end Bindery.Schema
