/-
  Comments in a grammar.

  The reader of a grammar takes the elements among the children of a node and
  passes over everything else, but for the text that a value or a name begins
  with: it ends at the first comment.

  * `gist`: a node reduced to what is read of it;
  * `inStep_read`: a grammar is read as its gist is;
  * `Commented`: trees in which a comment was inserted;
  * `comments_do_not_matter`: a comment changes nothing, unless it cuts the text
    of a value or of a name;
  * `comments_cut_text`: comments that do.
-/
import Bindery.Proofs.Declaration.RelaxNg
import Bindery.Proofs.Sections.InStep

namespace Bindery.Schema

open Markup (Node Head)

theorem trim_trim (s : String) : Text.trim (Text.trim s) = Text.trim s := by
  have hfirst : ∀ (cs : List Char), ∀ c ∈ (cs.dropWhile Text.isBlank).head?,
      Text.isBlank c = false := by
    intro cs c hc
    have hnot := List.head?_dropWhile_not Text.isBlank cs
    rwa [hc] at hnot
  rw [Text.trim, Text.trim, String.toList_ofList, Text.trimChars_of_ends]
  · -- what is left at the end is a part of what was left at the beginning
    intro c hc
    obtain ⟨kept, hkept⟩ := List.head?_eq_some_iff.1 hc
    have hpart : Text.trimChars s.toList <+: s.toList.dropWhile Text.isBlank :=
      List.reverse_suffix.1 (by
        rw [Text.trimChars, List.reverse_reverse]
        exact List.dropWhile_suffix _)
    obtain ⟨cut, hcut⟩ := hkept ▸ hpart
    exact hfirst s.toList c (by rw [← hcut]; rfl)
  · intro c hc
    rw [Text.trimChars, List.getLast?_reverse] at hc
    exact hfirst _ c hc

namespace RelaxNg

/-! ## What is read of a node -/

/-- The text that is read of a node which begins with `text`. -/
def leadOf (head : Head) (text : Option String) : List Node :=
  match Construct.ofHead head with
  | .value => [.text (Text.trim (text.getD ""))]
  | .name => (text.map fun t => Node.text (Text.trim t)).toList
  | _ => []

mutual

/-- A node reduced to what is read of it. -/
def gist : Node → Node
  | .element head children =>
    .element { head with pos := {} }
      (leadOf head (Node.element head children).text? ++ (gistAll children).filter (·.isElement))
  | .text content => .text content
  | .comment content => .comment content
  | .instruction => .instruction

def gistAll : List Node → List Node
  | [] => []
  | n :: ns => gist n :: gistAll ns

end

theorem gistAll_eq_map (ns : List Node) : gistAll ns = ns.map gist := by
  induction ns with
  | nil => rfl
  | cons n ns ih => rw [gistAll, ih, List.map_cons]

@[simp]
theorem attribute?_gist (n : Node) (name : String) :
    (gist n).attribute? name = n.attribute? name := by
  cases n <;> rfl

@[simp]
theorem isName_gist (n : Node) : isName (gist n) = isName n := by
  cases n <;> rfl

theorem leadOf_isElement (head : Head) (text : Option String) :
    (leadOf head text).filter (·.isElement) = [] := by
  rw [leadOf]
  split
  · rfl
  · cases text <;> rfl
  · rfl

theorem children_gist (n : Node) :
    (gist n).children.filter (·.isElement) = (gistAll n.children).filter (·.isElement) := by
  cases n with
  | element head children =>
    rw [gist, Node.children, List.filter_append, leadOf_isElement, List.nil_append,
      List.filter_filter]
    simp only [Bool.and_self]
    rfl
  | text | comment | instruction => rfl

theorem text?_of_elements {head : Head} {ns : List Node} (h : ∀ n ∈ ns, n.isElement = true) :
    (Node.element head ns).text? = none := by
  cases ns with
  | nil => rfl
  | cons n ns =>
    cases n with
    | element head' children => rfl
    | text | comment | instruction => cases h _ List.mem_cons_self

theorem text?_gist_of_isName {n : Node} (h : isName n = true) :
    (gist n).text? = n.text?.map Text.trim := by
  cases n with
  | text | comment | instruction => cases h
  | element head children =>
    have hhead : Construct.ofHead head = .name := by simpa [isName] using h
    rw [gist, leadOf, hhead]
    cases htext : (Node.element head children).text? with
    | some t => rfl
    | none => exact text?_of_elements fun n hn => (List.mem_filter.1 hn).2

theorem patternName_gist (n : Node) :
    (patternName (gist n)).toOption = (patternName n).toOption := by
  have helement : ∀ k : Node, isName k = true → k.isElement = true := by
    intro k hk
    cases k with
    | element head children => rfl
    | text | comment | instruction => cases hk
  have hfind : ∀ ns : List Node, (ns.filter (·.isElement)).find? isName = ns.find? isName := by
    intro ns
    rw [List.find?_filter]
    refine congrArg (List.find? · ns) (funext fun k => ?_)
    cases hk : isName k with
    | true => simp [helement k hk]
    | false => simp
  have hchild : (gist n).children.find? isName = (n.children.find? isName).map gist := by
    rw [← hfind, children_gist, hfind, gistAll_eq_map, List.find?_map]
    simp only [Function.comp_def, isName_gist]
  have htext : ((gist n).children.find? isName).bind Node.text? =
      ((n.children.find? isName).bind Node.text?).map Text.trim := by
    rw [hchild]
    cases hk : n.children.find? isName with
    | none => rfl
    | some k => exact text?_gist_of_isName (List.find?_some hk)
  rw [patternName, patternName, attribute?_gist, htext]
  cases n.attribute? "name" with
  | some name => rfl
  | none =>
    cases (n.children.find? isName).bind Node.text? with
    | none => rfl
    | some name => exact congrArg (some ∘ localName) (trim_trim name)

theorem requiredAttribute_gist (n : Node) (name : String) :
    (requiredAttribute (gist n) name).toOption = (requiredAttribute n name).toOption := by
  simp only [requiredAttribute, attribute?_gist]
  cases n.attribute? name <;> rfl

/-! ## Reading -/

mutual

theorem inStep_readPattern (p : Pattern) (target : ElementPattern) : ∀ n : Node,
    ReadM.InStep Eq Eq (readPattern p target n) (readPattern p target (gist n))
  | .text _ | .comment _ | .instruction => .refl _
  | .element head children => by
    have hname := ReadM.InStep.ofExcept (E := Eq) (patternName_gist (.element head children))
    have hrequired := fun key =>
      ReadM.InStep.ofExcept (E := Eq) (requiredAttribute_gist (.element head children) key)
    have hchildren : ∀ p target, ReadM.InStep Eq Eq (readPatterns p target children)
        (readPatterns p target (gist (.element head children)).children) := by
      intro p target
      rw [← readPatterns_filter p target (gist _).children, children_gist, readPatterns_filter]
      exact inStep_readPatterns p target children
    have hvalue : Construct.ofHead head = .value →
        Text.trim ((gist (.element head children)).text?.getD "") =
          Text.trim ((Node.element head children).text?.getD "") := by
      intro hhead
      rw [gist, leadOf, hhead]
      exact trim_trim _
    rw [gist] at hname hrequired hchildren hvalue ⊢
    rw [readPattern, readPattern]
    have hsame : Construct.ofHead { head with pos := {} } = Construct.ofHead head := rfl
    simp only [hsame]
    cases hhead : Construct.ofHead head with
    | element =>
      refine .bind hname ?_
      rintro name _ rfl
      refine .bind (hchildren _ _) ?_
      rintro content _ rfl
      exact .refl _
    | attr =>
      refine .bind hname ?_
      rintro name _ rfl
      refine .bind (hchildren _ _) ?_
      rintro content _ rfl
      exact .refl _
    | ref =>
      refine .bind (hrequired "name") ?_
      rintro name _ rfl
      exact .refl _
    | optional | zeroOrMore | oneOrMore | group | interleave | mixed => exact hchildren _ _
    | choice =>
      refine .bind (.refl _) ?_
      rintro group _ rfl
      exact hchildren _ _
    | list =>
      refine .bind (hchildren _ _) ?_
      rintro content _ rfl
      exact .refl _
    | data =>
      refine .bind (hrequired "type") ?_
      rintro type _ rfl
      exact .refl _
    | value =>
      simp only [hvalue hhead]
      exact .refl _
    | text | empty | name | foreign | unknown | grammar | start | define | div | inclusion
      | parentRef | notAllowed => exact .refl _

theorem inStep_readPatterns (p : Pattern) (target : ElementPattern) : ∀ ns : List Node,
    ReadM.InStep Eq Eq (readPatterns p target ns) (readPatterns p target (gistAll ns))
  | [] => .refl _
  | n :: ns => by
    rw [gistAll, readPatterns, readPatterns]
    refine .bind (inStep_readPattern p target n) ?_
    rintro target _ rfl
    exact inStep_readPatterns p target ns

end

theorem inStep_children (p : Pattern) (target : ElementPattern) (n : Node) :
    ReadM.InStep Eq Eq (readPatterns p target n.children)
      (readPatterns p target (gist n).children) := by
  rw [← readPatterns_filter p target (gist n).children, children_gist, readPatterns_filter]
  exact inStep_readPatterns p target n.children

theorem inStep_readDefine (n : Node) : ReadM.InStep Eq Eq (readDefine n) (readDefine (gist n)) := by
  refine .bind (.ofExcept (requiredAttribute_gist n "name")) ?_
  rintro name _ rfl
  refine .bind (inStep_children _ _ n) ?_
  rintro body _ rfl
  exact .refl _

theorem readParts_filter (start : Option ElementPattern) (ns : List Node) :
    readParts start (ns.filter (·.isElement)) = readParts start ns := by
  refine read_filter (fun t n ns ms h => ?_) (fun _ _ => ⟨fun _ => rfl, fun _ => rfl, rfl⟩) start ns
  simp only [readParts, h]

mutual

theorem inStep_readPart (start : Option ElementPattern) : ∀ n : Node,
    ReadM.InStep Eq Eq (readPart start n) (readPart start (gist n))
  | .text _ | .comment _ | .instruction => .refl _
  | .element head children => by
    have hpatterns := fun p target => inStep_children p target (.element head children)
    have hdefine := inStep_readDefine (.element head children)
    have hparts : ReadM.InStep Eq Eq (readParts start children)
        (readParts start (gist (.element head children)).children) := by
      rw [← readParts_filter start (gist _).children, children_gist, readParts_filter]
      exact inStep_readParts start children
    have hattribute := attribute?_gist (.element head children) "href"
    rw [gist] at hpatterns hdefine hparts hattribute ⊢
    rw [readPart, readPart]
    have hsame : Construct.ofHead { head with pos := {} } = Construct.ofHead head := rfl
    simp only [hsame, hattribute]
    cases Construct.ofHead head with
    | start =>
      refine .bind (hpatterns _ _) ?_
      rintro found _ rfl
      exact .refl _
    | define =>
      refine .bind hdefine ?_
      rintro _ _ _
      exact .refl _
    | div => exact hparts
    | _ => exact .refl _

theorem inStep_readParts (start : Option ElementPattern) : ∀ ns : List Node,
    ReadM.InStep Eq Eq (readParts start ns) (readParts start (gistAll ns))
  | [] => .refl _
  | n :: ns => by
    rw [gistAll, readParts, readParts]
    refine .bind (inStep_readPart start n) ?_
    rintro start _ rfl
    exact inStep_readParts start ns

end

theorem inStep_read (n : Node) : ReadM.InStep Eq Eq (read n) (read (gist n)) := by
  cases n with
  | text | comment | instruction => exact .refl _
  | element head children =>
    have hpattern := inStep_readPattern {} {} (.element head children)
    have hparts : ReadM.InStep Eq Eq (readParts none children)
        (readParts none (gist (.element head children)).children) := by
      rw [← readParts_filter none (gist _).children, children_gist, readParts_filter]
      exact inStep_readParts none children
    rw [gist] at hpattern hparts ⊢
    rw [read, read]
    have hsame : Construct.ofHead { head with pos := {} } = Construct.ofHead head := rfl
    simp only [hsame]
    cases Construct.ofHead head with
    | grammar =>
      refine .bind hparts ?_
      rintro found _ rfl
      exact .refl _
    | element => exact hpattern
    | _ => exact .refl _

/-! ## Comments -/

/-- Nodes among which, or within a text of which, a comment is inserted. -/
inductive Interspersed : List Node → List Node → Prop
  | between {before after : List Node} {note : String} :
    Interspersed (before ++ after) (before ++ .comment note :: after)
  | within {before after : List Node} {t u note : String} :
    Interspersed (before ++ .text (t ++ u) :: after)
      (before ++ .text t :: .comment note :: .text u :: after)

/-- **Trees in which a comment is inserted** into the content of an element, at
    any depth, where `P` holds of the element and of its content before and
    after. -/
inductive Commented (P : Head → List Node → List Node → Prop) : Node → Node → Prop
  | here {head : Head} {ns ms : List Node} : Interspersed ns ms → P head ns ms →
    Commented P (.element head ns) (.element head ms)
  | inside {head : Head} {before after : List Node} {n m : Node} : Commented P n m →
    Commented P (.element head (before ++ n :: after)) (.element head (before ++ m :: after))

/-- Whether the text that a value or a name begins with stays as it is, but for
    blanks at its ends. -/
def SparesText (head : Head) (ns ms : List Node) : Prop :=
  (Construct.ofHead head = .value →
    Text.trim ((Node.element head ns).text?.getD "") =
      Text.trim ((Node.element head ms).text?.getD "")) ∧
  (Construct.ofHead head = .name →
    (Node.element head ns).text?.map Text.trim = (Node.element head ms).text?.map Text.trim)

theorem SparesText.leadOf_eq {head : Head} {ns ms : List Node} (h : SparesText head ns ms) :
    leadOf head (Node.element head ns).text? = leadOf head (Node.element head ms).text? := by
  rw [leadOf, leadOf]
  cases hhead : Construct.ofHead head with
  | value => exact congrArg (fun t => [Node.text t]) (h.1 hhead)
  | name =>
    have hname := congrArg (fun t => (t.map Node.text).toList) (h.2 hhead)
    simpa only [Option.map_map, Function.comp_def] using hname
  | _ => rfl

theorem Interspersed.elements {ns ms : List Node} (h : Interspersed ns ms) :
    (gistAll ns).filter (·.isElement) = (gistAll ms).filter (·.isElement) := by
  rw [gistAll_eq_map, gistAll_eq_map]
  cases h with
  | between => simp [gist, Node.isElement]
  | within => simp [gist, Node.isElement]

theorem Commented.eq_element {P : Head → List Node → List Node → Prop} {n m : Node}
    (h : Commented P n m) : ∃ head ns ms, n = .element head ns ∧ m = .element head ms := by
  cases h <;> exact ⟨_, _, _, rfl, rfl⟩

theorem Commented.gist_eq {n m : Node} (h : Commented SparesText n m) : gist n = gist m := by
  induction h with
  | here hns hspares =>
    rw [gist, gist, hspares.leadOf_eq, hns.elements]
  | @inside head before after n m h ih =>
    have htext : (Node.element head (before ++ n :: after)).text? =
        (Node.element head (before ++ m :: after)).text? := by
      obtain ⟨head', ns, ms, rfl, rfl⟩ := h.eq_element
      cases before with
      | nil => rfl
      | cons b before => cases b <;> rfl
    rw [gist, gist, htext, gistAll_eq_map, gistAll_eq_map]
    simp only [List.map_append, List.map_cons, ih]

theorem text?_unplaced (head head' : Head) (ns : List Node) :
    (Node.element head (Node.unplacedAll ns)).text? = (Node.element head' ns).text? := by
  cases ns with
  | nil => rfl
  | cons n ns => cases n <;> rfl

mutual

theorem gist_unplaced : ∀ n : Node, gist n.unplaced = gist n
  | .text _ | .comment _ | .instruction => rfl
  | .element head children => by
    rw [Node.unplaced, gist, gist, text?_unplaced _ head, gistAll_unplaced children]
    rfl

theorem gistAll_unplaced : ∀ ns : List Node, gistAll (Node.unplacedAll ns) = gistAll ns
  | [] => rfl
  | n :: ns => by rw [Node.unplacedAll, gistAll, gistAll, gist_unplaced n, gistAll_unplaced ns]

end

end RelaxNg

open RelaxNg

/-- **Comments do not matter, unless they cut texts.**  Take any grammar in
    RelaxNG, and insert a comment into the content of any of its elements, at any
    depth, also within a text; the places of the elements may be others then.
    Unless the element is a value or a name and the text that it begins with
    changes by more than blanks at its ends, one is read if and only if the other
    is, to the same start and the same definitions. -/
theorem comments_do_not_matter {dialect : Option Dialect} {root root' : Node}
    (hdialect : (dialect <|> Dialect.ofRoot? root) = some .relaxNg)
    (h : Commented SparesText root.unplaced root'.unplaced) (g : Grammar) :
    (readGrammar dialect root).1 = .ok g ↔ (readGrammar dialect root').1 = .ok g := by
  have hname : root'.name = root.name := by
    obtain ⟨head, ns, ms, hroot, hroot'⟩ := h.eq_element
    rw [← root'.name_unplaced, ← root.name_unplaced, hroot, hroot']
    rfl
  have hdialect' : (dialect <|> Dialect.ofRoot? root') = some .relaxNg := by
    rwa [Dialect.ofRoot?, hname]
  have hread : ∀ {n : Node}, (dialect <|> Dialect.ofRoot? n) = some .relaxNg →
      (readGrammar dialect n).1.toOption = (RelaxNg.read n).grammar? := by
    intro n hn
    rw [readGrammar, hn]
    exact readGrammar_toOption .relaxNg n
  have hgist : gist root = gist root' := by
    rw [← gist_unplaced root, ← gist_unplaced root', h.gist_eq]
  have hsame : (readGrammar dialect root).1.toOption = (readGrammar dialect root').1.toOption := by
    rw [hread hdialect, hread hdialect', (inStep_read root).grammar?_eq,
      (inStep_read root').grammar?_eq, hgist]
  have hok : ∀ x : Except SchemaError Grammar, x = .ok g ↔ x.toOption = some g := by
    intro x
    cases x <;> simp [Except.toOption]
  rw [hok, hok, hsame]

/-- Colors, of which one is spelled by the nodes given. -/
def colorGrammar (spelled : List Node) : Node :=
  .element { name := "element", attributes := [{ name := "name", value := "color" }] } [
    .element { name := "choice" } [
      .element { name := "value" } spelled, .element { name := "value" } [.text "blue"]]]

theorem commented_color {P : Head → List Node → List Node → Prop} {ns ms : List Node}
    (h : Interspersed ns ms) (hP : P { name := "value" } ns ms) :
    Commented P (colorGrammar ns) (colorGrammar ms) :=
  @Commented.inside P _ [] [] _ _ (@Commented.inside P _ [] _ _ _ (.here h hP))

theorem color_commented :
    (none <|> Dialect.ofRoot? (colorGrammar [.text " red "])) = some .relaxNg ∧
    Commented SparesText (colorGrammar [.text " red "]).unplaced
      (colorGrammar [.text " red", .comment "dark", .text " "]).unplaced ∧
    ∃ g, (readGrammar none (colorGrammar [.text " red "])).1 = .ok g ∧
      (readGrammar none (colorGrammar [.text " red", .comment "dark", .text " "])).1 = .ok g := by
  have hspared : SparesText { name := "value" } [.text " red "]
      [.text " red", .comment "dark", .text " "] := ⟨fun _ => by decide, fun h => by cases h⟩
  have hcommented : Commented SparesText (colorGrammar [.text " red "]).unplaced
      (colorGrammar [.text " red", .comment "dark", .text " "]).unplaced :=
    commented_color (@Interspersed.within [] [] " red" " " "dark") hspared
  exact ⟨rfl, hcommented, _, rfl, (comments_do_not_matter rfl hcommented _).1 rfl⟩

/-- Items, the name of which is given by the nodes. -/
def itemGrammar (name : List Node) : Node :=
  .element { name := "element" } [.element { name := "name" } name, .element { name := "text" } []]

/-- **Comments cut texts.**  A comment within a value leaves its beginning, and
    one before a name leaves none. -/
theorem comments_cut_text :
    (Commented (fun _ _ _ => True) (colorGrammar [.text "red"])
      (colorGrammar [.text "r", .comment "dark", .text "ed"]) ∧
    ∃ g g', (readGrammar none (colorGrammar [.text "red"])).1 = .ok g ∧
      (readGrammar none (colorGrammar [.text "r", .comment "dark", .text "ed"])).1 = .ok g' ∧
      g.start.elements.map (·.facet) = [some { values := ["red", "blue"] }] ∧
      g'.start.elements.map (·.facet) = [some { values := ["r", "blue"] }]) ∧
    Commented (fun _ _ _ => True) (itemGrammar [.text "item"])
      (itemGrammar [.comment "any", .text "item"]) ∧
    (∃ g, (readGrammar none (itemGrammar [.text "item"])).1 = .ok g) ∧
    (readGrammar none (itemGrammar [.comment "any", .text "item"])).1 =
      .error (.missingName "element" {}) := by
  have hcolor := @Interspersed.within [] [] "r" "ed" "dark"
  have hitem : Interspersed [.text "item"] [.comment "any", .text "item"] :=
    @Interspersed.between [] [.text "item"] "any"
  exact ⟨⟨commented_color hcolor trivial, _, _, rfl, rfl, rfl, rfl⟩,
    @Commented.inside _ _ [] _ _ _ (.here hitem trivial), ⟨_, rfl⟩, rfl⟩

end Bindery.Schema
