/-
  Building the document of a grammar.

  The element patterns reached from the start are visited depth first, parents
  before their children.  Patterns with the same content are one element; it is
  identified by its name, or, when patterns of that name with other content
  came before, by its name and its number among them.

  The visit is a loop over an agenda (`build`): visiting a new element enters
  it, visits its content and then completes it with its relations.  The
  patterns of a grammar are finitely many (`patterns`) and each visit of a new
  one leaves fewer that are not built (`unbuilt`), so the loop ends.
-/
import Bindery.Notice
import Bindery.Schema.Document
import Bindery.Schema.Grammar

namespace Bindery.Schema

namespace ElementPattern

/-! ## The patterns of a grammar -/

theorem mem_walk_self (e : ElementPattern) : e ∈ e.walk := by
  cases e
  exact List.mem_cons_self

theorem mem_walkList_of_mem {e : ElementPattern} {es : List ElementPattern} (h : e ∈ es) :
    e ∈ walkList es := by
  induction es with
  | nil => cases h
  | cons x es ih =>
    rw [walkList, List.mem_append]
    rcases List.mem_cons.1 h with rfl | h
    · exact .inl (mem_walk_self e)
    · exact .inr (ih h)

mutual

theorem mem_walk_child {c e : ElementPattern} : (r : ElementPattern) → e ∈ r.walk →
    c ∈ e.elements → c ∈ r.walk
  | ⟨n, t, m, es, as, rs, p, d, f⟩, he, hc => by
    rw [walk, List.mem_cons] at he ⊢
    rcases he with rfl | he
    · exact .inr (mem_walkList_of_mem hc)
    · exact .inr (mem_walkList_child es he hc)

theorem mem_walkList_child {c e : ElementPattern} : (es : List ElementPattern) →
    e ∈ walkList es → c ∈ e.elements → c ∈ walkList es
  | [], he, _ => by cases he
  | x :: es, he, hc => by
    rw [walkList, List.mem_append] at he ⊢
    rcases he with he | he
    · exact .inl (mem_walk_child x he hc)
    · exact .inr (mem_walkList_child es he hc)

end

end ElementPattern

open ElementPattern

/-- The element patterns in the content of the start and in the bodies of the
    definitions. -/
def patterns (g : Grammar) : List ElementPattern :=
  walkList g.start.elements ++ g.definitions.values.flatten.flatMap (walkList ·.elements)

/-! ## Content -/

/-- The child elements of an element, each with the pattern it occurs under.
    A reference left in the element contributes the elements of the bodies it
    names. -/
def contentElements (ds : Definitions) (e : ElementPattern) : List (ElementPattern × Pattern) :=
  e.elements.map (fun c => (c, c.pattern)) ++
    e.references.flatMap fun r =>
      ((ds.get? r.name).getD []).flatMap fun body =>
        body.elements.map fun c => (c, c.pattern.merge r.pattern)

def contentAttributes (ds : Definitions) (e : ElementPattern) :
    List (AttributePattern × Pattern) :=
  e.attributes.map (fun a => (a, a.pattern)) ++
    e.references.flatMap fun r =>
      ((ds.get? r.name).getD []).flatMap fun body =>
        body.attributes.map fun a => (a, (a.pattern.merge r.pattern).forAttribute)

theorem mem_contentElements {ds : Definitions} {e c : ElementPattern} {p : Pattern} :
    (c, p) ∈ contentElements ds e ↔ c ∈ e.elements ∧ c.pattern = p ∨
      ∃ r ∈ e.references, ∃ body ∈ (ds.get? r.name).getD [],
        c ∈ body.elements ∧ c.pattern.merge r.pattern = p := by
  simp [contentElements, and_left_comm]

theorem mem_contentAttributes {ds : Definitions} {e : ElementPattern} {a : AttributePattern}
    {p : Pattern} :
    (a, p) ∈ contentAttributes ds e ↔ a ∈ e.attributes ∧ a.pattern = p ∨
      ∃ r ∈ e.references, ∃ body ∈ (ds.get? r.name).getD [],
        a ∈ body.attributes ∧ (a.pattern.merge r.pattern).forAttribute = p := by
  simp [contentAttributes, and_left_comm]

def contentNotices (ds : Definitions) (e : ElementPattern) : List Notice :=
  (e.references.filter fun r => !ds.contains r.name).map fun r => .droppedReference r.name e.name

theorem mem_values_of_get? {α : Type} {t : Table α} {key : String} {value : α}
    (h : t.get? key = some value) : value ∈ t.values := by
  obtain ⟨entries⟩ := t
  simp only [Table.get?, Table.values] at *
  induction entries with
  | nil => simp at h
  | cons e rest ih =>
    obtain ⟨k, v⟩ := e
    rw [List.lookup_cons] at h
    split at h
    · cases h
      exact List.mem_cons_self
    · exact List.mem_cons_of_mem _ (ih h)

theorem mem_patterns_of_body {g : Grammar} {name : String} {body c : ElementPattern}
    (hb : body ∈ (g.definitions.get? name).getD []) (hc : c ∈ body.elements) :
    c ∈ patterns g := by
  cases h : g.definitions.get? name with
  | none => simp [h] at hb
  | some bodies =>
    rw [h] at hb
    refine List.mem_append.2 (.inr (List.mem_flatMap.2 ⟨body, ?_, mem_walkList_of_mem hc⟩))
    exact List.mem_flatten.2 ⟨bodies, mem_values_of_get? h, hb⟩

theorem mem_patterns_child {g : Grammar} {e c : ElementPattern} (he : e ∈ patterns g)
    (hc : c ∈ e.elements) : c ∈ patterns g := by
  rcases List.mem_append.1 he with he | he
  · exact List.mem_append.2 (.inl (mem_walkList_child _ he hc))
  · obtain ⟨body, hb, he⟩ := List.mem_flatMap.1 he
    exact List.mem_append.2 (.inr (List.mem_flatMap.2 ⟨body, hb, mem_walkList_child _ he hc⟩))

theorem mem_patterns_of_content {g : Grammar} {e c : ElementPattern} {p : Pattern}
    (he : ∀ c ∈ e.elements, c ∈ patterns g) (hc : (c, p) ∈ contentElements g.definitions e) :
    c ∈ patterns g := by
  rcases mem_contentElements.1 hc with ⟨hc, -⟩ | ⟨r, -, body, hb, hc, -⟩
  · exact he c hc
  · exact mem_patterns_of_body hb hc

/-! ## Identifiers -/

/-- The elements built so far, with their identifiers. -/
abbrev Built := List (ElementPattern × String)

/-- The identifier of an element with the content of `e`, if one is built. -/
def Built.identifier? (built : Built) (e : ElementPattern) : Option String :=
  (built.find? fun (other, _) => other.sameContent e).map (·.2)

def Built.count (built : Built) (name : String) : Nat :=
  built.countP fun (other, _) => other.name == name

def Built.fresh (built : Built) (e : ElementPattern) : String :=
  match built.count e.name with
  | 0 => e.name
  | n + 1 => e.name ++ "#" ++ toString (n + 2)

/-- The number of patterns whose content is not built. -/
def unbuilt (built : Built) : List ElementPattern → Nat
  | [] => 0
  | e :: es => (if (built.identifier? e).isSome then 0 else 1) + unbuilt built es

theorem Built.identifier?_append (built : Built) (e x : ElementPattern) (id : String) :
    Built.identifier? (built ++ [(e, id)]) x =
      (built.identifier? x).or (if e.sameContent x then some id else none) := by
  simp only [Built.identifier?, List.find?_append]
  cases h : built.find? fun (other, _) => other.sameContent x with
  | some y => simp
  | none =>
    by_cases hs : e.sameContent x
    · simp [hs]
    · simp [hs]

theorem unbuilt_append_le (built : Built) (e : ElementPattern) (id : String)
    (es : List ElementPattern) : unbuilt (built ++ [(e, id)]) es ≤ unbuilt built es := by
  induction es with
  | nil => exact Nat.le_refl _
  | cons x es ih =>
    simp only [unbuilt, Built.identifier?_append]
    cases h : built.identifier? x with
    | some y => simpa [h] using ih
    | none =>
      by_cases hs : e.sameContent x
      · simp [hs]
        omega
      · simp [hs]
        omega

theorem sameContent_self (e : ElementPattern) : e.sameContent e = true := by
  cases e
  simp [sameContent]

theorem unbuilt_append_lt {built : Built} {e : ElementPattern} {es : List ElementPattern}
    (id : String) (he : e ∈ es) (hn : built.identifier? e = none) :
    unbuilt (built ++ [(e, id)]) es < unbuilt built es := by
  induction es with
  | nil => cases he
  | cons x es ih =>
    have hle := unbuilt_append_le built e id es
    rcases List.mem_cons.1 he with rfl | he
    · simp only [unbuilt, Built.identifier?_append, hn, sameContent_self]
      simp only [↓reduceIte, Option.none_or, Option.isSome_some, Option.isSome_none,
        Bool.false_eq_true]
      omega
    · have hlt := ih he
      have hx := unbuilt_append_le built e id [x]
      simp only [unbuilt] at hx ⊢
      omega

/-! ## Relations -/

/-- The relations gathered from the content of an element, and the targets of
    each alternation. -/
structure Folding where
  relations : List Relation := []
  choices : List (Option Nat × List String) := []

/-- The alternations with one more target in `group`. -/
def addMember (group : Option Nat) (target : String) :
    List (Option Nat × List String) → List (Option Nat × List String)
  | [] => [(group, [target])]
  | (g, members) :: rest =>
    if g = group then (g, members ++ [target]) :: rest else (g, members) :: addMember group target rest

/-- Adds a child.  Two slots for the same element fold into one, wide enough
    for both. -/
def Folding.add (f : Folding) (target : String) (pattern : Pattern) : Folding :=
  if f.relations.any (·.target == target) then
    { f with
      relations := f.relations.map fun r =>
        if r.target = target then { r with occurs := r.occurs.widen pattern.occurs } else r }
  else
    { relations := f.relations ++ [{ target, occurs := pattern.occurs }]
      choices := if pattern.choice then addMember pattern.group target f.choices else f.choices }

/-- The relations, those of an alternation of several marked with it. -/
def Folding.tagged (f : Folding) : List Relation :=
  f.choices.foldl (fun relations (_, members) =>
    if 1 < members.length then
      let choice := "+".intercalate members
      relations.map fun r => if r.target ∈ members then { r with choice := some choice } else r
    else relations) f.relations

def elementRelations (content : List (String × Pattern)) : List Relation :=
  (content.foldl (fun f (target, pattern) => f.add target pattern) ({} : Folding)).tagged

/-- The attribute relations for the content of the element `id`: the first
    attribute of each name. -/
def attributeRelations (id : String) (content : List (AttributePattern × Pattern)) :
    List Relation :=
  content.foldl (fun relations (a, pattern) =>
    let target := id ++ "@" ++ a.name
    if relations.any (·.target == target) then relations
    else relations ++ [{ target, occurs := pattern.occurs }]) []

/-! ## The loop -/

structure Building where
  document : Document := {}
  built : Built := []
  notices : List Notice := []

/-- The attributes with those of the element `id`, and what there is to tell.
    An attribute that is there stays as it is. -/
def addAttributes (id : String) (content : List (AttributePattern × Pattern))
    (attributes : Table Attribute) : Table Attribute × List Notice :=
  let step := fun ((attributes, own, notices) : Table Attribute × List String × List Notice)
      ((a, _) : AttributePattern × Pattern) =>
    let target := id ++ "@" ++ a.name
    if target ∈ own then (attributes, own, notices ++ [.repeatedAttribute target])
    else
      let entity : Attribute :=
        { identifier := target, name := a.name, dataType := a.dataType
          facet := Facet.proper a.facet }
      let attributes :=
        if attributes.contains target then attributes else attributes.insert target entity
      (attributes, own ++ [target], notices)
  let (attributes, _, notices) := content.foldl step (attributes, [], [])
  (attributes, notices)

def Building.enter (ds : Definitions) (e : ElementPattern) (b : Building) : Building :=
  let id := b.built.fresh e
  let differing : List Notice :=
    if b.built.count e.name = 0 then [] else [.differing e.name id]
  let entity : Element :=
    { identifier := id, name := e.name, text := e.hasText, dataType := e.dataType
      facet := Facet.proper e.facet }
  let (attributes, repeated) :=
    addAttributes id (contentAttributes ds e) b.document.attributes
  { document :=
      { b.document with elements := b.document.elements.insert id entity, attributes }
    built := b.built ++ [(e, id)]
    notices := b.notices ++ differing ++ [.building id] ++ contentNotices ds e ++ repeated }

def Building.complete (ds : Definitions) (e : ElementPattern) (b : Building) : Building :=
  let identifier (e : ElementPattern) : String := (b.built.identifier? e).getD e.name
  let id := identifier e
  let content := (contentElements ds e).map fun (c, p) => (identifier c, p)
  { b with
    document := { b.document with
      elements := b.document.elements.modify id fun entity =>
        { entity with
          elementRelations := elementRelations content
          attributeRelations := attributeRelations id (contentAttributes ds e) } } }

abbrev Site (g : Grammar) := { e : ElementPattern // e ∈ patterns g }

def Site.content {g : Grammar} (s : Site g) : List (Site g) :=
  (contentElements g.definitions s.val).attach.map fun ⟨(c, _), h⟩ =>
    ⟨c, mem_patterns_of_content (fun _ hc => mem_patterns_child s.property hc) h⟩

def Grammar.startContent (g : Grammar) : List (Site g) :=
  (contentElements g.definitions g.start).attach.map fun ⟨(c, _), h⟩ =>
    ⟨c, mem_patterns_of_content
      (fun _ hc => List.mem_append.2 (.inl (mem_walkList_of_mem hc))) h⟩

inductive Task (g : Grammar) where
  | visit (s : Site g)
  | complete (s : Site g)

def build (g : Grammar) (agenda : List (Task g)) (b : Building) : Building :=
  match agenda with
  | [] => b
  | .complete s :: rest => build g rest (b.complete g.definitions s.val)
  | .visit s :: rest =>
    match _h : b.built.identifier? s.val with
    | some _ => build g rest b
    | none =>
      build g (s.content.map .visit ++ .complete s :: rest) (b.enter g.definitions s.val)
termination_by (unbuilt b.built (patterns g), agenda.length)
decreasing_by
  · exact Prod.Lex.right _ (by simp)
  · exact Prod.Lex.right _ (by simp)
  · exact Prod.Lex.left _ _ (unbuilt_append_lt _ s.property _h)

def distinct (names : List String) : List String :=
  names.foldl (fun seen n => if n ∈ seen then seen else seen ++ [n]) []

def Grammar.build (g : Grammar) : Document × List Notice :=
  let start := g.startContent
  let b := Schema.build g (start.map .visit)
    { notices := contentNotices g.definitions g.start }
  let roots := start.map fun s => (b.built.identifier? s.val).getD s.val.name
  ({ b.document with roots := distinct roots }, b.notices)

end Bindery.Schema
