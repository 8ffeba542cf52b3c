/-
  The attributes that the nodes of an element offer.

  An attribute of an element stands among the nodes of its content, or among
  those of a definition that is referred to there.  Its modifiers are those on
  all the paths that lead to it.

  * `Offered`: an attribute stands under certain constructs in a content, those
    around references counted;
  * `First`: an attribute is the first of its name in a content;
  * `entity_offering`: the attributes in the document of a grammar are offered, and
    occur as the constructs on the way to them say;
  * `reached_offering`: where recursion is guarded all that are offered are there.
-/
import Bindery.Proofs.Document.Closed
import Bindery.Proofs.Document.Complete
import Bindery.Proofs.Path.Traced

namespace Bindery.Schema.RelaxNg

open ElementPattern
open Markup (Node)

/-- **Whether an attribute of the name stands in a content** with these elements,
    attributes and references, or in a definition that is referred to, under the
    constructs `ws`.  The constructs around a reference count for all that takes
    its place. -/
inductive Offered (root : Node) (name : String) : List Address → List Address → Prop
  | own {found : List Address} {a : Address} : a ∈ found → stands root .attr a = true →
      Named root a name → Offered root name found (enclosing root a)
  | inlined {found ws : List Address} {a b : Address} {key : String} : a ∈ found →
      stands root .ref a = true → hasKey root key a = true → b ∈ grammarParts root →
      defines root key b = true → Offered root name (content root b) ws →
      Offered root name found (ws ++ enclosing root a)

def attributeUnder (root : Node) (ws : List Address) : Pattern where
  optional := ws.any (stands root .optional) || ws.any (stands root .choice)
  zeroOrMore := ws.any (stands root .zeroOrMore)
  oneOrMore := ws.any (stands root .oneOrMore)

section
variable {root : Node} {number : Address → Nat} {g : Grammar}

theorem Named.unique {a : Address} {name name' : String} (h : Named root a name)
    (h' : Named root a name') : name = name' := by
  obtain ⟨n, hn, hname⟩ := h
  obtain ⟨n', hn', hname'⟩ := h'
  obtain rfl := Option.some.inj (hn.symm.trans hn')
  exact Except.ok.inj (hname.symm.trans hname')

theorem eq_of_hasKey {a : Address} {key key' : String} (h : hasKey root key a = true)
    (h' : hasKey root key' a = true) : key = key' := by
  rw [hasKey] at h h'
  cases hn : nodeAt root a with
  | none =>
    rw [hn] at h
    cases h
  | some n =>
    rw [hn, Option.any_some, beq_iff_eq] at h h'
    exact Option.some.inj (h.symm.trans h')

theorem attributeUnder_append (ws : List Address) (a : Address) :
    ((attributeUnder root ws).merge (under root number a)).forAttribute =
      attributeUnder root (ws ++ enclosing root a) := by
  simp [attributeUnder, under, Pattern.merge, Pattern.forAttribute, Bool.or_assoc,
    Bool.or_left_comm]

theorem offered_of_offers (hg : GrammarTraced root number g) {e : ElementPattern} {name : String}
    {p : Pattern} (h : g.definitions.Offers e name p) :
    ∀ found, Traced root number found e →
      ∃ ws, Offered root name found ws ∧ p = attributeUnder root ws := by
  induction h with
  | own ha =>
    intro found ht
    cases ht with
    | intro _ _ hattributes _ =>
      obtain ⟨a, hm, hname, hpattern⟩ := forall₂_mem_right hattributes ha
      obtain ⟨hfound, hstands⟩ := List.mem_filter.1 hm
      exact ⟨_, .own hfound hstands hname, hpattern⟩
  | @body _ r _ _ _ _ hr hget hb _ ih =>
    intro found ht
    cases ht with
    | intro _ _ _ hreferences =>
      obtain ⟨a, hm, hkey, hpattern⟩ := forall₂_mem_right hreferences hr
      obtain ⟨hfound, hstands⟩ := List.mem_filter.1 hm
      have hbodies := hg.bodies r.name
      rw [hget, Option.getD_some] at hbodies
      obtain ⟨b, hm', htraced⟩ := forall₂_mem_right hbodies hb
      obtain ⟨hpart, hdefines⟩ := List.mem_filter.1 hm'
      obtain ⟨ws, hoffered, rfl⟩ := ih (content root b) htraced
      refine ⟨_, .inlined hfound hstands hkey hpart hdefines hoffered, ?_⟩
      rw [hpattern, attributeUnder_append]

theorem licenses_of_offered (hg : GrammarTraced root number g) {name : String}
    {found ws : List Address} (h : Offered root name found ws) :
    ∀ e, Traced root number found e → g.definitions.Licenses (·.HasAttribute name) e := by
  induction h with
  | own hfound hstands hname =>
    intro e ht
    cases ht with
    | intro _ _ hattributes _ =>
      obtain ⟨x, hx, hname', -⟩ :=
        forall₂_mem_left hattributes (List.mem_filter.2 ⟨hfound, hstands⟩)
      exact .own ⟨x, hx, hname'.unique hname⟩
  | inlined hfound hstands hkey hpart hdefines _ ih =>
    intro e ht
    cases ht with
    | intro _ _ _ hreferences =>
      obtain ⟨r, hr, hkey', -⟩ :=
        forall₂_mem_left hreferences (List.mem_filter.2 ⟨hfound, hstands⟩)
      obtain rfl := eq_of_hasKey hkey' hkey
      obtain ⟨b, hb, htraced⟩ :=
        forall₂_mem_left (hg.bodies r.name) (List.mem_filter.2 ⟨hpart, hdefines⟩)
      cases hget : g.definitions.get? r.name with
      | none =>
        rw [hget] at hb
        cases hb
      | some bodies =>
        rw [hget] at hb
        exact .body hr hget hb (ih b htraced)

theorem Traced.exists_below (e : ElementPattern) : ∀ found, Traced root number found e →
    ∀ o ∈ walkList e.elements, ∃ a, stands root .element a = true ∧ Named root a o.name ∧
      Traced root number (content root a) o := by
  induction e using childInduction with
  | step e ih =>
    intro found ht o ho
    obtain ⟨c, hc, ho⟩ := mem_walkList.1 ho
    cases ht with
    | intro hnames htraced _ _ =>
      have hboth := List.Forall₂.mp (fun a c hn (hc : Traced root number (content root a) c) =>
        And.intro (And.left hn) hc) hnames htraced
      obtain ⟨a, hm, hname, hchild⟩ := forall₂_mem_right hboth hc
      rcases mem_walk.1 ho with rfl | ⟨d, hd, ho⟩
      · exact ⟨a, (List.mem_filter.1 hm).2, hname, hchild⟩
      · exact ih c hc _ hchild o (mem_walkList.2 ⟨d, hd, ho⟩)

theorem exists_node (hg : GrammarTraced root number g) {o : ElementPattern} (ho : o ∈ patterns g) :
    ∃ a, stands root .element a = true ∧ Named root a o.name ∧
      Traced root number (content root a) o := by
  rcases List.mem_append.1 ho with ho | ho
  · exact Traced.exists_below _ _ hg.start o ho
  · obtain ⟨body, hb, ho⟩ := List.mem_flatMap.1 ho
    obtain ⟨bodies, hv, hb⟩ := List.mem_flatten.1 hb
    obtain ⟨⟨name, _⟩, hentry, rfl⟩ := List.mem_map.1 hv
    have hbodies := hg.bodies name
    rw [Table.get?_of_mem_entries hg.keys hentry, Option.getD_some] at hbodies
    obtain ⟨b, -, htraced⟩ := forall₂_mem_right hbodies hb
    exact Traced.exists_below _ _ htraced o ho

/-! ## The first of its name -/

/-- **Whether `b` is an attribute of the name in a content** and none of the name
    stands before it. -/
def First (root : Node) (name : String) (found : List Address) (b : Address) : Prop :=
  stands root .attr b = true ∧ Named root b name ∧ ∃ before after, found = before ++ b :: after ∧
    ∀ a ∈ before, stands root .attr a = true → ¬ Named root a name

theorem Traced.exists_first {found : List Address} {o : ElementPattern} {name : String}
    {b : Address} (ht : Traced root number found o) (h : First root name found b) :
    ∃ before x after, o.attributes = before ++ x :: after ∧ x.name = name ∧
      x.pattern = attributeUnder root (enclosing root b) ∧ ∀ y ∈ before, y.name ≠ name := by
  obtain ⟨hstands, hname, before, after, rfl, hfirst⟩ := h
  cases ht with
  | intro _ _ hattributes _ =>
    rw [List.filter_append, List.filter_cons_of_pos hstands] at hattributes
    obtain ⟨xs, x, xs', ho, ⟨hx, hpattern⟩, hbefore⟩ := forall₂_append_cons hattributes
    refine ⟨xs, x, xs', ho, hx.unique hname, hpattern, fun y hy heq => ?_⟩
    obtain ⟨a, ha, hnamed, -⟩ := forall₂_mem_right hbefore hy
    obtain ⟨ha, hattr⟩ := List.mem_filter.1 ha
    exact hfirst a ha hattr (heq ▸ hnamed)

/-! ## Entities -/

/-- Whether the relations of an entity to attributes are to those that a content
    offers, and occur as the constructs on the way to them say. -/
structure Offering (root : Node) (d : Document) (id : String) (entity : Element)
    (found : List Address) : Prop where
  offered : ∀ r ∈ entity.attributeRelations, ∃ x ws, d.attributes.get? r.target = some x ∧
    r.target = id ++ "@" ++ x.name ∧ Offered root x.name found ws ∧
    r.occurs = (attributeUnder root ws).occurs
  /-- The first attribute of its name in the content decides. -/
  first : ∀ name b, First root name found b → ∃ r ∈ entity.attributeRelations,
    r.target = id ++ "@" ++ name ∧ r.occurs = (attributeUnder root (enclosing root b)).occurs

section
variable (hg : GrammarTraced root number g) (hsharp : ∀ e ∈ patterns g, '#' ∉ e.name.toList)
  (hat : ∀ e ∈ patterns g, '@' ∉ e.name.toList)
include hg hat

theorem offering_of_stems {o x : ElementPattern} {id : String} {found : List Address}
    (hm : (x, id) ∈ g.resolve.1.finished.built) (hs : Stems g.definitions o x)
    (ht : Traced root number found o) : Offering root g.resolve.1.build.1 id
      (g.resolve.1.finished.built.entity g.resolve.1.definitions x id) found where
  offered r hr := by
    obtain ⟨y, a, p, hget, ha, hsame, rfl⟩ := attribute_of_relation (resolve_avoids hat) hm hr
    obtain ⟨ws, hoffered, hp⟩ := offered_of_offers hg (offered_attribute hs ha) _ ht
    exact ⟨y, ws, hget, by rw [hsame], by rw [hsame]; exact hoffered, by rw [hp]⟩
  first name b hb := by
    obtain ⟨before, y, after, ho, rfl, hpattern, hfirst⟩ := ht.exists_first hb
    exact ⟨_, hs.relation_of_first _ id ho hfirst, rfl, by rw [hpattern]⟩

include hsharp

/-- **The attributes of a document are offered** by the content of an element with
    the name of their entity. -/
theorem entity_offering {id : String} {entity : Element}
    (h : g.resolve.1.build.1.elements.get? id = some entity) :
    ∃ a, stands root .element a = true ∧ Named root a entity.name ∧
      Offering root g.resolve.1.build.1 id entity (content root a) := by
  obtain ⟨x, hx, hm⟩ := mem_of_entity h
  obtain ⟨o, ho, hs⟩ := (stems_resolve g).1 x hx
  rw [(entity_of_mem (resolve_avoids hsharp) hm).2] at h
  cases h
  obtain ⟨a, helement, hname, htraced⟩ := exists_node hg ho
  rw [← hs.name] at hname
  exact ⟨a, helement, hname, offering_of_stems hg hat hm hs htraced⟩

/-- **No attribute is lost**: where recursion is guarded, what the start reaches
    comes from an element, and its entity is related to all attributes that the
    content of this element offers. -/
theorem reached_offering {dialect : Option Dialect} (hread : (readGrammar dialect root).1 = .ok g)
    (hguarded : g.Guarded) {e : ElementPattern} (he : g.Reaches e) :
    ∃ a id entity, stands root .element a = true ∧ Named root a e.name ∧
      Traced root number (content root a) e ∧
      g.resolve.1.build.1.elements.get? id = some entity ∧ entity.name = e.name ∧
      Offering root g.resolve.1.build.1 id entity (content root a) ∧
      ∀ name ws, Offered root name (content root a) ws →
        ∃ r ∈ entity.attributeRelations, r.target = id ++ "@" ++ name := by
  obtain ⟨table, h⟩ := exists_resolvedBy hread hsharp hguarded
  obtain ⟨x', outer, hvisited, hres⟩ := h.visited_of_reaches he
  obtain ⟨id, hid⟩ := Option.isSome_iff_exists.1 hvisited
  obtain ⟨q, hm⟩ := Built.mem_of_identifier? hid
  obtain ⟨a, helement, hname, htraced⟩ := exists_node hg he.mem_patterns
  have hs := (Resolves.rooted h.stage.rooted e (mem_patterns_below he.mem_patterns) x' hres).1
  refine ⟨a, id, _, helement, hname, htraced, (entity_of_mem h.sharp hm).2, hres.name,
    offering_of_stems hg hat hm { hs with } htraced, fun name ws hoffered => ?_⟩
  obtain ⟨y, hy, rfl⟩ := h.whole_of_licenses he hres (lasting_hasAttribute name)
    (licenses_of_offered hg hoffered e htraced)
  obtain ⟨⟨y, p⟩, hc, rfl⟩ := List.mem_map.1 hy
  have htarget := mem_distinct.2 (List.mem_map.2 ⟨_, hc, rfl⟩ :
    id ++ "@" ++ y.name ∈ (contentAttributes g.resolve.1.definitions x').map
      fun c => id ++ "@" ++ c.1.name)
  rw [← attributeRelations_targets] at htarget
  exact List.mem_map.1 htarget

end

end

end Bindery.Schema.RelaxNg
