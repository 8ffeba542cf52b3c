/-
  What resolving leaves behind.

  A name is stuck if nothing can take the place of a reference to it for good:
  it is not defined, or its definition depends on itself.  Bodies that were put
  in the places of references bring their own references along, to any depth
  and any number of times, and these were kept while other definitions were
  being resolved.

  * `Resolves.leaves`: a resolved element is left with references to stuck
    names and to its own name, if the definitions being resolved that it uses
    are stuck;
  * `Stage.leaves`: so are the resolved bodies, at every stage.  A definition
    being resolved leads to the one resolved last, which closes a cycle when a
    body of that one uses it;
  * `resolve_leaves_stuck`: so is the start.
-/
import Mathlib
import Bindery.Proofs.Document.Licensed
import Bindery.Proofs.Resolution.Coverage
import Bindery.Proofs.Resolution.Settled

namespace Bindery.Schema

open ElementPattern

/-- Whether a name is not defined, or its definition depends on itself. -/
def Definitions.Stuck (ds : Definitions) (name : String) : Prop :=
  ds.get? name = none ∨ Relation.TransGen ds.Depends name name

/-- Whether the element refers to stuck names and to its own name only. -/
def ElementPattern.Left (ds : Definitions) (e : ElementPattern) : Prop :=
  ∀ r ∈ e.references, ds.Stuck r.name ∨ r.name = e.name

/-- What is left of references in a resolved body. -/
structure BodyLeft (ds : Definitions) (b : ElementPattern) : Prop where
  references : ∀ r ∈ b.references, ds.Stuck r.name
  below : ∀ x ∈ walkList b.elements, x.Left ds

/-- What is left of references in a table of resolved bodies. -/
def TableLeft (ds table : Definitions) : Prop :=
  ∀ name bodies, table.get? name = some bodies → ∀ b ∈ bodies, BodyLeft ds b

/-! ## One element -/

section
variable {ds table : Definitions} {path : List String}

theorem Expands.elements {owner : String} {grown out : ElementPattern} {rs : List Reference}
    (h : Expands ds table path owner grown rs out) :
    ∀ c ∈ out.elements, c ∈ grown.elements ∨ ∃ name bodies, table.get? name = some bodies ∧
      ∃ b ∈ bodies, ∃ o ∈ b.elements, ∃ p, c = { o with pattern := p } := by
  induction h with
  | nil => exact fun c hc => .inl hc
  | keep _ _ ih => exact ih
  | guard _ _ ih => exact ih
  | @inline grown r rs out bodies hb _ ih =>
    intro c hc
    rcases ih c hc with hc | hc
    · rw [foldl_inlineBody] at hc
      rcases List.mem_append.1 hc with hc | hc
      · exact .inl hc
      · obtain ⟨b, hm, hc⟩ := List.mem_flatMap.1 hc
        obtain ⟨o, ho, rfl⟩ := List.mem_map.1 hc
        exact .inr ⟨r.name, bodies, hb, b, hm, o, ho, _, rfl⟩
    · exact .inr hc

theorem BodyLeft.walk_copy {b o : ElementPattern} (h : BodyLeft ds b) (ho : o ∈ b.elements)
    (p : Pattern) : ∀ x ∈ ElementPattern.walk { o with pattern := p }, x.Left ds := by
  intro x hx
  rcases mem_walk.1 hx with rfl | ⟨c, hc, hx⟩
  · exact h.below o (mem_walkList_of_mem ho)
  · exact h.below x (mem_walkList_of_mem_walk ho (mem_walk.2 (.inr ⟨c, hc, hx⟩)))

/-- **What is left in a resolved element**, if the definitions being resolved
    that it uses are stuck. -/
theorem Resolves.leaves (ht : TableLeft ds table) (e : ElementPattern) :
    e.Fresh → (∀ name ∈ path, name ∈ e.uses → ds.Stuck name) →
      ∀ e', Resolves ds table path e e' → e'.Left ds ∧ ∀ x ∈ walkList e'.elements, x.Left ds := by
  induction e using childInduction with
  | step e ih =>
    intro hf hpath e' hres
    have hname := hres.name
    obtain ⟨hx, -, hc⟩ := hres
    obtain ⟨hfresh, hchildren⟩ := ElementPattern.fresh_iff.1 hf
    constructor
    · intro q hq
      rw [hname]
      rcases hx.leftover q hq with hq | ⟨r, hr, heq, howner | hsub | hp | hnone⟩ |
          ⟨name, bodies, hget, b, hb, q', hq', heq⟩
      · cases hq
      · exact .inr (heq ▸ howner)
      · rw [hfresh r hr] at hsub
        cases hsub
      · exact .inl (heq ▸ hpath r.name hp (ElementPattern.reference_mem_uses hr))
      · exact .inl (heq ▸ .inl hnone)
      · exact .inl (heq ▸ (ht name bodies hget b hb).references q' hq')
    · intro x hm
      obtain ⟨c', hc', hm⟩ := mem_walkList.1 hm
      rcases List.mem_append.1 hc' with hc' | hc'
      · obtain ⟨c, hcm, hres⟩ := forall₂_mem_right hc hc'
        obtain ⟨hleft, hbelow⟩ := ih c hcm (hchildren c hcm)
          (fun name hn hu => hpath name hn (ElementPattern.child_uses hcm hu)) c' hres
        rcases walk_eq.1 hm with rfl | hm
        · exact hleft
        · exact hbelow x hm
      · rcases hx.elements c' hc' with hc' | ⟨name, bodies, hget, b, hb, o, ho, p, rfl⟩
        · cases hc'
        · exact (ht name bodies hget b hb).walk_copy ho p x hm

end

/-! ## Stages -/

section
variable {ds table : Definitions} {path : List String}

/-- **A definition being resolved is stuck if a body uses it** of the definition
    that is being resolved last. -/
theorem Stage.stuck {name : String} (h : Stage ds (name :: path) table)
    {bodies : List ElementPattern} (hd : ds.get? name = some bodies) {b : ElementPattern}
    (hb : b ∈ bodies) : ∀ used ∈ name :: path, used ∈ b.uses → ds.Stuck used := by
  intro used hused hu
  have hstep : ds.Depends name used := ⟨bodies, hd, b, hb, hu⟩
  rcases List.mem_cons.1 hused with rfl | hused
  · exact .inr (.single hstep)
  · exact .inr ((h.leadTo used hused).tail hstep)

/-- **What is left in the resolved bodies.**  A body that refers to its own name
    refers to its definition, which thereby depends on itself. -/
theorem Stage.leaves (hf : ds.FreshAs) (h : Stage ds path table) : TableLeft ds table := by
  refine h.forall_table fun {_ _ name bodies _} hs hd hr ih b' hb' => ?_
  obtain ⟨b, hb, hres⟩ := forall₂_mem_right hr hb'
  obtain ⟨hfresh, hown⟩ := hf name bodies hd b hb
  obtain ⟨hleft, hbelow⟩ := hres.leaves ih b hfresh (hs.stuck hd hb) b'
  refine ⟨fun q hq => ?_, hbelow⟩
  rcases hleft q hq with hstuck | hself
  · exact hstuck
  · -- the reference was one of the body itself, or was left in another body
    rw [hres.name, hown] at hself
    obtain ⟨hx, -, -⟩ := hres
    rcases hx.leftover q hq with hq | ⟨r, hrm, heq, -⟩ |
        ⟨other, bodies', hget, b₂, hb₂, q', hq', heq⟩
    · cases hq
    · rw [hself] at heq ⊢
      exact .inr (.single ⟨bodies, hd, b, hb, heq ▸ ElementPattern.reference_mem_uses hrm⟩)
    · exact heq ▸ (ih other bodies' hget b₂ hb₂).references q' hq'

end

/-! ## Grammars -/

/-- **What resolving leaves behind**: every reference left anywhere in the start
    of a grammar that was read names no definition, or names the element that
    holds it, or names a definition that depends on itself; and no attribute
    has a definition of its value left. -/
theorem resolve_leaves_stuck {dialect : Option Dialect} {root : Markup.Node} {g : Grammar}
    (h : (readGrammar dialect root).1 = .ok g) :
    ∀ x ∈ g.resolve.1.start.walk,
      (∀ r ∈ x.references, g.definitions.get? r.name = none ∨ r.name = x.name ∨
        Relation.TransGen g.definitions.Depends r.name r.name) ∧
      ∀ a ∈ x.attributes, a.valueReference = none := by
  obtain ⟨hstart, hdefs⟩ := readGrammar_freshAs h
  obtain ⟨table, hs, hres, -⟩ := resolve_stage g
  obtain ⟨hleft, hbelow⟩ := hres.leaves (hs.leaves hdefs) g.start hstart.1
    (fun _ hn => by cases hn) _
  intro x hx
  constructor
  · have hall : x.Left g.definitions := by
      rcases walk_eq.1 hx with rfl | hx
      · exact hleft
      · exact hbelow x hx
    intro r hr
    rcases hall r hr with (hnone | hcycle) | hself
    · exact .inl hnone
    · exact .inr (.inr hcycle)
    · exact .inr (.inl hself)
  · exact (settled_resolve g x hx).2

/-- Machines of parts that hold parts, in which a label has the name of the
    definition it refers to, and nothing defines the legend. -/
def machineRoot : Markup.Node :=
  plainNode "grammar"
    [plainNode "start" [namedNode "ref" "part" []],
    namedNode "define" "part" [namedNode "element" "part"
      [namedNode "attribute" "kind" [namedNode "ref" "kinds" []],
      namedNode "element" "label" [namedNode "ref" "label" []], namedNode "ref" "inner" []]],
    namedNode "define" "inner" [namedNode "ref" "part" [], namedNode "ref" "legend" []],
    namedNode "define" "kinds" [plainNode "text" []],
    namedNode "define" "label" [plainNode "text" []]]

def partPattern : ElementPattern where
  name := "part"
  elements := [{ name := "label", references := [{ name := "label" }] }]
  attributes := [{ name := "kind", valueReference := some "kinds" }]
  references := [{ name := "inner" }]

def machineGrammar : Grammar where
  start := { references := [{ name := "part" }] }
  definitions :=
    ⟨[("part", [{ name := "part", elements := [partPattern] }]),
      ("inner", [{ name := "inner", references := [{ name := "part" }, { name := "legend" }] }]),
      ("kinds", [{ name := "kinds", hasText := true }]),
      ("label", [{ name := "label", hasText := true }])]⟩

theorem machine_leaves_stuck : (readGrammar none machineRoot).1 = .ok machineGrammar ∧
    (machineGrammar.resolve.1.start.walk.flatMap fun x => x.references.map fun r =>
      (x.name, r.name)) = [("part", "part"), ("part", "legend"), ("label", "label")] ∧
    ∀ x ∈ machineGrammar.resolve.1.start.walk,
      (∀ r ∈ x.references, machineGrammar.definitions.get? r.name = none ∨ r.name = x.name ∨
        Relation.TransGen machineGrammar.definitions.Depends r.name r.name) ∧
      ∀ a ∈ x.attributes, a.valueReference = none := by
  have hread : (readGrammar none machineRoot).1 = .ok machineGrammar := by rfl
  exact ⟨hread, by cbv, resolve_leaves_stuck hread⟩

end Bindery.Schema
