/-
  Planning, step by step.

  The elements of a document that become classes are its roots, and what is
  reached from them (`Classed`).  `Ensures` says what a step of planning that
  succeeds leads to, with a rule for every way steps are put together.

  * `SameClasses`: what steps that make no class leave as it is;
  * `createClass_none`, `createClass_some`: what making a class comes to.
-/
import Mathlib.Data.List.Nodup
import Bindery.Binding.Plan
import Bindery.Instance.Datum

namespace Bindery

namespace Schema

open Code (className)

/-! ## Documents -/

/-- The invariants that documents are built with: elements stand under their
    identifiers, and a facet lists no value twice. -/
structure Document.Proper (d : Document) : Prop where
  keyed : ∀ id e, d.elements.get? id = some e → e.identifier = id
  elementFacet : ∀ id e, d.elements.get? id = some e → ∀ f ∈ e.facet, f.values.Nodup
  attributeFacet : ∀ id a, d.attributes.get? id = some a → ∀ f ∈ a.facet, f.values.Nodup

/-- The elements that become classes: the roots, and the elements reached from
    them that are not text-only. -/
inductive Document.Classed (d : Document) : String → Prop
  | root {id : String} {e : Element} : id ∈ d.roots → d.elements.get? id = some e → Classed d id
  | child {id : String} {e target : Element} {r : Relation} : Classed d id →
      d.elements.get? id = some e → r ∈ e.elementRelations →
      d.elements.get? r.target = some target → target.isTextOnly = false → Classed d r.target

/-- No two elements that become classes share a class name. -/
def Document.DistinctClassNames (d : Document) : Prop :=
  ∀ {a b : String} {ea eb : Element}, d.Classed a → d.Classed b → d.elements.get? a = some ea →
    d.elements.get? b = some eb → className ea.name = className eb.name → a = b

def Document.childTag (d : Document) (r : Relation) : String :=
  ((d.elements.get? r.target).map (·.name)).getD ""

def Document.attributeName (d : Document) (r : Relation) : String :=
  ((d.attributes.get? r.target).map (·.name)).getD ""

/-- The children of an element have different tags, and its attributes
    different names. -/
def Document.DistinctTags (d : Document) : Prop :=
  ∀ id e, d.elements.get? id = some e →
    (e.elementRelations.map d.childTag).Nodup ∧ (e.attributeRelations.map d.attributeName).Nodup

end Schema

namespace Binding

open Schema
open Code (className memberName)

/-! ## Planning, step by step -/

/-- Whether a step that succeeds from `p` leads to a result and a state with
    `Q`. -/
def Ensures {α : Type} (x : PlanM α) (p : Planning) (Q : α → Planning → Prop) : Prop :=
  ∀ a p', x.run p = (.ok a, p') → Q a p'

section
variable {α β : Type} {p : Planning} {x : PlanM α} {f : α → PlanM β} {P : α → Planning → Prop}
  {Q : β → Planning → Prop}

theorem Ensures.pure {a : α} (h : P a p) : Ensures (Pure.pure a) p P := by
  rintro _ _ ⟨⟩
  exact h

theorem Ensures.bind (hx : Ensures x p P) (hf : ∀ a p', P a p' → Ensures (f a) p' Q) :
    Ensures (x >>= f) p Q := by
  intro b p' hb
  have hrun : (x >>= f).run p = ExceptT.bindCont f (x.run p).1 (x.run p).2 := rfl
  rw [hrun] at hb
  rcases he : x.run p with ⟨e | a, p₁⟩ <;> rw [he] at hb
  · cases hb
  · exact hf a p₁ (hx a p₁ he) b p' hb

theorem Ensures.mono {P' : α → Planning → Prop} (hx : Ensures x p P)
    (h : ∀ a p', P a p' → P' a p') : Ensures x p P' :=
  fun a p' hrun => h a p' (hx a p' hrun)

theorem Ensures.throw (e : GenerateError) : Ensures (MonadExcept.throw e) p P := by
  intro a p' h
  cases h

theorem ensures_get {P : Planning → Planning → Prop} (h : P p p) :
    Ensures (get : PlanM Planning) p P := by
  rintro _ _ ⟨⟩
  exact h

theorem ensures_modify {P : PUnit → Planning → Prop} {g : Planning → Planning}
    (h : P PUnit.unit (g p)) : Ensures (modify g : PlanM PUnit) p P := by
  rintro _ _ ⟨⟩
  exact h

end

/-! ## Steps that make no class -/

def SameClasses (p p' : Planning) : Prop := p'.classes = p.classes ∧ p'.owners = p.owners

theorem SameClasses.refl (p : Planning) : SameClasses p p := ⟨rfl, rfl⟩

theorem SameClasses.trans {p p' p'' : Planning} (h : SameClasses p p') (h' : SameClasses p' p'') :
    SameClasses p p'' :=
  ⟨h'.1.trans h.1, h'.2.trans h.2⟩

theorem ensures_tell (n : Notice) (p : Planning) :
    Ensures (tell n) p fun _ p' => SameClasses p p' :=
  ensures_modify ⟨rfl, rfl⟩

theorem ensures_takeTypeName (base : String) (p : Planning) :
    Ensures (takeTypeName base) p fun _ p' => SameClasses p p' := by
  rintro _ _ ⟨⟩
  exact ⟨rfl, rfl⟩

theorem ensures_requireLegal (names : List String) (p : Planning) :
    Ensures (requireLegal names) p fun _ p' => SameClasses p p' := by
  rw [requireLegal]
  split
  · exact .throw _
  · exact .pure (.refl p)

/-! ## Making a class -/

theorem createClass_none {site : Site} {path : List String} {id : String}
    (h : site.document.elements.get? id = none) :
    createClass site path id = do
      tell (.noElement id)
      return none := by
  rw [createClass]
  split
  · rfl
  · rename_i e he
    rw [h] at he
    cases he

theorem createClass_some {site : Site} {path : List String} {id : String} {e : Element}
    (h : site.document.elements.get? id = some e) :
    createClass site path id =
      if id ∈ path then return some (className e.name)
      else do
        if ← claimName site.policy (className e.name) id then
          tell (.creatingClass (className e.name) id)
          modify fun p => { p with owners := p.owners.insert (className e.name) id }
          let made ← buildClass site (pure (id :: path)) (createClass site (id :: path)) e
          modify fun p => { p with classes := p.classes.insert (className e.name) made }
        return some (className e.name) := by
  rw [createClass]
  split
  · rename_i he
    rw [h] at he
    cases he
  · rename_i e' he
    obtain rfl : e = e' := Option.some.inj (h.symm.trans he)
    split <;> dsimp only

/-! ## The classes of a plan -/

theorem map_name_values {t : Table Class} (h : ∀ entry ∈ t.entries, entry.2.name = entry.1) :
    t.values.map (·.name) = t.keys := by
  rw [Table.values, List.map_map]
  exact List.map_congr_left h

theorem get?_values {t : Table Class} (hkeys : t.keys.Nodup)
    (hnames : ∀ entry ∈ t.entries, entry.2.name = entry.1) :
    ∀ c ∈ t.values, Instance.Classes.get? t.values c.name = some c := by
  intro c hc
  rw [Instance.Classes.get?]
  cases hf : t.values.find? (·.name == c.name) with
  | none => exact absurd (List.find?_eq_none.1 hf c hc) (by simp)
  | some c' =>
    have hname : c'.name = c.name := by simpa using List.find?_some hf
    have hnodup : (t.values.map (·.name)).Nodup := map_name_values hnames ▸ hkeys
    rw [List.inj_on_of_nodup_map hnodup (List.mem_of_find?_eq_some hf) hc hname]

end Binding

end Bindery
