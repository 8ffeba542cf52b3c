/-
  What is gathered along references.

  Where definitions do not depend on themselves, the bodies reached from an
  element through references alone form a finite list in the order of the
  references (`Definitions.bodiesBelow`).  An expanded element has its own
  content and that of these bodies, in this order.

  * `Definitions.Acyclic.bodyInduction`: induction along references;
  * `Definitions.licenses_iff`: what an element licenses, it or one of these
    bodies has;
  * `childNames_expand`, `hasText_expand`, `dataType_expand`, `facet_expand`:
    the content of an expanded element;
  * `get?_of_mem_references_expand`: nothing that is defined is left to refer
    to.
-/
import Bindery.Proofs.Resolution.Licence

namespace Bindery.Schema

open ElementPattern

/-! ## The bodies below an element -/

namespace Definitions

def bodiesOf (ds : Definitions) (e : ElementPattern) : List ElementPattern :=
  e.references.flatMap fun r => (ds.get? r.name).getD []

/-- The bodies reached from `name` through references alone, below the
    definitions of `path`, which only bounds the recursion. -/
def bodiesAlong (ds : Definitions) (path : List String) (name : String) : List ElementPattern :=
  if _hp : name ∈ path then []
  else
    match _h : ds.get? name with
    | none => []
    | some bodies => bodies.flatMap fun b =>
        b :: b.references.flatMap fun r => bodiesAlong ds (name :: path) r.name
termination_by remaining ds.keys path
decreasing_by exact remaining_cons_lt (Table.mem_keys_of_get? _h) _hp

/-- **The bodies reached from an element through references alone**, each
    followed by those reached from it, in the order of the references. -/
def bodiesBelow (ds : Definitions) (e : ElementPattern) : List ElementPattern :=
  e.references.flatMap fun r => ds.bodiesAlong [] r.name

section
variable {ds : Definitions}

theorem mem_bodiesOf {e b : ElementPattern} : b ∈ ds.bodiesOf e ↔
    ∃ r ∈ e.references, ∃ bodies, ds.get? r.name = some bodies ∧ b ∈ bodies := by
  constructor
  · intro h
    obtain ⟨r, hr, hb⟩ := List.mem_flatMap.1 h
    cases hd : ds.get? r.name with
    | none => simp [hd] at hb
    | some bodies => exact ⟨r, hr, bodies, hd, by simpa [hd] using hb⟩
  · rintro ⟨r, hr, bodies, hd, hb⟩
    exact List.mem_flatMap.2 ⟨r, hr, by simpa [hd] using hb⟩

/-- **Induction along references**: what is true of an element if it is of the
    bodies that it refers to, is true of every element. -/
theorem Acyclic.bodyInduction (ha : ds.Acyclic) {P : ElementPattern → Prop}
    (step : ∀ e, (∀ b ∈ ds.bodiesOf e, P b) → P e) (e : ElementPattern) : P e := by
  have hname : ∀ (path : List String) (name : String), ds.LeadTo path name →
      ∀ bodies, ds.get? name = some bodies → ∀ b ∈ bodies, P b := by
    intro path name hp
    induction hn : remaining ds.keys path using Nat.strongRecOn generalizing path name with
    | ind n ih =>
      subst hn
      intro bodies hd b hb
      refine step b fun c hc => ?_
      obtain ⟨r, hr, inner, hinner, hc⟩ := mem_bodiesOf.1 hc
      have hlt := remaining_cons_lt (Table.mem_keys_of_get? hd) (hp.not_mem ha)
      have hdepends : ds.Depends name r.name := ⟨bodies, hd, b, hb, reference_mem_uses hr⟩
      exact ih _ hlt (name :: path) r.name (hp.cons hdepends) rfl inner hinner c hc
  refine step e fun b hb => ?_
  obtain ⟨r, -, bodies, hd, hb⟩ := mem_bodiesOf.1 hb
  exact hname [] r.name nofun bodies hd b hb

theorem bodiesAlong_of_not_mem {path : List String} {name : String} (h : name ∉ path) :
    ds.bodiesAlong path name = ((ds.get? name).getD []).flatMap fun b =>
      b :: b.references.flatMap fun r => ds.bodiesAlong (name :: path) r.name := by
  rw [bodiesAlong, dif_neg h]
  rcases hd : ds.get? name with _ | bodies <;> rfl

theorem bodiesAlong_eq (ha : ds.Acyclic) {path path' : List String} {name : String}
    (h : ds.LeadTo path name) (h' : ds.LeadTo path' name) :
    ds.bodiesAlong path name = ds.bodiesAlong path' name := by
  induction hn : remaining ds.keys path using Nat.strongRecOn generalizing path path' name with
  | ind n ih =>
    subst hn
    rw [bodiesAlong_of_not_mem (h.not_mem ha), bodiesAlong_of_not_mem (h'.not_mem ha)]
    cases hd : ds.get? name with
    | none => rfl
    | some bodies =>
      have hlt := remaining_cons_lt (Table.mem_keys_of_get? hd) (h.not_mem ha)
      refine List.flatMap_congr fun b hb => congrArg (b :: ·) (List.flatMap_congr fun r hr => ?_)
      have hdepends : ds.Depends name r.name := ⟨bodies, hd, b, hb, reference_mem_uses hr⟩
      exact ih _ hlt (h.cons hdepends) (h'.cons hdepends) rfl

theorem bodiesAlong_nil (ha : ds.Acyclic) (name : String) :
    ds.bodiesAlong [] name = ((ds.get? name).getD []).flatMap fun b => b :: ds.bodiesBelow b := by
  rw [bodiesAlong_of_not_mem List.not_mem_nil]
  cases hd : ds.get? name with
  | none => rfl
  | some bodies =>
    refine List.flatMap_congr fun b hb => congrArg (b :: ·) (List.flatMap_congr fun r hr => ?_)
    have hdepends : ds.Depends name r.name := ⟨bodies, hd, b, hb, reference_mem_uses hr⟩
    exact bodiesAlong_eq ha (LeadTo.cons (by nofun) hdepends) (by nofun)

/-- **The bodies below an element** are those it refers to, each followed by
    the ones below it. -/
theorem bodiesBelow_eq (ha : ds.Acyclic) (e : ElementPattern) :
    ds.bodiesBelow e = (ds.bodiesOf e).flatMap fun b => b :: ds.bodiesBelow b := by
  rw [bodiesBelow, bodiesOf, List.flatMap_assoc]
  exact List.flatMap_congr fun r _ => bodiesAlong_nil ha r.name

theorem licenses_iff (ha : ds.Acyclic) {P : ElementPattern → Prop} {e : ElementPattern} :
    ds.Licenses P e ↔ ∃ b ∈ e :: ds.bodiesBelow e, P b := by
  constructor
  · intro h
    induction h with
    | own hp => exact ⟨_, List.mem_cons_self, hp⟩
    | @body e r bodies b hr hd hb _ ih =>
      obtain ⟨c, hc, hp⟩ := ih
      refine ⟨c, List.mem_cons_of_mem _ ?_, hp⟩
      rw [bodiesBelow_eq ha]
      exact List.mem_flatMap.2 ⟨b, mem_bodiesOf.2 ⟨r, hr, bodies, hd, hb⟩, hc⟩
  · induction e using ha.bodyInduction with
    | step e ih =>
      rintro ⟨c, hc, hp⟩
      rcases List.mem_cons.1 hc with rfl | hc
      · exact .own hp
      · rw [bodiesBelow_eq ha] at hc
        obtain ⟨b, hb, hc⟩ := List.mem_flatMap.1 hc
        obtain ⟨r, hr, bodies, hd, hm⟩ := mem_bodiesOf.1 hb
        exact .body hr hd hm (ih b hb ⟨c, hc, hp⟩)

end

end Definitions

/-! ## The content of an expanded element -/

theorem name_expand (find : String → Option (List ElementPattern)) (e : ElementPattern) :
    (expand find e).name = e.name := by
  cases e
  rw [expand]

theorem findSome?_flatMap {α β γ : Type} (f : β → Option γ) (k : α → List β) (xs : List α) :
    (xs.flatMap k).findSome? f = xs.findSome? fun x => (k x).findSome? f := by
  induction xs with
  | nil => rfl
  | cons x xs ih =>
    rw [List.flatMap_cons, List.findSome?_append, ih, List.findSome?_cons]
    cases (k x).findSome? f <;> rfl

section
variable {ds : Definitions} (ha : ds.Acyclic)
include ha

theorem bodies_expansion (e : ElementPattern) :
    (e.references.flatMap (bodiesFor (expansion ds))).map (·.2) =
      (ds.bodiesOf e).map (expand (expansion ds)) := by
  rw [Definitions.bodiesOf, List.map_flatMap, List.map_flatMap]
  refine List.flatMap_congr fun r _ => ?_
  rw [bodiesFor, List.map_map, expansion_eq ha]
  cases ds.get? r.name with
  | none => rfl
  | some bodies => simp [Function.comp_def]

theorem childNames_expand (e : ElementPattern) :
    (expand (expansion ds) e).elements.map (·.name) =
      (e :: ds.bodiesBelow e).flatMap fun b => b.elements.map (·.name) := by
  induction e using ha.bodyInduction with
  | step e ih =>
    have hstep : (expand (expansion ds) e).elements.map (·.name) = e.elements.map (·.name) ++
        ((e.references.flatMap (bodiesFor (expansion ds))).map (·.2)).flatMap
          fun b => b.elements.map (·.name) := by
      rw [expand_eq valuesFilled_expansion, List.flatMap_map]
      simp [appendBodies, name_expand, Function.comp_def, List.map_flatMap]
    rw [hstep, bodies_expansion ha, List.flatMap_cons, Definitions.bodiesBelow_eq ha,
      List.flatMap_assoc, List.flatMap_map]
    exact congrArg _ (List.flatMap_congr ih)

theorem hasText_expand (e : ElementPattern) :
    (expand (expansion ds) e).hasText = (e :: ds.bodiesBelow e).any (·.hasText) := by
  induction e using ha.bodyInduction with
  | step e ih =>
    have hstep : (expand (expansion ds) e).hasText = (e.hasText ||
        ((e.references.flatMap (bodiesFor (expansion ds))).map (·.2)).any (·.hasText)) := by
      rw [expand_eq valuesFilled_expansion, List.any_map]
      rfl
    have hbodies : ((ds.bodiesOf e).map (expand (expansion ds))).any (·.hasText) =
        (ds.bodiesOf e).any fun b => (b :: ds.bodiesBelow b).any (·.hasText) := by
      have := congrArg (List.any · id) (List.map_congr_left ih)
      simpa [List.any_map, Function.comp_def] using this
    rw [hstep, bodies_expansion ha, hbodies, List.any_cons, Definitions.bodiesBelow_eq ha,
      List.any_flatMap]

theorem first_expand {α : Type} {f : ElementPattern → Option α}
    (hstep : ∀ e, f (expand (expansion ds) e) = (f e <|>
      (e.references.flatMap (bodiesFor (expansion ds))).findSome? fun b => f b.2))
    (e : ElementPattern) :
    f (expand (expansion ds) e) = (e :: ds.bodiesBelow e).findSome? f := by
  induction e using ha.bodyInduction with
  | step e ih =>
    have hbodies : ((e.references.flatMap (bodiesFor (expansion ds))).findSome? fun b => f b.2) =
        (ds.bodiesBelow e).findSome? f := by
      have hmap := congrArg (List.findSome? id) (List.map_congr_left ih)
      simp only [List.findSome?_map, Function.comp_def, id] at hmap
      calc (e.references.flatMap (bodiesFor (expansion ds))).findSome? (fun b => f b.2)
          = ((ds.bodiesOf e).map (expand (expansion ds))).findSome? f := by
            rw [← bodies_expansion ha, List.findSome?_map]
            rfl
        _ = (ds.bodiesOf e).findSome? fun b => (b :: ds.bodiesBelow b).findSome? f := by
            rw [List.findSome?_map]
            exact hmap
        _ = (ds.bodiesBelow e).findSome? f := by
            rw [Definitions.bodiesBelow_eq ha, findSome?_flatMap]
    rw [hstep, hbodies, List.findSome?_cons]
    cases f e <;> rfl

theorem dataType_expand (e : ElementPattern) :
    (expand (expansion ds) e).dataType = (e :: ds.bodiesBelow e).findSome? (·.dataType) :=
  first_expand ha (fun e => by rw [expand_eq valuesFilled_expansion]; rfl) e

theorem facet_expand (e : ElementPattern) :
    (expand (expansion ds) e).facet = (e :: ds.bodiesBelow e).findSome? (·.facet) :=
  first_expand ha (fun e => by rw [expand_eq valuesFilled_expansion]; rfl) e

theorem get?_of_mem_references_expand (e : ElementPattern) :
    ∀ r ∈ (expand (expansion ds) e).references, ds.get? r.name = none := by
  induction e using ha.bodyInduction with
  | step e ih =>
    rw [expand_eq valuesFilled_expansion]
    intro q hq
    obtain ⟨r, hr, hq⟩ := List.mem_flatMap.1 hq
    rw [leftoverOf, expansion_eq ha] at hq
    cases hd : ds.get? r.name with
    | none =>
      rw [hd] at hq
      cases List.mem_singleton.1 hq
      exact hd
    | some bodies =>
      rw [hd] at hq
      obtain ⟨b', hb', hq⟩ := List.mem_flatMap.1 hq
      obtain ⟨b, hb, rfl⟩ := List.mem_map.1 hb'
      obtain ⟨left, hleft, rfl⟩ := List.mem_map.1 hq
      exact ih b (Definitions.mem_bodiesOf.2 ⟨r, hr, bodies, hd, hb⟩) left hleft

theorem mem_elements_expand_of_body {e b c : ElementPattern} (hb : b ∈ ds.bodiesOf e)
    (hc : c ∈ (expand (expansion ds) b).elements) :
    ∃ p, { c with pattern := p } ∈ (expand (expansion ds) e).elements := by
  have hm : expand (expansion ds) b ∈
      (e.references.flatMap (bodiesFor (expansion ds))).map (·.2) := by
    rw [bodies_expansion ha]
    exact List.mem_map_of_mem hb
  obtain ⟨⟨p, b'⟩, hpair, rfl⟩ := List.mem_map.1 hm
  rw [expand_eq valuesFilled_expansion e]
  refine ⟨c.pattern.merge p, List.mem_append_right _ ?_⟩
  exact List.mem_flatMap.2 ⟨_, hpair, List.mem_map.2 ⟨c, hc, rfl⟩⟩

end

theorem mem_elements_expand_of_child {ds : Definitions} {e c : ElementPattern}
    (hc : c ∈ e.elements) :
    expand (expansion ds) c ∈ (expand (expansion ds) e).elements := by
  rw [expand_eq valuesFilled_expansion e]
  exact List.mem_append_left _ (List.mem_map_of_mem hc)

end Bindery.Schema
