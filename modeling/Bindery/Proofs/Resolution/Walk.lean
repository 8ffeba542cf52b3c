/-
  Resolving references, step by step.

  What one step of `expandReferences`, `resolveValue`, `substitute` and
  `lookupIn` can do to a tree and to the definitions resolved so far, stated
  once, so that the theorems about resolving do not open these functions.

  * `ElementPattern.childInduction` is induction over a pattern tree;
  * `expandReferences_cons` lists what becomes of one reference;
  * `substituteAll_each` carries a fact about single elements, and an invariant
    of the definitions resolved, over a list of elements;
  * `lookupIn_cases` lists what a name may lead to.
-/
import Mathlib.Data.List.Forall2
import Bindery.Schema.Build
import Bindery.Schema.Resolve

namespace Bindery.Schema

/-! ## Pattern trees -/

namespace ElementPattern

theorem sizeOf_child {c e : ElementPattern} (h : c ∈ e.elements) : sizeOf c < sizeOf e := by
  have hlt := List.sizeOf_lt_of_mem h
  cases e
  simp only [ElementPattern.mk.sizeOf_spec] at hlt ⊢
  omega

/-- Induction over a pattern tree: what holds of an element once it holds of
    its children holds of every element. -/
theorem childInduction {P : ElementPattern → Prop}
    (step : ∀ e : ElementPattern, (∀ c ∈ e.elements, P c) → P e) (e : ElementPattern) : P e :=
  step e fun c _ => childInduction step c
termination_by sizeOf e
decreasing_by exact sizeOf_child ‹_›

theorem mem_walkList {x : ElementPattern} : ∀ {es : List ElementPattern},
    x ∈ walkList es ↔ ∃ e ∈ es, x ∈ e.walk
  | [] => by simp [walkList]
  | e :: es => by simp [walkList, mem_walkList]

theorem mem_walk {x e : ElementPattern} : x ∈ e.walk ↔ x = e ∨ ∃ c ∈ e.elements, x ∈ c.walk := by
  cases e
  rw [walk, List.mem_cons, mem_walkList]

theorem forall_mem_walk {P : ElementPattern → Prop} {e : ElementPattern} :
    (∀ x ∈ e.walk, P x) ↔ P e ∧ ∀ c ∈ e.elements, ∀ x ∈ c.walk, P x := by
  constructor
  · intro h
    exact ⟨h e (mem_walk.2 (.inl rfl)), fun c hc x hx => h x (mem_walk.2 (.inr ⟨c, hc, hx⟩))⟩
  · rintro ⟨he, hchildren⟩ x hx
    rcases mem_walk.1 hx with rfl | ⟨c, hc, hx⟩
    · exact he
    · exact hchildren c hc x hx

end ElementPattern

/-! ## One step -/

theorem ResolveM.run_bind {α β : Type} (x : ResolveM α) (f : α → ResolveM β) (s : Resolving) :
    (x >>= f) s = f (x s).1 (x s).2 := rfl

variable (lookup : String → ResolveM Target)

/-- **What becomes of one reference**: it stays as it is, the bodies it names
    take its place, or it stays and is marked. -/
theorem expandReferences_cons (owner : String) (grown : ElementPattern) (r : Reference)
    (rs : List Reference) (s : Resolving) :
    ∃ grown' s', expandReferences lookup owner grown (r :: rs) s =
        expandReferences lookup owner grown' rs s' ∧
      ((r.name = owner ∨ r.substituted = true) ∧ grown' = keepReference grown r ∧ s' = s ∨
        r.name ≠ owner ∧ r.substituted = false ∧ s'.done = (lookup r.name s).2.done ∧
          ((∃ bodies, (lookup r.name s).1 = .resolved bodies ∧
              grown' = bodies.foldl (inlineBody r.pattern) grown) ∨
            ((lookup r.name s).1 = .recursive ∨ (lookup r.name s).1 = .missing) ∧
              grown' = keepReference grown { r with substituted := true })) := by
  simp only [expandReferences]
  by_cases hk : r.name = owner ∨ r.substituted = true
  · refine ⟨keepReference grown r, s, ?_, .inl ⟨hk, rfl, rfl⟩⟩
    have hk' : (decide (r.name = owner) || r.substituted) = true := by simpa using hk
    rw [if_pos hk']
    rfl
  · have hk' : ¬ (decide (r.name = owner) || r.substituted) = true := by simpa using hk
    have hn : r.name ≠ owner ∧ r.substituted = false := by simpa using hk
    simp only [if_neg hk', ResolveM.run_bind]
    cases ht : (lookup r.name s).1 with
    | resolved bodies =>
      exact ⟨_, _, rfl, .inr ⟨hn.1, hn.2, rfl, .inl ⟨bodies, rfl, rfl⟩⟩⟩
    | recursive =>
      exact ⟨_, _, rfl, .inr ⟨hn.1, hn.2, rfl, .inr ⟨.inl rfl, rfl⟩⟩⟩
    | missing =>
      exact ⟨_, _, rfl, .inr ⟨hn.1, hn.2, rfl, .inr ⟨.inr rfl, rfl⟩⟩⟩

theorem resolveValue_cases (a : AttributePattern) (s : Resolving) :
    (a.valueReference = none ∧ resolveValue lookup a s = (a, s)) ∨
      ∃ name, a.valueReference = some name ∧
        (resolveValue lookup a s).2.done = (lookup name s).2.done ∧
        ((∃ bodies, (lookup name s).1 = .resolved bodies ∧ (resolveValue lookup a s).1 =
            bodies.foldl inlineValue { a with valueReference := none }) ∨
          ((lookup name s).1 = .recursive ∨ (lookup name s).1 = .missing) ∧
            (resolveValue lookup a s).1 = { a with valueReference := none }) := by
  cases hv : a.valueReference with
  | none => exact .inl ⟨rfl, by simp only [resolveValue, hv]; rfl⟩
  | some name =>
    refine .inr ⟨name, rfl, ?_⟩
    simp only [resolveValue, hv, ResolveM.run_bind]
    cases ht : (lookup name s).1 with
    | resolved bodies => exact ⟨rfl, .inl ⟨bodies, rfl, rfl⟩⟩
    | recursive => exact ⟨rfl, .inr ⟨.inl rfl, rfl⟩⟩
    | missing => exact ⟨rfl, .inr ⟨.inr rfl, rfl⟩⟩

/-- An element is resolved in three passes: its references, its attributes and
    its children. -/
theorem substitute_run (e : ElementPattern) (s : Resolving) :
    substitute lookup e s =
      let r := expandReferences lookup e.name { e with elements := [], references := [] }
        e.references s
      let a := (r.1.attributes.mapM (resolveValue lookup) : ResolveM _) r.2
      let es := substituteAll lookup e.elements a.2
      ({ r.1 with attributes := a.1, elements := es.1 ++ r.1.elements }, es.2) := by
  cases e
  rfl

theorem substituteAll_cons (e : ElementPattern) (es : List ElementPattern) (s : Resolving) :
    substituteAll lookup (e :: es) s =
      let r := substitute lookup e s
      let rs := substituteAll lookup es r.2
      (r.1 :: rs.1, rs.2) := rfl

theorem substituteAll_eq_mapM : ∀ es : List ElementPattern,
    substituteAll lookup es = es.mapM (substitute lookup)
  | [] => List.mapM_nil.symm
  | e :: es => by rw [substituteAll, List.mapM_cons, substituteAll_eq_mapM es]

/-! ## Many steps -/

variable {lookup}

theorem forall₂_mem_right {α β : Type} {R : α → β → Prop} {as : List α} {bs : List β}
    (h : List.Forall₂ R as bs) {b : β} (hb : b ∈ bs) : ∃ a ∈ as, R a b := by
  induction h with
  | nil => cases hb
  | cons hr _ ih =>
    rcases List.mem_cons.1 hb with rfl | hb
    · exact ⟨_, List.mem_cons_self, hr⟩
    · obtain ⟨a, ha, har⟩ := ih hb
      exact ⟨a, List.mem_cons_of_mem _ ha, har⟩

theorem forall₂_mem_left {α β : Type} {R : α → β → Prop} {as : List α} {bs : List β}
    (h : List.Forall₂ R as bs) {a : α} (ha : a ∈ as) : ∃ b ∈ bs, R a b := by
  obtain ⟨b, hb, hr⟩ := forall₂_mem_right h.flip ha
  exact ⟨b, hb, hr⟩

theorem forall₂_append_cons {α β : Type} {R : α → β → Prop} {as as' : List α} {a : α} {bs : List β}
    (h : List.Forall₂ R (as ++ a :: as') bs) :
    ∃ before b after, bs = before ++ b :: after ∧ R a b ∧ List.Forall₂ R as before := by
  induction as generalizing bs with
  | nil =>
    cases h with
    | cons hr _ => exact ⟨[], _, _, rfl, hr, .nil⟩
  | cons _ as ih =>
    cases h with
    | cons hr h =>
      obtain ⟨before, b, after, rfl, hb, hbefore⟩ := ih h
      exact ⟨_ :: before, b, after, rfl, hb, .cons hr hbefore⟩

theorem eq_map_of_forall₂ {α β : Type} {f : α → β} {as : List α} {bs : List β}
    (h : List.Forall₂ (fun a b => b = f a) as bs) : bs = as.map f := by
  induction h with
  | nil => rfl
  | cons hr _ ih => rw [hr, ih, List.map_cons]

section
variable {D : Definitions → Prop}

theorem mapM_each {α : Type} {f : α → ResolveM α} {Q : α → α → Prop} : ∀ {as : List α},
    (∀ a ∈ as, ∀ s : Resolving, D s.done → D (f a s).2.done ∧ Q a (f a s).1) →
    ∀ s : Resolving, D s.done → D ((as.mapM f : ResolveM _) s).2.done ∧
      List.Forall₂ Q as ((as.mapM f : ResolveM _) s).1
  | [], _, s, hs => by
    rw [List.mapM_nil]
    exact ⟨hs, .nil⟩
  | a :: as, h, s, hs => by
    obtain ⟨h₁, hq⟩ := h a List.mem_cons_self s hs
    obtain ⟨h₂, hqs⟩ := mapM_each (fun b hb => h b (List.mem_cons_of_mem _ hb)) _ h₁
    rw [List.mapM_cons]
    exact ⟨h₂, .cons hq hqs⟩

theorem substituteAll_each {Q : ElementPattern → ElementPattern → Prop} {es : List ElementPattern}
    (h : ∀ e ∈ es, ∀ s : Resolving, D s.done →
      D (substitute lookup e s).2.done ∧ Q e (substitute lookup e s).1) (s : Resolving)
    (hs : D s.done) :
    D (substituteAll lookup es s).2.done ∧ List.Forall₂ Q es (substituteAll lookup es s).1 := by
  rw [substituteAll_eq_mapM]
  exact mapM_each h s hs

end

/-- **What a name leads to**: bodies resolved before, a definition that is
    being resolved, nothing, or bodies that are resolved now. -/
theorem lookupIn_cases (ds : Definitions) (path : List String) (name : String) (s : Resolving) :
    (∃ bodies, s.done.get? name = some bodies ∧
        lookupIn ds path name s = (.resolved bodies, s)) ∨
      s.done.get? name = none ∧ name ∈ path ∧ lookupIn ds path name s = (.recursive, s) ∨
      s.done.get? name = none ∧ name ∉ path ∧ ds.get? name = none ∧
        lookupIn ds path name s = (.missing, s) ∨
      s.done.get? name = none ∧ name ∉ path ∧ ∃ bodies, ds.get? name = some bodies ∧
        lookupIn ds path name s =
          let r := substituteAll (lookupIn ds (name :: path)) bodies s
          (.resolved r.1, { r.2 with done := r.2.done.insert name r.1 }) := by
  rw [lookupIn, ResolveM.run_bind]
  cases hd : s.done.get? name with
  | some bodies =>
    refine .inl ⟨bodies, rfl, ?_⟩
    have hg : ((get : ResolveM Resolving) s).1.done.get? name = some bodies := hd
    simp only [hg]
    rfl
  | none =>
    have hg : ((get : ResolveM Resolving) s).1.done.get? name = none := hd
    simp only [hg]
    by_cases hp : name ∈ path
    · exact .inr (.inl ⟨trivial, hp, by rw [dif_pos hp]; rfl⟩)
    · rw [dif_neg hp]
      refine .inr (.inr ?_)
      rcases hds : ds.get? name with _ | bodies
      · exact .inl ⟨trivial, hp, rfl, rfl⟩
      · exact .inr ⟨trivial, hp, bodies, rfl, rfl⟩

end Bindery.Schema
