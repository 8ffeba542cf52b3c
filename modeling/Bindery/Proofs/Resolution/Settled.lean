/-
  Trees with nothing left to resolve.

  A tree is settled if every reference left in it has been dealt with, or has
  the name of the element that holds it, and no attribute has a definition of
  its value left.

  * `substitute_settled`: a settled tree is left as it is, whatever the names
    in it lead to, and no definition is looked up;
  * `settled_substitute`: what comes out is settled, if the bodies that names
    lead to are.  The definitions resolved so far are the invariant
    (`DoneSettled`): every definition enters them with settled bodies;
  * `resolve_resolve`: resolving a grammar a second time changes nothing.
-/
import Bindery.Proofs.Resolution.Walk

namespace Bindery.Schema

/-- The references of the element have been dealt with or name the element,
    and the values of its attributes need no definition. -/
def ElementPattern.Dealt (e : ElementPattern) : Prop :=
  (∀ r ∈ e.references, r.name = e.name ∨ r.substituted = true) ∧
    ∀ a ∈ e.attributes, a.valueReference = none

def ElementPattern.Settled (e : ElementPattern) : Prop := ∀ x ∈ e.walk, x.Dealt

theorem ElementPattern.settled_iff {e : ElementPattern} :
    e.Settled ↔ e.Dealt ∧ ∀ c ∈ e.elements, c.Settled :=
  forall_mem_walk

variable {lookup : String → ResolveM Target}

/-! ## A settled tree stays as it is -/

theorem expandReferences_dealt {owner : String} :
    ∀ {rs : List Reference}, (∀ r ∈ rs, r.name = owner ∨ r.substituted = true) →
      ∀ (grown : ElementPattern) (s : Resolving), expandReferences lookup owner grown rs s =
        ({ grown with references := grown.references ++ rs }, s)
  | [], _, grown, s => by
    cases grown
    simp [expandReferences]
    rfl
  | r :: rs, h, grown, s => by
    obtain ⟨grown', s', heq, ⟨-, rfl, rfl⟩ | ⟨hn, hf, -⟩⟩ :=
      expandReferences_cons lookup owner grown r rs s
    · rw [heq, expandReferences_dealt fun q hq => h q (List.mem_cons_of_mem _ hq)]
      simp [keepReference]
    · rcases h r List.mem_cons_self with h | h
      · exact absurd h hn
      · rw [hf] at h
        cases h

theorem mapM_resolveValue_none :
    ∀ {as : List AttributePattern}, (∀ a ∈ as, a.valueReference = none) → ∀ s : Resolving,
      (as.mapM (resolveValue lookup) : ResolveM _) s = (as, s)
  | [], _, s => by
    rw [List.mapM_nil]
    rfl
  | a :: as, h, s => by
    rw [List.mapM_cons, ResolveM.run_bind, ResolveM.run_bind]
    rcases resolveValue_cases lookup a s with ⟨-, ha⟩ | ⟨name, hv, -⟩
    · rw [ha, mapM_resolveValue_none fun b hb => h b (List.mem_cons_of_mem _ hb)]
      rfl
    · rw [h a List.mem_cons_self] at hv
      cases hv

theorem substituteAll_fixed :
    ∀ {es : List ElementPattern}, (∀ e ∈ es, ∀ s, substitute lookup e s = (e, s)) →
      ∀ s, substituteAll lookup es s = (es, s)
  | [], _, _ => rfl
  | e :: es, h, s => by
    rw [substituteAll_cons, h e List.mem_cons_self]
    simp only
    rw [substituteAll_fixed fun c hc => h c (List.mem_cons_of_mem _ hc)]

theorem substitute_settled (e : ElementPattern) :
    e.Settled → ∀ s, substitute lookup e s = (e, s) := by
  induction e using ElementPattern.childInduction with
  | step e ih =>
    intro h s
    obtain ⟨⟨hr, ha⟩, hc⟩ := ElementPattern.settled_iff.1 h
    rw [substitute_run, expandReferences_dealt hr]
    simp only
    rw [mapM_resolveValue_none ha, substituteAll_fixed fun c hm => ih c hm (hc c hm)]
    cases e
    simp

/-! ## What comes out is settled -/

/-- The bodies resolved so far are settled. -/
def DoneSettled (done : Definitions) : Prop :=
  ∀ name bodies, done.get? name = some bodies → ∀ b ∈ bodies, b.Settled

/-- A function from names that leads to settled bodies. -/
def LeadsToSettled (lookup : String → ResolveM Target) : Prop :=
  ∀ name (s : Resolving), DoneSettled s.done → DoneSettled (lookup name s).2.done ∧
    ∀ bodies, (lookup name s).1 = .resolved bodies → ∀ b ∈ bodies, b.Settled

/-- What an element is like while its references are expanded: those put back
    have been dealt with, and the elements put in are settled. -/
structure Growing (owner : String) (grown : ElementPattern) : Prop where
  name : grown.name = owner
  references : ∀ r ∈ grown.references, r.name = owner ∨ r.substituted = true
  elements : ∀ c ∈ grown.elements, c.Settled

theorem Growing.start (e : ElementPattern) :
    Growing e.name { e with elements := [], references := [] } :=
  ⟨rfl, nofun, nofun⟩

theorem Growing.keep {owner : String} {grown : ElementPattern} (h : Growing owner grown)
    {r : Reference} (hr : r.name = owner ∨ r.substituted = true) :
    Growing owner (keepReference grown r) where
  name := h.name
  references q hq := by
    rcases List.mem_append.1 hq with hq | hq
    · exact h.references q hq
    · cases List.mem_singleton.1 hq
      exact hr
  elements := h.elements

theorem settled_withPattern {e : ElementPattern} (h : e.Settled) (p : Pattern) :
    ElementPattern.Settled { e with pattern := p } := by
  obtain ⟨hd, hc⟩ := ElementPattern.settled_iff.1 h
  exact ElementPattern.settled_iff.2 ⟨hd, hc⟩

theorem Growing.inlineBody {owner : String} {grown body : ElementPattern}
    (h : Growing owner grown) (hb : body.Settled) (p : Pattern) :
    Growing owner (inlineBody p grown body) where
  name := h.name
  references q hq := by
    rcases List.mem_append.1 hq with hq | hq
    · exact h.references q hq
    · obtain ⟨r, -, rfl⟩ := List.mem_map.1 hq
      exact .inr rfl
  elements c hc := by
    rcases List.mem_append.1 hc with hc | hc
    · exact h.elements c hc
    · obtain ⟨x, hx, rfl⟩ := List.mem_map.1 hc
      exact settled_withPattern ((ElementPattern.settled_iff.1 hb).2 x hx) _

theorem Growing.inlineBodies {owner : String} (p : Pattern) :
    ∀ (bodies : List ElementPattern) {grown : ElementPattern}, Growing owner grown →
      (∀ b ∈ bodies, b.Settled) → Growing owner (bodies.foldl (Schema.inlineBody p) grown)
  | [], _, h, _ => h
  | b :: bodies, _, h, hb =>
    Growing.inlineBodies p bodies (h.inlineBody (hb b List.mem_cons_self) p)
      fun c hc => hb c (List.mem_cons_of_mem _ hc)

theorem expandReferences_growing (hl : LeadsToSettled lookup) {owner : String} :
    ∀ (rs : List Reference) {grown : ElementPattern} {s : Resolving}, DoneSettled s.done →
      Growing owner grown → DoneSettled (expandReferences lookup owner grown rs s).2.done ∧
        Growing owner (expandReferences lookup owner grown rs s).1
  | [], _, _, hs, hg => ⟨hs, hg⟩
  | r :: rs, grown, s, hs, hg => by
    obtain ⟨grown', s', heq, hstep⟩ := expandReferences_cons lookup owner grown r rs s
    rw [heq]
    obtain ⟨hd, hb⟩ := hl r.name s hs
    rcases hstep with ⟨hk, rfl, rfl⟩ | ⟨-, -, hdone, ⟨bodies, ht, rfl⟩ | ⟨-, rfl⟩⟩
    · exact expandReferences_growing hl rs hs (hg.keep hk)
    · exact expandReferences_growing hl rs (hdone ▸ hd) (.inlineBodies _ bodies hg (hb bodies ht))
    · exact expandReferences_growing hl rs (hdone ▸ hd) (hg.keep (.inr rfl))

theorem foldl_inlineValue_valueReference (bodies : List ElementPattern) :
    ∀ a : AttributePattern, (bodies.foldl inlineValue a).valueReference = a.valueReference := by
  induction bodies with
  | nil => intro a; rfl
  | cons b bodies ih => intro a; rw [List.foldl_cons, ih]; rfl

theorem resolveValue_settled (hl : LeadsToSettled lookup) (a : AttributePattern) (s : Resolving)
    (hs : DoneSettled s.done) : DoneSettled (resolveValue lookup a s).2.done ∧
      (resolveValue lookup a s).1.valueReference = none := by
  rcases resolveValue_cases lookup a s with
    ⟨hv, ha⟩ | ⟨name, -, hdone, ⟨bodies, -, hr⟩ | ⟨-, hr⟩⟩
  · rw [ha]
    exact ⟨hs, hv⟩
  · rw [hdone, hr, foldl_inlineValue_valueReference]
    exact ⟨(hl name s hs).1, rfl⟩
  · rw [hdone, hr]
    exact ⟨(hl name s hs).1, rfl⟩

theorem settled_substitute (hl : LeadsToSettled lookup) (e : ElementPattern) :
    ∀ s : Resolving, DoneSettled s.done → DoneSettled (substitute lookup e s).2.done ∧
      (substitute lookup e s).1.Settled := by
  induction e using ElementPattern.childInduction with
  | step e ih =>
    intro s hs
    obtain ⟨h₁, hg⟩ := expandReferences_growing hl e.references hs (.start e)
    obtain ⟨h₂, ha⟩ := mapM_each (Q := fun _ a => a.valueReference = none)
      (fun a _ t ht => resolveValue_settled hl a t ht) _ h₁
    obtain ⟨h₃, hc⟩ := substituteAll_each (Q := fun _ c => c.Settled) ih _ h₂
    rw [substitute_run]
    refine ⟨h₃, ElementPattern.settled_iff.2 ⟨⟨?_, ?_⟩, ?_⟩⟩
    · intro r hr
      rcases hg.references r hr with h | h
      · exact .inl (h.trans hg.name.symm)
      · exact .inr h
    · intro a hm
      obtain ⟨-, -, hb⟩ := forall₂_mem_right ha hm
      exact hb
    · intro c hm
      rcases List.mem_append.1 hm with hm | hm
      · obtain ⟨-, -, hb⟩ := forall₂_mem_right hc hm
        exact hb
      · exact hg.elements c hm

/-! ## Definitions -/

theorem DoneSettled.insert {done : Definitions} (h : DoneSettled done) {name : String}
    {bodies : List ElementPattern} (hb : ∀ b ∈ bodies, b.Settled) :
    DoneSettled (done.insert name bodies) := by
  intro key found hf
  by_cases hk : key = name
  · subst hk
    rw [Table.get?_insert_self] at hf
    cases hf
    exact hb
  · rw [Table.get?_insert_of_ne _ _ hk] at hf
    exact h key found hf

theorem lookupIn_leadsToSettled (ds : Definitions) (path : List String) :
    LeadsToSettled (lookupIn ds path) := by
  -- on the definitions that are not being resolved, of which there are fewer for every body
  induction h : remaining ds.keys path using Nat.strongRecOn generalizing path with
  | ind n ih =>
    intro name s hs
    rcases lookupIn_cases ds path name s with
      ⟨bodies, hd, heq⟩ | ⟨-, -, heq⟩ | ⟨-, -, -, heq⟩ | ⟨-, hp, bodies, hb, heq⟩
    · rw [heq]
      refine ⟨hs, fun found hf => ?_⟩
      cases hf
      exact hs name bodies hd
    · rw [heq]
      exact ⟨hs, fun _ hf => by cases hf⟩
    · rw [heq]
      exact ⟨hs, fun _ hf => by cases hf⟩
    · have hlt := remaining_cons_lt (Table.mem_keys_of_get? hb) hp
      have hl : LeadsToSettled (lookupIn ds (name :: path)) := ih _ (h ▸ hlt) _ rfl
      obtain ⟨h₁, hall⟩ := substituteAll_each (Q := fun _ c => c.Settled)
        (fun b (_ : b ∈ bodies) t ht => settled_substitute hl b t ht) s hs
      have hset : ∀ b ∈ (substituteAll (lookupIn ds (name :: path)) bodies s).1, b.Settled := by
        intro b hm
        obtain ⟨-, -, hq⟩ := forall₂_mem_right hall hm
        exact hq
      rw [heq]
      refine ⟨h₁.insert hset, fun found hf => ?_⟩
      cases hf
      exact hset

theorem settled_resolve (g : Grammar) : g.resolve.1.start.Settled :=
  (settled_substitute (lookupIn_leadsToSettled g.definitions []) g.start {}
    fun _ _ h => by cases h).2

/-- **Resolving is idempotent**: whatever the start and the definitions of a
    grammar are, a second run leaves the start, the bodies of all definitions
    and their order as they are, and has nothing to tell. -/
theorem resolve_resolve (g : Grammar) : g.resolve.1.resolve = (g.resolve.1, []) := by
  have hset := settled_resolve g
  generalize g.resolve.1 = r at hset
  have hrun : (substitute (lookupIn r.definitions []) r.start).run {} = (r.start, {}) :=
    substitute_settled r.start hset {}
  have hdefs : r.definitions.entries.map
      (fun entry => (entry.1, ((({} : Resolving).done.get? entry.1).getD entry.2))) =
        r.definitions.entries := List.map_id _
  simp only [Grammar.resolve, hrun]
  rw [hdefs]

end Bindery.Schema
