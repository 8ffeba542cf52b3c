/-
  Resolving in place.

  References can be resolved by a walk that changes the tree and the
  definitions as it goes.  What takes the place of a reference is then walked
  once more, with the children it has joined, and a definition is kept from
  being entered twice by a mark alone.  Nothing becomes smaller from call to
  call, so the walk is a least fixed point, in which `none` stands for a walk
  without end.

  * `walk_settled`: what was put in is left as it is, and enters no definition;
  * `Tracks`: what marks and changed definitions say about those that are
    resolved and those being resolved;
  * `resolve_in_place`: the walk ends for every grammar, and it ends with the
    resolved one.
-/
import Bindery.Proofs.Resolution.Outcome
import Bindery.Proofs.Resolution.Settled

namespace Bindery.Schema

/-! ## The walk -/

/-- How far a definition that was entered has come. -/
inductive Mark where
  | inProgress
  | resolved

/-- The definitions as they stand, and which of them were entered. -/
structure Workspace where
  definitions : Definitions
  marks : Table Mark := {}
  notices : List Notice := []

/-- A step of the walk, unless it has no end. -/
abbrev WalkM := StateT Workspace Option

def WalkM.tell (n : Notice) : WalkM Unit :=
  modify fun w => { w with notices := w.notices ++ [n] }

mutual

/-- Walks an element: its references, the values of its attributes, and then all
    its children, also those that took the place of references. -/
def ElementPattern.walkInPlace (e : ElementPattern) : WalkM ElementPattern := do
  let grown ← { e with elements := [], references := [] } |>.expandInPlace e.name e.references
  let attributes ← grown.attributes.mapM (· |>.walkInPlace)
  let elements ← (e.elements ++ grown.elements).mapM (· |>.walkInPlace)
  return { grown with attributes, elements }
partial_fixpoint

/-- Puts the content of definitions in the place of references. -/
def ElementPattern.expandInPlace (owner : String) (grown : ElementPattern)
    (rs : List Reference) : WalkM ElementPattern :=
  match rs with
  | [] => return grown
  | r :: rs => do
    let grown ←
      if r.name = owner || r.substituted then pure (keepReference grown r)
      else do
        let kept := keepReference grown { r with substituted := true }
        match ← r |>.enter with
        | .resolved bodies => pure (bodies.foldl (inlineBody r.pattern) grown)
        | .recursive => do
          WalkM.tell (.recursiveReference r.name owner)
          pure kept
        | .missing => do
          WalkM.tell (.undefinedReference r.name owner)
          pure kept
    grown |>.expandInPlace owner rs
partial_fixpoint

/-- Gives an attribute the type that the definition of its value has. -/
def AttributePattern.walkInPlace (a : AttributePattern) : WalkM AttributePattern :=
  match a.valueReference with
  | none => pure a
  | some name => do
    let a := { a with valueReference := none }
    match ← { name : Reference } |>.enter with
    | .resolved bodies => pure (bodies.foldl inlineValue a)
    | .recursive => pure a
    | .missing => do
      WalkM.tell (.undefinedValue a.name name)
      pure a
partial_fixpoint

/-- Enters the definition that is referred to, unless it was entered before.  While
    its bodies are walked the table has none for it. -/
def Reference.enter (r : Reference) : WalkM Target := do
  let w ← get
  match w.marks.get? r.name with
  | some .resolved => return .resolved ((w.definitions.get? r.name).getD [])
  | some .inProgress => return .recursive
  | none =>
    match w.definitions.get? r.name with
    | none => return .missing
    | some bodies =>
      set { w with
        marks := w.marks.insert r.name .inProgress
        definitions := w.definitions.insert r.name [] }
      let bodies ← bodies.mapM (· |>.walkInPlace)
      modify fun w => { w with
        marks := w.marks.insert r.name .resolved
        definitions := w.definitions.insert r.name bodies }
      return .resolved bodies
partial_fixpoint

end

namespace InPlace

open ElementPattern (walkInPlace expandInPlace)

/-! ## What was put in -/

theorem expand_dealt {owner : String} : ∀ {rs : List Reference},
    (∀ r ∈ rs, r.name = owner ∨ r.substituted = true) → ∀ grown : ElementPattern,
      expandInPlace owner grown rs = pure { grown with references := grown.references ++ rs }
  | [], _, grown => by
    rw [expandInPlace, List.append_nil]
    cases grown
    rfl
  | r :: rs, h, grown => by
    have hr : (decide (r.name = owner) || r.substituted) = true := by
      simpa using h r List.mem_cons_self
    simp only [expandInPlace, if_pos hr, pure_bind,
      expand_dealt fun q hq => h q (List.mem_cons_of_mem _ hq), keepReference, List.append_assoc,
      List.singleton_append]

theorem mapM_fixed {α : Type} {f : α → WalkM α} : ∀ {as : List α}, (∀ a ∈ as, f a = pure a) →
    as.mapM f = pure as
  | [], _ => List.mapM_nil
  | a :: as, h => by
    rw [List.mapM_cons, h a List.mem_cons_self, pure_bind,
      mapM_fixed fun b hb => h b (List.mem_cons_of_mem _ hb), pure_bind]

/-- **A settled tree is left as it is**, and nothing is entered for it. -/
theorem walk_settled (e : ElementPattern) : e.Settled → e.walkInPlace = pure e := by
  induction e using ElementPattern.childInduction with
  | step e ih =>
    intro h
    obtain ⟨⟨hr, ha⟩, hc⟩ := ElementPattern.settled_iff.1 h
    have hvalue : ∀ a ∈ e.attributes, a.walkInPlace = pure a := by
      intro a hm
      rw [AttributePattern.walkInPlace, ha a hm]
    rw [walkInPlace, expand_dealt hr, pure_bind]
    simp only [pure_bind, mapM_fixed hvalue, List.append_nil, List.nil_append,
      mapM_fixed fun c hm => ih c hm (hc c hm)]
    cases e
    rfl

/-! ## Marks -/

/-- Whether the marks and the definitions as they stand say which definitions
    are resolved, with which bodies, and which are being resolved. -/
structure Tracks (ds : Definitions) (path : List String) (s : Resolving) (w : Workspace) :
    Prop where
  marks : ∀ name, w.marks.get? name =
    if (s.done.get? name).isSome then some .resolved
    else if name ∈ path then some .inProgress else none
  resolved : ∀ name bodies, s.done.get? name = some bodies →
    w.definitions.get? name = some bodies
  untouched : ∀ name, s.done.get? name = none → name ∉ path →
    w.definitions.get? name = ds.get? name
  keys : w.definitions.keys = ds.keys
  settled : DoneSettled s.done
  notices : w.notices = s.notices

/-- Whether a step of the walk ends, with what the step `y` gives. -/
def Follows {α : Type} (ds : Definitions) (path : List String) (x : WalkM α) (y : ResolveM α) :
    Prop :=
  ∀ s w, Tracks ds path s w → ∃ w', x.run w = some ((y s).1, w') ∧ Tracks ds path (y s).2 w'

section
variable {α β : Type} {ds : Definitions} {path : List String}

theorem Follows.pure (a : α) : Follows ds path (Pure.pure a) (Pure.pure a) :=
  fun _ w h => ⟨w, rfl, h⟩

theorem Follows.bind {x : WalkM α} {y : ResolveM α} {f : α → WalkM β} {g : α → ResolveM β}
    (h : Follows ds path x y) (hf : ∀ a, Follows ds path (f a) (g a)) :
    Follows ds path (x >>= f) (y >>= g) := by
  intro s w ht
  obtain ⟨w₁, hx, ht₁⟩ := h s w ht
  obtain ⟨w₂, hfx, ht₂⟩ := hf _ _ w₁ ht₁
  refine ⟨w₂, ?_, ht₂⟩
  rw [StateT.run_bind, hx]
  exact hfx

theorem follows_tell (n : Notice) : Follows ds path (WalkM.tell n) (ResolveM.tell n) :=
  fun _ _ h => ⟨_, rfl, { h with notices := congrArg (· ++ [n]) h.notices }⟩

theorem Follows.mapM {f : α → WalkM β} {g : α → ResolveM β} : ∀ {as : List α},
    (∀ a ∈ as, Follows ds path (f a) (g a)) → Follows ds path (as.mapM f) (as.mapM g)
  | [], _ => by
    rw [List.mapM_nil, List.mapM_nil]
    exact .pure _
  | a :: as, h => by
    rw [List.mapM_cons, List.mapM_cons]
    exact .bind (h a List.mem_cons_self) fun b =>
      .bind (Follows.mapM fun c hc => h c (List.mem_cons_of_mem _ hc)) fun bs => .pure _

variable (hlookup : ∀ r : Reference, Follows ds path r.enter (lookupIn ds path r.name))
include hlookup

theorem follows_expand (owner : String) : ∀ (rs : List Reference) (grown : ElementPattern),
    Follows ds path (expandInPlace owner grown rs)
      (expandReferences (lookupIn ds path) owner grown rs)
  | [], grown => by
    rw [expandInPlace, expandReferences]
    exact .pure _
  | r :: rs, grown => by
    rw [expandInPlace, expandReferences]
    split
    · exact .bind (.pure _) (follows_expand owner rs)
    · refine .bind (hlookup r) fun found => ?_
      cases found with
      | resolved bodies => exact .bind (.pure _) (follows_expand owner rs)
      | recursive | missing =>
        exact .bind (follows_tell _) fun _ => .bind (.pure _) (follows_expand owner rs)

theorem follows_value (a : AttributePattern) :
    Follows ds path a.walkInPlace (resolveValue (lookupIn ds path) a) := by
  rw [AttributePattern.walkInPlace, resolveValue]
  cases a.valueReference with
  | none => exact .pure _
  | some name =>
    refine .bind (hlookup { name }) fun found => ?_
    cases found with
    | resolved bodies => exact .pure _
    | recursive => exact .pure _
    | missing => exact .bind (follows_tell _) fun _ => .pure _

theorem follows_walk (e : ElementPattern) :
    Follows ds path e.walkInPlace (substitute (lookupIn ds path) e) := by
  induction e using ElementPattern.childInduction with
  | step e ih =>
    intro s w h
    obtain ⟨w₁, hexpand, h₁⟩ := follows_expand hlookup e.name e.references
      { e with elements := [], references := [] } s w h
    have hgrown := (expandReferences_growing (lookupIn_leadsToSettled ds path) e.references
      h.settled (.start e)).2
    obtain ⟨w₂, hvalues, h₂⟩ := Follows.mapM (fun a _ => follows_value hlookup a) _ w₁ h₁
    obtain ⟨w₃, hchildren, h₃⟩ := Follows.mapM ih _ w₂ h₂
    rw [← substituteAll_eq_mapM] at hchildren h₃
    refine ⟨w₃, ?_, substitute_run (lookupIn ds path) e s ▸ h₃⟩
    -- the children that were put in are settled
    have hinlined := mapM_fixed fun c hc => walk_settled c (hgrown.elements c hc)
    rw [walkInPlace]
    simp only [StateT.run_bind, hexpand, Option.bind_eq_bind, Option.bind_some, hvalues,
      List.mapM_append, hchildren, hinlined, StateT.run_pure]
    rw [substitute_run]
    rfl

end

section
variable {ds : Definitions} {path : List String} {s : Resolving} {w : Workspace} {name : String}

theorem Tracks.take (h : Tracks ds path s w) (hdone : s.done.get? name = none)
    {bodies : List ElementPattern} (hds : ds.get? name = some bodies) :
    Tracks ds (name :: path) s { w with
      marks := w.marks.insert name .inProgress
      definitions := w.definitions.insert name [] } where
  marks key := by
    by_cases hk : key = name
    · rw [hk, Table.get?_insert_self, hdone, if_neg (by simp), if_pos List.mem_cons_self]
    · simp only [Table.get?_insert_of_ne _ _ hk, h.marks, List.mem_cons, hk, false_or]
  resolved key bodies' hb := by
    refine (Table.get?_insert_of_ne _ _ ?_).trans (h.resolved key bodies' hb)
    rintro rfl
    rw [hdone] at hb
    cases hb
  untouched key hk hp := by
    rw [List.mem_cons, not_or] at hp
    exact (Table.get?_insert_of_ne _ _ hp.1).trans (h.untouched key hk hp.2)
  keys := by
    rw [Table.keys_insert, if_pos (h.keys ▸ Table.mem_keys_of_get? hds), h.keys]
  settled := h.settled
  notices := h.notices

theorem Tracks.restore (h : Tracks ds (name :: path) s w) {bodies : List ElementPattern}
    (hname : name ∈ ds.keys) (hb : ∀ b ∈ bodies, b.Settled) :
    Tracks ds path { s with done := s.done.insert name bodies } { w with
      marks := w.marks.insert name .resolved
      definitions := w.definitions.insert name bodies } where
  marks key := by
    by_cases hk : key = name
    · simp only [hk, Table.get?_insert_self, Option.isSome_some, if_true]
    · simp only [Table.get?_insert_of_ne _ _ hk, h.marks, List.mem_cons, hk, false_or]
  resolved key bodies' hget := by
    rcases Table.get?_insert_cases hget with ⟨rfl, rfl⟩ | ⟨hk, hget⟩
    · exact Table.get?_insert_self _ _ _
    · exact (Table.get?_insert_of_ne _ _ hk).trans (h.resolved key bodies' hget)
  untouched key hget hp := by
    have hk : key ≠ name := by
      rintro rfl
      rw [Table.get?_insert_self] at hget
      cases hget
    rw [Table.get?_insert_of_ne _ _ hk] at hget ⊢
    exact h.untouched key hget (List.not_mem_cons_of_ne_of_not_mem hk hp)
  keys := by
    rw [Table.keys_insert, if_pos (h.keys ▸ hname), h.keys]
  settled := h.settled.insert hb
  notices := h.notices

end

/-- **Entering a definition ends**, whichever definitions are being resolved. -/
theorem follows_enter (ds : Definitions) (path : List String) (r : Reference) :
    Follows ds path r.enter (lookupIn ds path r.name) := by
  -- on the definitions that are not marked, of which there are fewer for every body
  induction hn : remaining ds.keys path using Nat.strongRecOn generalizing path r with
  | ind n ih =>
    subst hn
    intro s w h
    rw [Reference.enter, StateT.run_bind, StateT.run_get, pure_bind]
    rcases lookupIn_cases ds path r.name s with
      ⟨bodies, hd, heq⟩ | ⟨hd, hp, heq⟩ | ⟨hd, hp, hds, heq⟩ | ⟨hd, hp, bodies, hds, heq⟩
    · refine ⟨w, ?_, heq ▸ h⟩
      simp only [h.marks, hd, Option.isSome_some, if_true, h.resolved _ bodies hd, heq]
      rfl
    · refine ⟨w, ?_, heq ▸ h⟩
      simp only [h.marks, hd, Option.isSome_none, Bool.false_eq_true, if_false, if_pos hp, heq]
      rfl
    · refine ⟨w, ?_, heq ▸ h⟩
      simp only [h.marks, hd, Option.isSome_none, Bool.false_eq_true, if_false, if_neg hp,
        h.untouched _ hd hp, hds, heq]
      rfl
    · have hname := Table.mem_keys_of_get? hds
      have hlookup : ∀ other : Reference, Follows ds (r.name :: path) other.enter
          (lookupIn ds (r.name :: path) other.name) :=
        fun other => ih _ (remaining_cons_lt hname hp) _ other rfl
      obtain ⟨w₁, hbodies, h₁⟩ :=
        Follows.mapM (fun b (_ : b ∈ bodies) => follows_walk hlookup b) s _ (h.take hd hds)
      rw [← substituteAll_eq_mapM] at hbodies h₁
      have hsettled := (lookupIn_leadsToSettled ds path r.name s h.settled).2
      rw [heq] at hsettled ⊢
      refine ⟨_, ?_, h₁.restore hname (hsettled _ rfl)⟩
      simp only [h.marks, hd, Option.isSome_none, Bool.false_eq_true, if_false, if_neg hp,
        h.untouched _ hd hp, hds, StateT.run_bind, StateT.run_set, pure_bind, hbodies]
      rfl

end InPlace

/-- **Resolving ends for every grammar.**  Whatever the start and the definitions
    are, also with definitions that lead back to themselves, at once or through
    others, with or without an element in between, with attribute values that
    lead back into a definition, and with names that are not defined: the walk in
    place has an end.  It ends with the resolved start, with the resolved
    definitions in the places of those that were read, and tells the same. -/
theorem resolve_in_place (g : Grammar) :
    ∃ w, g.start.walkInPlace.run { definitions := g.definitions } =
        some (g.resolve.1.start, w) ∧
      w.definitions.keys = g.definitions.keys ∧
      (∀ name, w.definitions.get? name = g.resolve.1.definitions.get? name) ∧
      w.notices = g.resolve.2 := by
  have hstart : InPlace.Tracks g.definitions [] {} { definitions := g.definitions } :=
    { marks := fun _ => rfl
      resolved := fun _ _ h => by cases h
      untouched := fun _ _ _ => rfl
      keys := rfl
      settled := fun _ _ h => by cases h
      notices := rfl }
  obtain ⟨w, hrun, h⟩ := InPlace.follows_walk (InPlace.follows_enter g.definitions []) g.start {} _
    hstart
  refine ⟨w, hrun, h.keys, fun name => ?_, h.notices⟩
  have hresolved : g.resolve.1.definitions = Definitions.overlay g.definitions
      (substitute (lookupIn g.definitions []) g.start {}).2.done := rfl
  rw [hresolved, Definitions.get?_overlay]
  cases hdone : (substitute (lookupIn g.definitions []) g.start {}).2.done.get? name with
  | none =>
    rw [h.untouched name hdone List.not_mem_nil]
    simp
  | some bodies =>
    have hget := h.resolved name bodies hdone
    obtain ⟨read, hread⟩ := Option.isSome_iff_exists.1
      (Table.contains_iff.2 (h.keys ▸ Table.mem_keys_of_get? hget))
    rw [hget, hread]
    rfl

end Bindery.Schema
