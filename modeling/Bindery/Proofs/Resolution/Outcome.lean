/-
  Resolving as a relation.

  `Resolves ds table path e e'` says that `e'` is what resolving may make of
  the element `e` while the definitions of `path` are being resolved, with the
  resolved definitions found in `table`.  `Stage ds path table` says that a run
  may have come so far: `path` is entered and left like a stack, and a
  definition joins the table when it is left.

  What is true of resolved trees is proved from these relations, without the
  functions that resolve:

  * `substitute_resolves`, `lookupIn_finds`: the functions keep to the
    relations;
  * `resolve_stage`: a grammar is resolved to a finished stage.
-/
import Bindery.Proofs.Resolution.Expansion

namespace Bindery

namespace Table

variable {α : Type}

def Within (t t' : Table α) : Prop :=
  ∀ key value, t.get? key = some value → t'.get? key = some value

theorem Within.trans {t₁ t₂ t₃ : Table α} (h : t₁.Within t₂) (h' : t₂.Within t₃) :
    t₁.Within t₃ :=
  fun key value hk => h' key value (h key value hk)

theorem within_insert {t : Table α} {key : String} (h : t.get? key = none) (value : α) :
    t.Within (t.insert key value) := by
  intro other found ho
  rw [get?_insert_of_ne]
  · exact ho
  · rintro rfl
    rw [h] at ho
    cases ho

theorem get?_cons (k : String) (v : α) (entries : List (String × α)) (key : String) :
    (Table.mk ((k, v) :: entries)).get? key =
      if key = k then some v else (Table.mk entries).get? key := by
  by_cases hk : key = k
  · simp [get?, hk]
  · have hbeq : (key == k) = false := by simpa using hk
    simp [get?, List.lookup_cons, hbeq, hk]

theorem get?_map (f : String → α → α) (key : String) : ∀ entries : List (String × α),
    (Table.mk (entries.map fun entry => (entry.1, f entry.1 entry.2))).get? key =
      ((Table.mk entries).get? key).map (f key)
  | [] => rfl
  | (k, v) :: entries => by
    rw [List.map_cons, get?_cons, get?_cons, get?_map f key entries]
    split
    · rename_i hk
      rw [hk]
      rfl
    · rfl

end Table

namespace Schema

/-! ## The relations -/

section
variable (ds table : Definitions) (path : List String)

/-- Adding to an element what takes the place of references of the element
    `owner`, one after the other. -/
inductive Expands (owner : String) : ElementPattern → List Reference → ElementPattern → Prop
  | nil {grown} : Expands owner grown [] grown
  | keep {grown r rs out} : r.name = owner ∨ r.substituted = true →
      Expands owner (keepReference grown r) rs out → Expands owner grown (r :: rs) out
  /-- The name leads back into `path`, or nowhere. -/
  | guard {grown r rs out} : r.name ∈ path ∨ ds.get? r.name = none →
      Expands owner (keepReference grown { r with substituted := true }) rs out →
      Expands owner grown (r :: rs) out
  | inline {grown r rs out bodies} : table.get? r.name = some bodies →
      Expands owner (bodies.foldl (inlineBody r.pattern) grown) rs out →
      Expands owner grown (r :: rs) out

/-- Replacing the definition of an attribute's value. -/
inductive Valued : AttributePattern → AttributePattern → Prop
  | plain {a} : a.valueReference = none → Valued a a
  | guard {a name} : a.valueReference = some name → name ∈ path ∨ ds.get? name = none →
      Valued a { a with valueReference := none }
  | fill {a name bodies} : a.valueReference = some name → table.get? name = some bodies →
      Valued a (bodies.foldl inlineValue { a with valueReference := none })

/-- **Resolving an element**: its references, its attributes and its
    children. -/
inductive Resolves : ElementPattern → ElementPattern → Prop
  | intro {e grown attributes elements} :
      Expands ds table path e.name { e with elements := [], references := [] } e.references grown →
      List.Forall₂ (Valued ds table path) grown.attributes attributes →
      List.Forall₂ Resolves e.elements elements →
      Resolves e { grown with attributes, elements := elements ++ grown.elements }

end

/-- **How far a run has come**: the definitions being resolved, the innermost
    first, and those that are resolved. -/
inductive Stage (ds : Definitions) : List String → Definitions → Prop
  | start : Stage ds [] {}
  | enter {path table name} : Stage ds path table → table.get? name = none → name ∉ path →
      ds.LeadTo path name → Stage ds (name :: path) table
  | leave {path table name bodies resolved} : Stage ds (name :: path) table →
      ds.get? name = some bodies →
      List.Forall₂ (Resolves ds table (name :: path)) bodies resolved →
      Stage ds path (table.insert name resolved)

/-! ## A larger table -/

section
variable {ds table table' : Definitions} {path : List String}

theorem Expands.mono (ht : table.Within table') {owner : String} {grown out : ElementPattern}
    {rs : List Reference} (h : Expands ds table path owner grown rs out) :
    Expands ds table' path owner grown rs out := by
  induction h with
  | nil => exact .nil
  | keep hk _ ih => exact .keep hk ih
  | guard hg _ ih => exact .guard hg ih
  | inline hb _ ih => exact .inline (ht _ _ hb) ih

theorem Valued.mono (ht : table.Within table') {a a' : AttributePattern}
    (h : Valued ds table path a a') : Valued ds table' path a a' := by
  cases h with
  | plain hn => exact .plain hn
  | guard hv hg => exact .guard hv hg
  | fill hv hb => exact .fill hv (ht _ _ hb)

theorem forall₂_imp_mem {α β : Type} {R S : α → β → Prop} {as : List α} {bs : List β}
    (h : List.Forall₂ R as bs) (himp : ∀ a ∈ as, ∀ b, R a b → S a b) : List.Forall₂ S as bs := by
  induction h with
  | nil => exact .nil
  | cons hr _ ih =>
    exact .cons (himp _ List.mem_cons_self _ hr)
      (ih fun a ha => himp a (List.mem_cons_of_mem _ ha))

theorem Resolves.mono (ht : table.Within table') (e : ElementPattern) :
    ∀ e', Resolves ds table path e e' → Resolves ds table' path e e' := by
  induction e using ElementPattern.childInduction with
  | step e ih =>
    rintro _ ⟨hx, ha, hc⟩
    exact .intro (hx.mono ht) (ha.imp fun _ _ => .mono ht)
      (forall₂_imp_mem hc fun c hm c' => ih c hm c')

end

/-! ## Stages -/

namespace Stage

variable {ds table : Definitions} {path : List String}

theorem pairwise (h : Stage ds path table) :
    path.Pairwise fun name outer => name ≠ outer ∧ Relation.TransGen ds.Depends outer name := by
  induction h with
  | start => exact .nil
  | enter _ _ hn hl ih =>
    exact .cons (fun outer ho => ⟨fun heq => hn (heq ▸ ho), hl outer ho⟩) ih
  | leave _ _ _ ih => exact (List.pairwise_cons.1 ih).2

theorem leadTo {name : String} (h : Stage ds (name :: path) table) : ds.LeadTo path name :=
  fun outer ho => ((List.pairwise_cons.1 h.pairwise).1 outer ho).2

theorem absent (h : Stage ds path table) {name : String} (hn : name ∈ path) :
    table.get? name = none := by
  induction h with
  | start => cases hn
  | enter _ ha _ _ ih =>
    rcases List.mem_cons.1 hn with rfl | hn
    · exact ha
    · exact ih hn
  | leave hs _ _ ih =>
    have hne := ((List.pairwise_cons.1 hs.pairwise).1 name hn).1
    rw [Table.get?_insert_of_ne _ _ hne.symm]
    exact ih (List.mem_cons_of_mem _ hn)

theorem forall_table {P : String → List ElementPattern → Prop}
    (hleave : ∀ {path table name bodies resolved}, Stage ds (name :: path) table →
      ds.get? name = some bodies →
      List.Forall₂ (Resolves ds table (name :: path)) bodies resolved →
      (∀ other found, table.get? other = some found → P other found) → P name resolved)
    (h : Stage ds path table) : ∀ name found, table.get? name = some found → P name found := by
  induction h with
  | start => exact fun _ _ hn => by cases hn
  | enter _ _ _ _ ih => exact ih
  | @leave path table left bodies resolved hs hd hr ih =>
    intro name found hn
    by_cases hk : name = left
    · subst hk
      rw [Table.get?_insert_self] at hn
      cases hn
      exact hleave hs hd hr ih
    · rw [Table.get?_insert_of_ne _ _ hk] at hn
      exact ih name found hn

/-- **The bodies in the table are resolved**, each from the body that stands in
    its place in the definition. -/
theorem resolved (h : Stage ds path table) {name : String} {bodies' : List ElementPattern}
    (hn : table.get? name = some bodies') :
    ∃ bodies outer, ds.get? name = some bodies ∧ ds.LeadTo outer name ∧
      List.Forall₂ (Resolves ds table (name :: outer)) bodies bodies' := by
  induction h with
  | start => cases hn
  | enter _ _ _ _ ih => exact ih hn
  | @leave path table left bodies resolved hs hd hr ih =>
    have hin := Table.within_insert (hs.absent List.mem_cons_self) resolved
    by_cases hk : name = left
    · subst hk
      rw [Table.get?_insert_self] at hn
      cases hn
      exact ⟨bodies, path, hd, hs.leadTo, hr.imp fun e e' => Resolves.mono hin e e'⟩
    · rw [Table.get?_insert_of_ne _ _ hk] at hn
      obtain ⟨own, outer, hown, hl, hf⟩ := ih hn
      exact ⟨own, outer, hown, hl, hf.imp fun e e' => Resolves.mono hin e e'⟩

end Stage

/-! ## The functions keep to the relations -/

def Definitions.Among (table : Definitions) (Q : String → Prop) : Prop :=
  ∀ name bodies, table.get? name = some bodies → Q name

/-- A step from one stage to another with the same definitions being resolved,
    which resolves definitions of `Q`. -/
structure Advances (Q : String → Prop) (ds : Definitions) (path : List String)
    (s s' : Resolving) : Prop where
  stage : Stage ds path s'.done
  within : s.done.Within s'.done
  among : Definitions.Among s.done Q → Definitions.Among s'.done Q

section
variable {Q : String → Prop} {ds : Definitions} {path : List String} {s₁ s₂ s₃ : Resolving}

theorem Advances.refl (h : Stage ds path s₁.done) : Advances Q ds path s₁ s₁ :=
  ⟨h, fun _ _ hn => hn, id⟩

theorem Advances.trans (h : Advances Q ds path s₁ s₂) (h' : Advances Q ds path s₂ s₃) :
    Advances Q ds path s₁ s₃ :=
  ⟨h'.stage, h.within.trans h'.within, h'.among ∘ h.among⟩

end

/-- Whether `name` leads to bodies of the table, back into `path` or nowhere. -/
def Finds (Q : String → Prop) (ds : Definitions) (path : List String)
    (lookup : String → ResolveM Target) (name : String) : Prop :=
  ∀ s : Resolving, Stage ds path s.done → Advances Q ds path s (lookup name s).2 ∧
    ((∃ bodies, (lookup name s).1 = .resolved bodies ∧
        (lookup name s).2.done.get? name = some bodies) ∨
      (lookup name s).1 = .recursive ∧ name ∈ path ∨
      (lookup name s).1 = .missing ∧ ds.get? name = none)

section
variable {Q : String → Prop} {ds : Definitions} {path : List String}
  {lookup : String → ResolveM Target}

theorem expandReferences_expands (owner : String) : ∀ {rs : List Reference},
    (∀ r ∈ rs, Finds Q ds path lookup r.name) →
    ∀ (grown : ElementPattern) (s : Resolving), Stage ds path s.done →
      Advances Q ds path s (expandReferences lookup owner grown rs s).2 ∧
        Expands ds (expandReferences lookup owner grown rs s).2.done path owner grown rs
          (expandReferences lookup owner grown rs s).1
  | [], _, _, _, hs => ⟨.refl hs, .nil⟩
  | r :: rs, hl, grown, s, hs => by
    have hrest : ∀ q ∈ rs, Finds Q ds path lookup q.name :=
      fun q hq => hl q (List.mem_cons_of_mem _ hq)
    obtain ⟨grown', s', heq, ⟨hk, rfl, rfl⟩ | ⟨-, -, hdone, hcase⟩⟩ :=
      expandReferences_cons lookup owner grown r rs s
    · rw [heq]
      obtain ⟨hadv, hx⟩ := expandReferences_expands owner hrest (keepReference grown r) s' hs
      exact ⟨hadv, .keep hk hx⟩
    · rw [heq]
      obtain ⟨⟨hstage, hin, hamong⟩, htarget⟩ := hl r List.mem_cons_self s hs
      rw [← hdone] at hstage hin hamong htarget
      obtain ⟨hadv, hx⟩ := expandReferences_expands owner hrest grown' s' hstage
      refine ⟨Advances.trans ⟨hstage, hin, hamong⟩ hadv, ?_⟩
      rcases hcase with ⟨bodies, ht, rfl⟩ | ⟨ht, rfl⟩
      · rcases htarget with ⟨found, hf, hget⟩ | ⟨hf, -⟩ | ⟨hf, -⟩
        · rw [ht] at hf
          cases hf
          exact .inline (hadv.within _ _ hget) hx
        · rw [ht] at hf
          cases hf
        · rw [ht] at hf
          cases hf
      · refine .guard ?_ hx
        rcases htarget with ⟨found, hf, -⟩ | ⟨-, hp⟩ | ⟨-, hm⟩
        · rw [hf] at ht
          rcases ht with ht | ht <;> cases ht
        · exact .inl hp
        · exact .inr hm

theorem resolveValue_valued {a : AttributePattern}
    (hl : ∀ name, a.valueReference = some name → Finds Q ds path lookup name) (s : Resolving)
    (hs : Stage ds path s.done) : Advances Q ds path s (resolveValue lookup a s).2 ∧
      Valued ds (resolveValue lookup a s).2.done path a (resolveValue lookup a s).1 := by
  rcases resolveValue_cases lookup a s with ⟨hv, ha⟩ | ⟨name, hv, hdone, hcase⟩
  · rw [ha]
    exact ⟨.refl hs, .plain hv⟩
  · obtain ⟨⟨hstage, hin, hamong⟩, htarget⟩ := hl name hv s hs
    rw [← hdone] at hstage hin hamong htarget
    refine ⟨⟨hstage, hin, hamong⟩, ?_⟩
    rcases hcase with ⟨bodies, ht, hr⟩ | ⟨ht, hr⟩
    · rw [hr]
      rcases htarget with ⟨found, hf, hget⟩ | ⟨hf, -⟩ | ⟨hf, -⟩
      · rw [ht] at hf
        cases hf
        exact .fill hv hget
      · rw [ht] at hf
        cases hf
      · rw [ht] at hf
        cases hf
    · rw [hr]
      refine .guard hv ?_
      rcases htarget with ⟨found, hf, -⟩ | ⟨-, hp⟩ | ⟨-, hm⟩
      · rw [hf] at ht
        rcases ht with ht | ht <;> cases ht
      · exact .inl hp
      · exact .inr hm

theorem mapM_advances {α : Type} {f : α → ResolveM α} {R : Definitions → α → α → Prop}
    (hmono : ∀ t t' a b, Table.Within t t' → R t a b → R t' a b) : ∀ {as : List α},
    (∀ a ∈ as, ∀ s : Resolving, Stage ds path s.done →
      Advances Q ds path s (f a s).2 ∧ R (f a s).2.done a (f a s).1) →
    ∀ s : Resolving, Stage ds path s.done →
      Advances Q ds path s ((as.mapM f : ResolveM _) s).2 ∧
        List.Forall₂ (R ((as.mapM f : ResolveM _) s).2.done) as ((as.mapM f : ResolveM _) s).1
  | [], _, s, hs => by
    rw [List.mapM_nil]
    exact ⟨.refl hs, .nil⟩
  | a :: as, h, s, hs => by
    obtain ⟨h₁, ha⟩ := h a List.mem_cons_self s hs
    obtain ⟨h₂, has⟩ := mapM_advances hmono (fun b hb => h b (List.mem_cons_of_mem _ hb)) _
      h₁.stage
    rw [List.mapM_cons]
    exact ⟨h₁.trans h₂, .cons (hmono _ _ _ _ h₂.within ha) has⟩

theorem substituteAll_resolves {es : List ElementPattern}
    (h : ∀ e ∈ es, ∀ s : Resolving, Stage ds path s.done →
      Advances Q ds path s (substitute lookup e s).2 ∧
        Resolves ds (substitute lookup e s).2.done path e (substitute lookup e s).1)
    (s : Resolving) (hs : Stage ds path s.done) :
    Advances Q ds path s (substituteAll lookup es s).2 ∧
      List.Forall₂ (Resolves ds (substituteAll lookup es s).2.done path) es
        (substituteAll lookup es s).1 := by
  rw [substituteAll_eq_mapM]
  exact mapM_advances (R := (Resolves ds · path)) (fun _ _ e e' ht => .mono ht e e') h s hs

theorem Expands.values {table : Definitions} {owner : String} {grown out : ElementPattern}
    {rs : List Reference} (h : Expands ds table path owner grown rs out)
    (ht : ∀ name bodies, table.get? name = some bodies → ∀ b ∈ bodies,
      ∀ a ∈ b.attributes, a.valueReference = none) :
    ∀ a ∈ out.attributes, a ∈ grown.attributes ∨ a.valueReference = none := by
  induction h with
  | nil => exact fun a ha => .inl ha
  | keep _ _ ih => exact ih
  | guard _ _ ih => exact ih
  | @inline grown r rs out bodies hb _ ih =>
    intro a ha
    rcases ih a ha with ha | ha
    · rw [foldl_inlineBody] at ha
      rcases List.mem_append.1 ha with ha | ha
      · exact .inl ha
      · obtain ⟨b, hm, ha⟩ := List.mem_flatMap.1 ha
        obtain ⟨o, ho, rfl⟩ := List.mem_map.1 ha
        exact .inr (ht _ _ hb b hm o ho)
    · exact .inr ha

theorem Resolves.values {table : Definitions} {e e' : ElementPattern}
    (h : Resolves ds table path e e') : ∀ a ∈ e'.attributes, a.valueReference = none := by
  obtain ⟨-, ha, -⟩ := h
  intro a hm
  obtain ⟨o, -, hv⟩ := forall₂_mem_right ha hm
  cases hv with
  | plain hn => exact hn
  | guard => rfl
  | fill => rw [foldl_inlineValue]

theorem Stage.values {table : Definitions} (h : Stage ds path table) :
    ∀ name bodies, table.get? name = some bodies → ∀ b ∈ bodies,
      ∀ a ∈ b.attributes, a.valueReference = none := by
  intro name bodies hn b hb
  obtain ⟨_, _, -, -, hf⟩ := h.resolved hn
  obtain ⟨_, -, hr⟩ := forall₂_mem_right hf hb
  exact hr.values

/-- **Resolving an element keeps to the relation**, if looking up the names it
    uses does. -/
theorem substitute_resolves (e : ElementPattern)
    (hl : ∀ name ∈ e.uses, Finds Q ds path lookup name) (s : Resolving)
    (hs : Stage ds path s.done) : Advances Q ds path s (substitute lookup e s).2 ∧
      Resolves ds (substitute lookup e s).2.done path e (substitute lookup e s).1 := by
  induction e using ElementPattern.childInduction generalizing s with
  | step e ih =>
    obtain ⟨h₁, hx⟩ := expandReferences_expands e.name
      (fun r hr => hl _ (ElementPattern.reference_mem_uses hr))
      { e with elements := [], references := [] } s hs
    have hvalues := hx.values h₁.stage.values
    obtain ⟨h₂, ha⟩ := mapM_advances (R := (Valued ds · path)) (fun _ _ _ _ ht => .mono ht)
      (fun a ha => resolveValue_valued fun name hv => by
        rcases hvalues a ha with ha | hn
        · exact hl name (ElementPattern.value_mem_uses ha hv)
        · rw [hn] at hv
          cases hv) _ h₁.stage
    obtain ⟨h₃, hc⟩ := substituteAll_resolves (fun c hc t ht =>
      ih c hc (fun name hn => hl name (ElementPattern.child_uses hc hn)) t ht) _ h₂.stage
    rw [substitute_run]
    refine ⟨h₁.trans (h₂.trans h₃), .intro (hx.mono (h₂.within.trans h₃.within)) ?_ hc⟩
    exact ha.imp fun _ _ => .mono h₃.within

end

/-- **Looking up a name of `Q` keeps to the relations**, if every definition being
    resolved depends on it and `Q` has what its definitions depend on. -/
theorem lookupIn_finds {Q : String → Prop} {ds : Definitions}
    (hQ : ∀ a b, Q a → ds.Depends a b → Q b) (path : List String) (name : String) (hq : Q name)
    (hp : ds.LeadTo path name) : Finds Q ds path (lookupIn ds path) name := by
  -- on the definitions that are not being resolved, of which there are fewer for every body
  induction hn : remaining ds.keys path using Nat.strongRecOn generalizing path name with
  | ind n ih =>
    subst hn
    intro s hs
    rcases lookupIn_cases ds path name s with
      ⟨bodies, hd, heq⟩ | ⟨-, hmem, heq⟩ | ⟨-, -, hds, heq⟩ | ⟨hnone, hnp, bodies, hds, heq⟩
    · rw [heq]
      exact ⟨.refl hs, .inl ⟨bodies, rfl, hd⟩⟩
    · rw [heq]
      exact ⟨.refl hs, .inr (.inl ⟨rfl, hmem⟩)⟩
    · rw [heq]
      exact ⟨.refl hs, .inr (.inr ⟨rfl, hds⟩)⟩
    · have hlt := remaining_cons_lt (Table.mem_keys_of_get? hds) hnp
      obtain ⟨h₁, hf⟩ := substituteAll_resolves
        (fun b (hb : b ∈ bodies) t ht => substitute_resolves b
          (fun m hm =>
            have hd : ds.Depends name m := ⟨bodies, hds, b, hb, hm⟩
            ih _ hlt (name :: path) m (hQ _ _ hq hd) (hp.cons hd) rfl) t ht)
        s (hs.enter hnone hnp hp)
      rw [heq]
      refine ⟨⟨h₁.stage.leave hds hf, ?_, fun h other found hget => ?_⟩,
        .inl ⟨_, rfl, Table.get?_insert_self _ _ _⟩⟩
      · exact h₁.within.trans (Table.within_insert (h₁.stage.absent List.mem_cons_self) _)
      · rcases Table.get?_insert_cases hget with ⟨rfl, -⟩ | ⟨-, hget⟩
        · exact hq
        · exact h₁.among h other found hget

/-- The definitions with those of `table` in the place of the ones they were
    read as. -/
def Definitions.overlay (ds table : Definitions) : Definitions :=
  ⟨ds.entries.map fun (name, bodies) => (name, (table.get? name).getD bodies)⟩

theorem Definitions.get?_overlay (ds table : Definitions) (name : String) :
    (ds.overlay table).get? name =
      (Table.get? ds name).map fun bodies => (table.get? name).getD bodies :=
  Table.get?_map (fun key bodies => (table.get? key).getD bodies) name ds.entries

theorem Definitions.of_get?_overlay {ds table : Definitions} {name : String}
    {found : List ElementPattern} (h : (ds.overlay table).get? name = some found) :
    ∃ bodies, Table.get? ds name = some bodies ∧ (table.get? name = some found ∨ found = bodies) := by
  rw [Definitions.get?_overlay, Option.map_eq_some_iff] at h
  obtain ⟨bodies, hd, rfl⟩ := h
  refine ⟨bodies, hd, ?_⟩
  cases hget : table.get? name with
  | none => exact .inr rfl
  | some resolved => exact .inl rfl

/-- Whether the start uses a name, or a definition that depends on it. -/
def Grammar.Needs (g : Grammar) (name : String) : Prop :=
  ∃ used ∈ g.start.uses, Relation.ReflTransGen g.definitions.Depends used name

/-- **A grammar is resolved to a finished stage**: no definition is being
    resolved any more, and the start is resolved.  What it does not need is not
    resolved. -/
theorem resolve_needs (g : Grammar) :
    ∃ table, Stage g.definitions [] table ∧
      Resolves g.definitions table [] g.start g.resolve.1.start ∧
      g.resolve.1.definitions = Definitions.overlay g.definitions table ∧
      table.Among g.Needs := by
  have hclosed : ∀ a b, g.Needs a → g.definitions.Depends a b → g.Needs b := by
    rintro a b ⟨used, hu, hd⟩ hstep
    exact ⟨used, hu, hd.tail hstep⟩
  obtain ⟨h, hr⟩ := substitute_resolves g.start
    (fun name hn => lookupIn_finds hclosed [] name ⟨name, hn, .refl⟩ nofun) {} .start
  exact ⟨_, h.stage, hr, rfl, h.among fun _ _ hn => by cases hn⟩

theorem resolve_stage (g : Grammar) :
    ∃ table, Stage g.definitions [] table ∧
      Resolves g.definitions table [] g.start g.resolve.1.start ∧
      g.resolve.1.definitions = Definitions.overlay g.definitions table := by
  obtain ⟨table, hs, hr, ht, -⟩ := resolve_needs g
  exact ⟨table, hs, hr, ht⟩

end Schema

end Bindery
