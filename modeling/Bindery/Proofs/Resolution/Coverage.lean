/-
  Nothing is lost in resolving.

  A reference is kept or gives way to the elements of all bodies it names, so
  the children that an element licenses are found in it or behind the
  references left in it.  Behind a reference left in an element only the
  elements of the bodies count, not the references left in those.  That is
  enough if definitions that depend on themselves do so inside elements only,
  and if an element with the name of a definition refers to it only within
  that definition (`Grammar.Guarded`).

  * `Stage.finds`: all definitions that the start leads to are resolved;
  * `Resolves.of_licenses`: a resolved body has the children and attributes that it
    licenses.
-/
import Bindery.Proofs.Resolution.Licence

namespace Bindery.Schema

open ElementPattern

/-! ## What the start leads to -/

/-- Whether the start leads to a name through references, at any depth of the
    elements and definitions on the way. -/
inductive Grammar.LeadsTo (g : Grammar) : String → Prop
  | start {x r} : x ∈ g.start.walk → r ∈ x.references → LeadsTo g r.name
  | body {name bodies b x r} : LeadsTo g name → g.definitions.get? name = some bodies →
      b ∈ bodies → x ∈ b.walk → r ∈ x.references → LeadsTo g r.name

/-- Whether an element pattern occurs in the start, or in a definition that the
    start leads to. -/
inductive Grammar.Reaches (g : Grammar) (e : ElementPattern) : Prop
  | start : e ∈ walkList g.start.elements → Reaches g e
  | body {name bodies b} : g.LeadsTo name → g.definitions.get? name = some bodies → b ∈ bodies →
      e ∈ walkList b.elements → Reaches g e

/-- **Where recursion is guarded**: outside of its elements no body refers to a
    definition that depends on its own, and elements refer to their own name
    only within the definition of that name. -/
structure Grammar.Guarded (g : Grammar) : Prop where
  recursion : ∀ name bodies, g.definitions.get? name = some bodies → ∀ b ∈ bodies,
    ∀ r ∈ b.references, ¬ Relation.ReflTransGen g.definitions.Depends r.name name
  start : ∀ x ∈ g.start.walk, ∀ r ∈ x.references, r.name ≠ x.name
  within : ∀ name bodies, g.definitions.get? name = some bodies → ∀ b ∈ bodies, ∀ x ∈ b.walk,
    ∀ r ∈ x.references, r.name = x.name → x.name = name

/-- Recursion is guarded if names can be ranked so that no body uses names of
    higher rank, and refers outside of its elements to names of lower rank
    only. -/
theorem Grammar.guarded_of_rank {g : Grammar} (rank : String → Nat)
    (huses : ∀ entry ∈ g.definitions.entries, ∀ b ∈ entry.2,
      (∀ name ∈ b.uses, rank name ≤ rank entry.1) ∧ ∀ r ∈ b.references, rank r.name < rank entry.1)
    (hstart : ∀ x ∈ g.start.walk, ∀ r ∈ x.references, r.name ≠ x.name)
    (hwithin : ∀ entry ∈ g.definitions.entries, ∀ b ∈ entry.2, ∀ x ∈ b.walk,
      ∀ r ∈ x.references, r.name = x.name → x.name = entry.1) : g.Guarded where
  recursion name bodies hd b hb r hr hdepends := by
    have hle : ∀ a b, Relation.ReflTransGen g.definitions.Depends a b → rank b ≤ rank a := by
      intro a b hab
      induction hab with
      | refl => exact Nat.le_refl _
      | tail _ hstep ih =>
        obtain ⟨entry, he, rfl, body, hbody, hm⟩ := hstep.mem
        exact Nat.le_trans ((huses entry he body hbody).1 _ hm) ih
    exact Nat.not_lt.2 (hle _ _ hdepends) ((huses _ (Table.mem_entries_of_get? hd) b hb).2 r hr)
  start := hstart
  within name bodies hd := hwithin _ (Table.mem_entries_of_get? hd)

theorem mem_walkList_of_mem_walk {x c e : ElementPattern} (hc : c ∈ e.elements)
    (hx : x ∈ c.walk) : x ∈ walkList e.elements :=
  mem_walkList.2 ⟨c, hc, hx⟩

theorem walk_eq {x e : ElementPattern} : x ∈ e.walk ↔ x = e ∨ x ∈ walkList e.elements := by
  rw [mem_walk, mem_walkList]

theorem mem_patterns_below {g : Grammar} {e : ElementPattern} (he : e ∈ patterns g) :
    ∀ x ∈ walkList e.elements, x ∈ patterns g := by
  induction e using childInduction with
  | step e ih =>
    intro x hx
    obtain ⟨c, hc, hx⟩ := mem_walkList.1 hx
    rcases walk_eq.1 hx with rfl | hx
    · exact mem_patterns_child he hc
    · exact ih c hc (mem_patterns_child he hc) x hx

theorem Grammar.Reaches.mem_patterns {g : Grammar} {e : ElementPattern} (h : g.Reaches e) :
    e ∈ patterns g := by
  cases h with
  | start he => exact mem_patterns_of_start he
  | body _ hd hb he => exact mem_patterns_below_body hd hb he

/-! ## One element -/

/-- Whether the elements and attributes of `b` are among those of `x`, with other
    modifiers perhaps. -/
structure ElementPattern.Joins (b x : ElementPattern) : Prop where
  elements : ∀ c ∈ b.elements, ∃ p, { c with pattern := p } ∈ x.elements
  attributes : ∀ a ∈ b.attributes, x.HasAttribute a.name

def Inlined (table : Definitions) (name : String) (x : ElementPattern) : Prop :=
  ∃ bodies, table.get? name = some bodies ∧ ∀ b ∈ bodies, b.Joins x

/-- Whether an element has the property with the elements and attributes of one
    that has it. -/
def Lasting (P : ElementPattern → Prop) : Prop :=
  ∀ b x : ElementPattern, (∀ c ∈ b.elements, x.HasChild c.name) →
    (∀ a ∈ b.attributes, x.HasAttribute a.name) → P b → P x

theorem lasting_hasChild (name : String) : Lasting (·.HasChild name) := by
  rintro b x hchildren - ⟨c, hc, rfl⟩
  exact hchildren c hc

theorem lasting_hasAttribute (name : String) : Lasting (·.HasAttribute name) := by
  rintro b x - hattributes ⟨a, ha, rfl⟩
  exact hattributes a ha

theorem Lasting.of_joins {P : ElementPattern → Prop} (h : Lasting P) {b x : ElementPattern}
    (hjoins : b.Joins x) (hb : P b) : P x := by
  refine h b x (fun c hc => ?_) hjoins.attributes hb
  obtain ⟨p, hp⟩ := hjoins.elements c hc
  exact ⟨_, hp, rfl⟩

/-- Whether nothing of `x` is lost in `x'`. -/
structure Covers (table : Definitions) (x x' : ElementPattern) : Prop where
  name : x'.name = x.name
  children : ∀ c ∈ x.elements, x'.HasChild c.name
  attributes : ∀ a ∈ x.attributes, x'.HasAttribute a.name
  references : ∀ r ∈ x.references, x'.HasReference r.name ∨ Inlined table r.name x'

section
variable {ds table : Definitions} {path : List String} {owner : String}
  {grown out : ElementPattern} {rs : List Reference}

theorem Expands.name (h : Expands ds table path owner grown rs out) : out.name = grown.name := by
  induction h with
  | nil => rfl
  | keep _ _ ih => exact ih
  | guard _ _ ih => exact ih
  | inline _ _ ih => rw [ih, foldl_inlineBody]

theorem Expands.grows (h : Expands ds table path owner grown rs out) :
    grown.elements ⊆ out.elements ∧ grown.attributes ⊆ out.attributes ∧
      grown.references ⊆ out.references := by
  induction h with
  | nil => exact ⟨List.Subset.refl _, List.Subset.refl _, List.Subset.refl _⟩
  | keep _ _ ih | guard _ _ ih =>
    exact ⟨ih.1, ih.2.1, fun q hq => ih.2.2 (List.mem_append_left _ hq)⟩
  | inline _ _ ih =>
    rw [foldl_inlineBody] at ih
    exact ⟨fun c hc => ih.1 (List.mem_append_left _ hc),
      fun a ha => ih.2.1 (List.mem_append_left _ ha),
      fun q hq => ih.2.2 (List.mem_append_left _ hq)⟩

/-- The reasons to keep a reference. -/
def Reference.Held (ds : Definitions) (path : List String) (owner : String) (r : Reference) :
    Prop :=
  r.name = owner ∨ r.substituted = true ∨ r.name ∈ path ∨ ds.get? r.name = none

theorem Reference.Held.of_kept {r : Reference} (h : r.name = owner ∨ r.substituted = true) :
    r.Held ds path owner :=
  h.imp_right .inl

theorem Reference.Held.of_guarded {r : Reference} (h : r.name ∈ path ∨ ds.get? r.name = none) :
    r.Held ds path owner :=
  .inr (.inr h)

theorem hasReference_of_keep {r : Reference} {out : ElementPattern}
    (h : (keepReference grown r).references ⊆ out.references) : out.HasReference r.name :=
  ⟨r, h (List.mem_append_right _ List.mem_cons_self), rfl⟩

/-- A reference is kept, or the content of its bodies is there. -/
theorem Expands.fulfils (h : Expands ds table path owner grown rs out) :
    ∀ r ∈ rs, out.HasReference r.name ∨ Inlined table r.name out := by
  induction h with
  | nil => nofun
  | keep _ hx ih =>
    intro q hq
    rcases List.mem_cons.1 hq with rfl | hq
    · exact .inl (hasReference_of_keep hx.grows.2.2)
    · exact ih q hq
  | @guard _ r _ _ _ hx ih =>
    intro q hq
    rcases List.mem_cons.1 hq with rfl | hq
    · exact .inl (hasReference_of_keep (r := { q with substituted := true }) hx.grows.2.2)
    · exact ih q hq
  | @inline _ r _ _ bodies hb hx ih =>
    intro q hq
    rcases List.mem_cons.1 hq with rfl | hq
    · refine .inr ⟨bodies, hb, fun b hm => ⟨fun c hc => ⟨c.pattern.merge q.pattern, hx.grows.1 ?_⟩,
        fun a ha => ⟨a.mergePattern q.pattern, hx.grows.2.1 ?_, rfl⟩⟩⟩
      all_goals
        rw [foldl_inlineBody]
        refine List.mem_append_right _ (List.mem_flatMap.2 ⟨b, hm, List.mem_map.2 ⟨_, ?_, rfl⟩⟩)
        assumption
    · exact ih q hq

theorem Expands.leftover (h : Expands ds table path owner grown rs out) :
    ∀ q ∈ out.references, q ∈ grown.references ∨
      (∃ r ∈ rs, r.name = q.name ∧ r.Held ds path owner) ∨
      ∃ name bodies, table.get? name = some bodies ∧ ∃ b ∈ bodies, b.HasReference q.name := by
  have hlater : ∀ {r : Reference} {rs : List Reference} {q : Reference},
      (∃ r' ∈ rs, r'.name = q.name ∧ r'.Held ds path owner) →
      ∃ r' ∈ r :: rs, r'.name = q.name ∧ r'.Held ds path owner := by
    rintro r rs q ⟨r', hr', hq⟩
    exact ⟨r', List.mem_cons_of_mem _ hr', hq⟩
  -- one more reference that is held back, as it is or guarded
  have hheld : ∀ {r kept q : Reference} {rs before : List Reference} {p : Prop},
      (q ∈ before ++ [kept] ∨ (∃ r' ∈ rs, r'.name = q.name ∧ r'.Held ds path owner) ∨ p) →
      kept.name = r.name → r.Held ds path owner →
      q ∈ before ∨ (∃ r' ∈ r :: rs, r'.name = q.name ∧ r'.Held ds path owner) ∨ p := by
    rintro r kept q rs before p (hq | hq | hq) hname hr
    · rcases List.mem_append.1 hq with hq | hq
      · exact .inl hq
      · cases List.mem_singleton.1 hq
        exact .inr (.inl ⟨r, List.mem_cons_self, hname.symm, hr⟩)
    · exact .inr (.inl (hlater hq))
    · exact .inr (.inr hq)
  induction h with
  | nil => exact fun q hq => .inl hq
  | keep hk _ ih => exact fun q hq => hheld (ih q hq) rfl (.of_kept hk)
  | guard hg _ ih => exact fun q hq => hheld (ih q hq) rfl (.of_guarded hg)
  | @inline grown r rs out bodies hb _ ih =>
    intro q hq
    rcases ih q hq with hq | hq | hq
    · rw [foldl_inlineBody] at hq
      rcases List.mem_append.1 hq with hq | hq
      · exact .inl hq
      · obtain ⟨b, hm, hq⟩ := List.mem_flatMap.1 hq
        obtain ⟨q', hq', rfl⟩ := List.mem_map.1 hq
        exact .inr (.inr ⟨r.name, bodies, hb, b, hm, q', hq', rfl⟩)
    · exact .inr (.inl (hlater hq))
    · exact .inr (.inr hq)

theorem Expands.outcome (h : Expands ds table path owner grown rs out) :
    ∀ r ∈ rs, r.Held ds path owner ∨ (table.get? r.name).isSome := by
  induction h with
  | nil => nofun
  | keep hk _ ih => exact List.forall_mem_cons.2 ⟨.inl (.of_kept hk), ih⟩
  | guard hg _ ih => exact List.forall_mem_cons.2 ⟨.inl (.of_guarded hg), ih⟩
  | inline hb _ ih => exact List.forall_mem_cons.2 ⟨.inr (by rw [hb]; rfl), ih⟩

end

/-! ## Trees -/

section
variable {ds table : Definitions} {path : List String} {e e' : ElementPattern}

theorem Resolves.name (h : Resolves ds table path e e') : e'.name = e.name := by
  obtain ⟨hx, -, -⟩ := h
  exact hx.name

theorem exists_valued {as as' : List AttributePattern}
    (h : List.Forall₂ (Valued ds table path) as as') {a : AttributePattern} (ha : a ∈ as) :
    ∃ a' ∈ as', a'.name = a.name := by
  obtain ⟨a', ha', hv⟩ := forall₂_mem_left h ha
  exact ⟨a', ha', (Prod.mk.inj hv.heading_eq).1⟩

/-- **Nothing of an element is lost in the resolved one.** -/
theorem Resolves.covers (h : Resolves ds table path e e') : Covers table e e' := by
  have hname := h.name
  obtain ⟨hx, ha, hc⟩ := h
  refine ⟨hname, fun c hm => ?_, fun a hm => exists_valued ha (hx.grows.2.1 hm), fun r hr => ?_⟩
  · obtain ⟨c', hm', hr⟩ := forall₂_mem_left hc hm
    exact ⟨c', List.mem_append_left _ hm', hr.name⟩
  · rcases hx.fulfils r hr with hkept | ⟨bodies, hb, hin⟩
    · exact .inl hkept
    · refine .inr ⟨bodies, hb, fun b hm => ⟨fun c hcm => ?_, fun a ham => ?_⟩⟩
      · obtain ⟨p, hp⟩ := (hin b hm).elements c hcm
        exact ⟨p, List.mem_append_right _ hp⟩
      · obtain ⟨a', hm', hname⟩ := (hin b hm).attributes a ham
        exact hname ▸ exists_valued ha hm'

theorem Resolves.descend (h : Resolves ds table path e e') :
    ∀ x ∈ walkList e.elements, ∃ x' ∈ walkList e'.elements, Resolves ds table path x x' := by
  induction e using childInduction generalizing e' with
  | step e ih =>
    obtain ⟨-, -, hc⟩ := h
    intro x hx
    obtain ⟨c, hm, hx⟩ := mem_walkList.1 hx
    obtain ⟨c', hm', hr⟩ := forall₂_mem_left hc hm
    rcases walk_eq.1 hx with rfl | hx
    · exact ⟨c', mem_walkList_of_mem (List.mem_append_left _ hm'), hr⟩
    · obtain ⟨x', hx', hr'⟩ := ih c hm hr x hx
      exact ⟨x', mem_walkList_of_mem_walk (List.mem_append_left _ hm') (walk_eq.2 (.inr hx')), hr'⟩

theorem Resolves.outcome (h : Resolves ds table path e e')
    (hf : ∀ r ∈ e.references, r.substituted = false) {r : Reference} (hr : r ∈ e.references)
    (hne : r.name ≠ e.name) :
    r.name ∈ path ∨ ds.get? r.name = none ∨ (table.get? r.name).isSome := by
  obtain ⟨hx, -, -⟩ := h
  rcases hx.outcome r hr with (heq | hs | hrest) | hin
  · exact absurd heq hne
  · rw [hf r hr] at hs
    cases hs
  · exact hrest.imp_right .inl
  · exact .inr (.inr hin)

end

/-! ## Stages -/

section
variable {g : Grammar} {table : Definitions} {path : List String}

theorem Stage.bare (hg : g.Guarded) (hf : g.definitions.Fresh)
    (h : Stage g.definitions path table) : ∀ name resolved, table.get? name = some resolved →
      ∀ b' ∈ resolved, ∀ q ∈ b'.references, g.definitions.get? q.name = none := by
  refine h.forall_table fun {_ _ name bodies _} hs hd hr ih b' hb' q hq => ?_
  obtain ⟨b, hb, hres⟩ := forall₂_mem_right hr hb'
  obtain ⟨hx, -, -⟩ := hres
  rcases hx.leftover q hq with hq | ⟨r, hrm, heq, howner | hsub | hpath | hnone⟩ |
      ⟨other, bodies', hget, b₂, hb₂, q', hq', heq⟩
  · cases hq
  · -- a body that refers to its own name would depend on itself
    have hown := hg.within name bodies hd b hb b (mem_walk_self b) r hrm howner
    exact absurd (howner.trans hown ▸ .refl) (hg.recursion name bodies hd b hb r hrm)
  · rw [hf name bodies hd b hb b (mem_walk_self b) r hrm] at hsub
    cases hsub
  · -- the definitions being resolved depend on this one
    refine absurd ?_ (hg.recursion name bodies hd b hb r hrm)
    rcases List.mem_cons.1 hpath with hr | hr
    · exact hr ▸ .refl
    · exact (hs.leadTo _ hr).to_reflTransGen
  · rw [← heq]
    exact hnone
  · rw [← heq]
    exact ih other bodies' hget b₂ hb₂ q' hq'

theorem Stage.closed (hf : g.definitions.Fresh) (h : Stage g.definitions path table) :
    ∀ name bodies, (table.get? name).isSome → g.definitions.get? name = some bodies →
      ∀ b ∈ bodies, ∀ x ∈ b.walk, ∀ r ∈ x.references, r.name ≠ x.name →
        r.name ∈ path ∨ g.definitions.get? r.name = none ∨ (table.get? r.name).isSome := by
  induction h with
  | start => exact fun _ _ hn => by cases hn
  | enter _ _ _ _ ih =>
    intro name bodies hn hd b hb x hx r hr hne
    exact (ih name bodies hn hd b hb x hx r hr hne).imp_left (List.mem_cons_of_mem _)
  | @leave path table left own resolved hs hown hres ih =>
    intro name bodies hn hd b hb x hx r hr hne
    have hin := Table.within_insert (hs.absent List.mem_cons_self) resolved
    have hbefore : r.name ∈ left :: path ∨ g.definitions.get? r.name = none ∨
        (table.get? r.name).isSome := by
      by_cases hk : name = left
      · subst hk
        rw [hown] at hd
        cases hd
        have hfresh := hf name own hown b hb x hx
        obtain ⟨b', -, hb'⟩ := forall₂_mem_left hres hb
        rcases walk_eq.1 hx with rfl | hx
        · exact hb'.outcome hfresh hr hne
        · obtain ⟨x', -, hx'⟩ := hb'.descend x hx
          exact hx'.outcome hfresh hr hne
      · rw [Table.get?_insert_of_ne _ _ hk] at hn
        exact ih name bodies hn hd b hb x hx r hr hne
    rcases hbefore with hp | hnone | hsome
    · rcases List.mem_cons.1 hp with heq | hp
      · refine .inr (.inr ?_)
        rw [heq, Table.get?_insert_self]
        rfl
      · exact .inl hp
    · exact .inr (.inl hnone)
    · obtain ⟨found, hfound⟩ := Option.isSome_iff_exists.1 hsome
      exact .inr (.inr (by rw [hin _ _ hfound]; rfl))

theorem Stage.finds (hg : g.Guarded) (hs : g.start.Fresh) (hf : g.definitions.Fresh)
    (h : Stage g.definitions [] table) {start : ElementPattern}
    (hstart : Resolves g.definitions table [] g.start start) {name : String}
    (hl : g.LeadsTo name) (hd : g.definitions.get? name ≠ none) : (table.get? name).isSome := by
  induction hl with
  | @start x r hx hr =>
    have hout : r.name ∈ [] ∨ g.definitions.get? r.name = none ∨ (table.get? r.name).isSome := by
      rcases walk_eq.1 hx with rfl | hx'
      · exact hstart.outcome (hs g.start hx) hr (hg.start g.start hx r hr)
      · obtain ⟨x', -, hres⟩ := hstart.descend x hx'
        exact hres.outcome (hs x hx) hr (hg.start x hx r hr)
    rcases hout with hp | hnone | hsome
    · cases hp
    · exact absurd hnone hd
    · exact hsome
  | @body name bodies b x r _ hb hm hx hr ih =>
    have hname : (table.get? name).isSome := ih (by rw [hb]; nofun)
    by_cases hne : r.name = x.name
    · rw [hne, hg.within name bodies hb b hm x hx r hr hne]
      exact hname
    · rcases h.closed hf name bodies hname hb b hm x hx r hr hne with hp | hnone | hsome
      · cases hp
      · exact absurd hnone hd
      · exact hsome

theorem Stage.body (h : Stage g.definitions path table) {name : String}
    {bodies resolved : List ElementPattern} (hd : g.definitions.get? name = some bodies)
    (hn : table.get? name = some resolved) {b : ElementPattern} (hb : b ∈ bodies) :
    ∃ b' ∈ resolved, ∃ outer, Resolves g.definitions table outer b b' := by
  obtain ⟨own, outer, hown, -, hres⟩ := h.resolved hn
  rw [hd] at hown
  cases hown
  obtain ⟨b', hb', hr⟩ := forall₂_mem_left hres hb
  exact ⟨b', hb', _, hr⟩

theorem Resolves.of_licenses (hg : g.Guarded) (hf : g.definitions.Fresh)
    (h : Stage g.definitions path table) {b : ElementPattern} {P : ElementPattern → Prop}
    (hP : Lasting P) (hl : g.definitions.Licenses P b) {outer : List String} {b' : ElementPattern}
    (hres : Resolves g.definitions table outer b b')
    (hbare : ∀ q ∈ b'.references, g.definitions.get? q.name = none) : P b' := by
  induction hl generalizing outer b' with
  | own hp => exact hP _ _ hres.covers.children hres.covers.attributes hp
  | @body e r bodies b₂ hr hd hb _ ih =>
    rcases hres.covers.references r hr with ⟨q, hq, heq⟩ | ⟨resolved, hget, hin⟩
    · have hnone := hbare q hq
      rw [heq] at hnone
      rw [hd] at hnone
      cases hnone
    · obtain ⟨b₂', hb₂', outer₂, hres₂⟩ := h.body hd hget hb
      exact hP.of_joins (hin b₂' hb₂') (ih hres₂ (h.bare hg hf _ _ hget b₂' hb₂'))

end

end Bindery.Schema
