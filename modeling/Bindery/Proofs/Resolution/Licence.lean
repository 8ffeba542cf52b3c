/-
  What a grammar licenses.

  An element pattern licenses its own children, attributes and text, and all
  that the bodies of the definitions it refers to license.  Resolving moves
  content along references, and so only to elements that license it.

  * `Definitions.Licenses`: the element, or a body reached from it through
    references alone, has a property;
  * `Definitions.Offers`: an attribute is licensed, with the modifiers that are
    gathered on the way to it;
  * `Stems`: an element has only what another licenses;
  * `stems_resolve`: every element pattern of a resolved grammar stems from one
    of the grammar that was resolved, and every body from a body of the same
    definition.
-/
import Bindery.Proofs.Resolution.Outcome

namespace Bindery.Schema

open ElementPattern

/-! ## Licences -/

/-- Whether the element, or a body reached from it through references alone,
    has the property `P`. -/
inductive Definitions.Licenses (ds : Definitions) (P : ElementPattern → Prop) :
    ElementPattern → Prop
  | own {e} : P e → Licenses ds P e
  | body {e r bodies b} : r ∈ e.references → Table.get? ds r.name = some bodies → b ∈ bodies →
      Licenses ds P b → Licenses ds P e

namespace ElementPattern

def HasChild (e : ElementPattern) (name : String) : Prop := ∃ c ∈ e.elements, c.name = name

def HasAttribute (e : ElementPattern) (name : String) : Prop := ∃ a ∈ e.attributes, a.name = name

def HasReference (e : ElementPattern) (name : String) : Prop := ∃ r ∈ e.references, r.name = name

end ElementPattern

theorem Definitions.Licenses.through {ds : Definitions} {P : ElementPattern → Prop}
    {e b : ElementPattern} {name : String} {bodies : List ElementPattern}
    (h : ds.Licenses (·.HasReference name) e) (hd : Table.get? ds name = some bodies)
    (hb : b ∈ bodies) (hp : ds.Licenses P b) : ds.Licenses P e := by
  induction h with
  | own hr =>
    obtain ⟨r, hr, rfl⟩ := hr
    exact .body hr hd hb hp
  | body hr hd' hb' _ ih => exact .body hr hd' hb' ih

/-! ## Modifiers on the way -/

/-- Whether the element, or a body reached from it through references alone, has
    an attribute of the name, which stands under `p` with the references on the
    way. -/
inductive Definitions.Offers (ds : Definitions) : ElementPattern → String → Pattern → Prop
  | own {e a} : a ∈ e.attributes → Offers ds e a.name a.pattern
  | body {e r bodies b name p} : r ∈ e.references → Table.get? ds r.name = some bodies →
      b ∈ bodies → Offers ds b name p → Offers ds e name (p.merge r.pattern).forAttribute

/-- Whether the element, or a body reached from it, refers to the name, likewise. -/
inductive Definitions.RefersTo (ds : Definitions) : ElementPattern → String → Pattern → Prop
  | own {e r} : r ∈ e.references → RefersTo ds e r.name r.pattern
  | body {e r bodies b name p} : r ∈ e.references → Table.get? ds r.name = some bodies →
      b ∈ bodies → RefersTo ds b name p → RefersTo ds e name (p.merge r.pattern)

section
variable {ds : Definitions} {e b : ElementPattern} {name : String} {p q : Pattern}

theorem Definitions.Offers.licenses (h : ds.Offers e name p) :
    ds.Licenses (·.HasAttribute name) e := by
  induction h with
  | own ha => exact .own ⟨_, ha, rfl⟩
  | body hr hd hb _ ih => exact .body hr hd hb ih

theorem Definitions.RefersTo.licenses (h : ds.RefersTo e name p) :
    ds.Licenses (·.HasReference name) e := by
  induction h with
  | own hr => exact .own ⟨_, hr, rfl⟩
  | body hr hd hb _ ih => exact .body hr hd hb ih

theorem Pattern.forAttribute_merge (p q r : Pattern) :
    ((p.merge q).forAttribute.merge r).forAttribute = (p.merge (q.merge r)).forAttribute := by
  simp [Pattern.merge, Pattern.forAttribute, Bool.or_assoc, Bool.or_left_comm]

theorem Definitions.RefersTo.offers {bodies : List ElementPattern} {tag : String}
    (h : ds.RefersTo e name q) (hd : Table.get? ds name = some bodies) (hb : b ∈ bodies)
    (ho : ds.Offers b tag p) : ds.Offers e tag (p.merge q).forAttribute := by
  induction h with
  | own hr => exact .body hr hd hb ho
  | body hr hd' hb' _ ih =>
    rw [← Pattern.forAttribute_merge]
    exact .body hr hd' hb' (ih hd)

end

/-! ## Stemming from a pattern -/

def AttributePattern.heading (a : AttributePattern) : String × Pattern := (a.name, a.pattern)

/-- Whether all that `x` has is licensed by `o`, whose name it has, and stands
    under the modifiers on the way to it. -/
structure Stems (ds : Definitions) (o x : ElementPattern) : Prop where
  name : x.name = o.name
  elements : ∀ c ∈ x.elements, ds.Licenses (·.HasChild c.name) o
  attributes : ∀ a ∈ x.attributes, ds.Offers o a.name a.pattern
  text : x.hasText = true → ds.Licenses (·.hasText = true) o
  references : ∀ r ∈ x.references, ds.RefersTo o r.name r.pattern
  /-- The attributes of `o` come first. -/
  own : o.attributes.map (·.heading) <+: x.attributes.map (·.heading)

theorem Stems.refl (ds : Definitions) (e : ElementPattern) : Stems ds e e where
  name := rfl
  elements c hc := .own ⟨c, hc, rfl⟩
  attributes _ ha := .own ha
  text ht := .own ht
  references _ hr := .own hr
  own := List.prefix_rfl

/-- Whether `x` stems from `o`, and all elements below `x` from patterns of the
    grammar. -/
def Rooted (g : Grammar) (o x : ElementPattern) : Prop :=
  Stems g.definitions o x ∧ ∀ y ∈ walkList x.elements, ∃ p ∈ patterns g, Stems g.definitions p y

/-- Whether the bodies in the table are rooted in bodies of the same
    definition. -/
def TableRooted (g : Grammar) (table : Definitions) : Prop :=
  ∀ name resolved, table.get? name = some resolved →
    ∃ bodies, g.definitions.get? name = some bodies ∧ ∀ b' ∈ resolved, ∃ b ∈ bodies, Rooted g b b'

section
variable {g : Grammar}

theorem mem_walkList_append {x : ElementPattern} {es es' : List ElementPattern} :
    x ∈ walkList (es ++ es') ↔ x ∈ walkList es ∨ x ∈ walkList es' := by
  simp only [mem_walkList, List.mem_append]
  constructor
  · rintro ⟨e, he | he, hx⟩
    · exact .inl ⟨e, he, hx⟩
    · exact .inr ⟨e, he, hx⟩
  · rintro (⟨e, he, hx⟩ | ⟨e, he, hx⟩)
    · exact ⟨e, .inl he, hx⟩
    · exact ⟨e, .inr he, hx⟩

theorem mem_patterns_of_start {x : ElementPattern} (h : x ∈ walkList g.start.elements) :
    x ∈ patterns g :=
  List.mem_append_left _ h

theorem mem_patterns_of_entry {name : String} {bodies : List ElementPattern}
    {b x : ElementPattern} (he : (name, bodies) ∈ g.definitions.entries) (hb : b ∈ bodies)
    (hx : x ∈ walkList b.elements) : x ∈ patterns g := by
  have hv : bodies ∈ g.definitions.values := List.mem_map.2 ⟨_, he, rfl⟩
  exact List.mem_append_right _
    (List.mem_flatMap.2 ⟨b, List.mem_flatten.2 ⟨bodies, hv, hb⟩, hx⟩)

theorem mem_patterns_below_body {name : String} {bodies : List ElementPattern}
    {b x : ElementPattern} (hd : g.definitions.get? name = some bodies) (hb : b ∈ bodies)
    (hx : x ∈ walkList b.elements) : x ∈ patterns g := by
  obtain ⟨before, after, heq, -⟩ := List.lookup_eq_some_iff.1 hd
  have he : (name, bodies) ∈ g.definitions.entries := heq ▸ by simp
  exact mem_patterns_of_entry he hb hx

theorem Rooted.inlineBody {o grown b b' : ElementPattern} {r : Reference}
    {bodies : List ElementPattern} (h : Rooted g o grown) (hr : r ∈ o.references)
    (hd : g.definitions.get? r.name = some bodies) (hb : b ∈ bodies) (hb' : Rooted g b b') :
    Rooted g o (inlineBody r.pattern grown b') := by
  have hlift : ∀ {P}, g.definitions.Licenses P b → g.definitions.Licenses P o :=
    fun hP => .body hr hd hb hP
  refine ⟨⟨h.1.name, ?_, ?_, ?_, ?_, h.1.own.trans ((List.prefix_append _ _).map _)⟩, ?_⟩
  · intro c hc
    rcases List.mem_append.1 hc with hc | hc
    · exact h.1.elements c hc
    · obtain ⟨c', hc', rfl⟩ := List.mem_map.1 hc
      exact hlift (hb'.1.elements c' hc')
  · intro a ha
    rcases List.mem_append.1 ha with ha | ha
    · exact h.1.attributes a ha
    · obtain ⟨a', ha', rfl⟩ := List.mem_map.1 ha
      exact .body hr hd hb (hb'.1.attributes a' ha')
  · intro ht
    rcases Bool.or_eq_true_iff.1 ht with ht | ht
    · exact h.1.text ht
    · exact hlift (hb'.1.text ht)
  · intro q hq
    rcases List.mem_append.1 hq with hq | hq
    · exact h.1.references q hq
    · obtain ⟨q', hq', rfl⟩ := List.mem_map.1 hq
      exact .body hr hd hb (hb'.1.references q' hq')
  · intro y hy
    rcases mem_walkList_append.1 hy with hy | hy
    · exact h.2 y hy
    · obtain ⟨c, hc, hy⟩ := mem_walkList.1 hy
      obtain ⟨c', hc', rfl⟩ := List.mem_map.1 hc
      rcases mem_walk.1 hy with rfl | ⟨d, hd', hy⟩
      · -- only the modifiers of the child itself have changed
        obtain ⟨q, hq, hs⟩ := hb'.2 c' (mem_walkList.2 ⟨c', hc', mem_walk_self c'⟩)
        exact ⟨q, hq, ⟨hs.name, hs.elements, hs.attributes, hs.text, hs.references, hs.own⟩⟩
      · exact hb'.2 y (mem_walkList.2 ⟨c', hc', mem_walk.2 (.inr ⟨d, hd', hy⟩)⟩)

theorem Rooted.inlineBodies {o : ElementPattern} {r : Reference} {bodies : List ElementPattern}
    (hr : r ∈ o.references) (hd : g.definitions.get? r.name = some bodies) :
    ∀ (resolved : List ElementPattern) {grown : ElementPattern}, Rooted g o grown →
      (∀ b' ∈ resolved, ∃ b ∈ bodies, Rooted g b b') →
      Rooted g o (resolved.foldl (Schema.inlineBody r.pattern) grown)
  | [], _, h, _ => h
  | b' :: resolved, _, h, hall => by
    obtain ⟨b, hb, hb'⟩ := hall b' List.mem_cons_self
    exact Rooted.inlineBodies hr hd resolved (h.inlineBody hr hd hb hb')
      fun c hc => hall c (List.mem_cons_of_mem _ hc)

theorem Rooted.keep {o grown : ElementPattern} {r : Reference} (h : Rooted g o grown)
    (hr : r ∈ o.references) (substituted : Bool) :
    Rooted g o (keepReference grown { r with substituted }) := by
  refine ⟨⟨h.1.name, h.1.elements, h.1.attributes, h.1.text, fun q hq => ?_, h.1.own⟩, h.2⟩
  rcases List.mem_append.1 hq with hq | hq
  · exact h.1.references q hq
  · cases List.mem_singleton.1 hq
    have hown : g.definitions.RefersTo o r.name r.pattern := .own hr
    exact hown

variable {table : Definitions} {path : List String}

theorem Expands.rooted (ht : TableRooted g table) {owner : String} {o grown out : ElementPattern}
    {rs : List Reference} (h : Expands g.definitions table path owner grown rs out)
    (hrs : ∀ r ∈ rs, r ∈ o.references) (hg : Rooted g o grown) : Rooted g o out := by
  induction h with
  | nil => exact hg
  | @keep _ r _ _ _ _ ih | @guard _ r _ _ _ _ ih =>
    exact ih (fun q hq => hrs q (List.mem_cons_of_mem _ hq))
      (hg.keep (hrs r List.mem_cons_self) _)
  | @inline _ r _ _ resolved hb _ ih =>
    obtain ⟨bodies, hd, hall⟩ := ht _ _ hb
    exact ih (fun q hq => hrs q (List.mem_cons_of_mem _ hq))
      (.inlineBodies (hrs r List.mem_cons_self) hd resolved hg hall)

theorem Valued.heading_eq {ds : Definitions} {a a' : AttributePattern}
    (h : Valued ds table path a a') : a'.heading = a.heading := by
  cases h with
  | plain => rfl
  | guard => rfl
  | fill =>
    rw [foldl_inlineValue]
    rfl

theorem map_heading_of_valued {ds : Definitions} {as as' : List AttributePattern}
    (h : List.Forall₂ (Valued ds table path) as as') :
    as'.map (·.heading) = as.map (·.heading) := by
  induction h with
  | nil => rfl
  | cons hv _ ih => rw [List.map_cons, List.map_cons, hv.heading_eq, ih]

/-- **A resolved element stems from the one it was resolved from**, and the
    elements below it from patterns of the grammar. -/
theorem Resolves.rooted (ht : TableRooted g table) (e : ElementPattern) :
    (∀ c ∈ walkList e.elements, c ∈ patterns g) →
      ∀ e', Resolves g.definitions table path e e' → Rooted g e e' := by
  induction e using childInduction with
  | step e ih =>
    rintro he _ ⟨hx, ha, hc⟩
    have hstart : Rooted g e { e with elements := [], references := [] } :=
      ⟨⟨rfl, nofun, fun _ ha => .own ha, fun ht => .own ht, nofun, List.prefix_rfl⟩, nofun⟩
    have hgrown := hx.rooted ht (fun r hr => hr) hstart
    have hchild : ∀ c ∈ e.elements, ∀ c', Resolves g.definitions table path c c' →
        Rooted g c c' := fun c hm c' hr =>
      ih c hm (fun d hd => he d (mem_walkList.2 ⟨c, hm, by
        obtain ⟨f, hf, hd⟩ := mem_walkList.1 hd
        exact mem_walk.2 (.inr ⟨f, hf, hd⟩)⟩)) c' hr
    refine ⟨⟨hgrown.1.name, ?_, ?_, hgrown.1.text, hgrown.1.references, ?_⟩, ?_⟩
    · intro c' hm
      rcases List.mem_append.1 hm with hm | hm
      · obtain ⟨c, hcm, hr⟩ := forall₂_mem_right hc hm
        exact .own ⟨c, hcm, (hchild c hcm c' hr).1.name.symm⟩
      · exact hgrown.1.elements c' hm
    · intro a' hm
      obtain ⟨a, ham, hv⟩ := forall₂_mem_right ha hm
      obtain ⟨hname, hpattern⟩ := Prod.mk.inj hv.heading_eq
      rw [hname, hpattern]
      exact hgrown.1.attributes a ham
    · rw [map_heading_of_valued ha]
      exact hgrown.1.own
    · intro y hy
      rcases mem_walkList_append.1 hy with hy | hy
      · obtain ⟨c', hm, hy⟩ := mem_walkList.1 hy
        obtain ⟨c, hcm, hr⟩ := forall₂_mem_right hc hm
        have hroot := hchild c hcm c' hr
        rcases mem_walk.1 hy with rfl | ⟨d, hd, hy⟩
        · exact ⟨c, he c (mem_walkList.2 ⟨c, hcm, mem_walk_self c⟩), hroot.1⟩
        · exact hroot.2 y (mem_walkList.2 ⟨d, hd, hy⟩)
      · exact hgrown.2 y hy

theorem Stage.rooted (h : Stage g.definitions path table) : TableRooted g table := by
  refine h.forall_table fun {_ _ _ bodies _} _ hd hr ih => ⟨bodies, hd, fun b' hb' => ?_⟩
  obtain ⟨b, hb, hres⟩ := forall₂_mem_right hr hb'
  exact ⟨b, hb, hres.rooted ih b (fun c hc => mem_patterns_below_body hd hb hc) b'⟩

/-- **Resolving invents nothing**: the element patterns of the resolved grammar
    stem from patterns of the grammar, and the bodies of its definitions from
    bodies of the same definition. -/
theorem stems_resolve (g : Grammar) :
    (∀ x ∈ patterns g.resolve.1, ∃ o ∈ patterns g, Stems g.definitions o x) ∧
      ∀ name resolved, g.resolve.1.definitions.get? name = some resolved →
        ∃ bodies, g.definitions.get? name = some bodies ∧
          ∀ b' ∈ resolved, ∃ b ∈ bodies, Stems g.definitions b b' := by
  obtain ⟨table, hstage, hstart, hdefs⟩ := resolve_stage g
  have ht := hstage.rooted
  refine ⟨fun x hx => ?_, fun name resolved hn => ?_⟩
  · rcases List.mem_append.1 hx with hx | hx
    · exact (hstart.rooted ht g.start (fun c hc => mem_patterns_of_start hc) _).2 x hx
    · obtain ⟨b', hb', hx⟩ := List.mem_flatMap.1 hx
      obtain ⟨resolved, hv, hb'⟩ := List.mem_flatten.1 hb'
      rw [hdefs] at hv
      obtain ⟨_, hentry, rfl⟩ := List.mem_map.1 hv
      obtain ⟨⟨name, bodies⟩, hread, rfl⟩ := List.mem_map.1 hentry
      cases hget : table.get? name with
      | none =>
        simp only [hget, Option.getD_none] at hb'
        exact ⟨x, mem_patterns_of_entry hread hb' hx, .refl _ x⟩
      | some found =>
        simp only [hget, Option.getD_some] at hb'
        obtain ⟨_, -, hall⟩ := ht name found hget
        obtain ⟨_, -, hroot⟩ := hall b' hb'
        exact hroot.2 x hx
  · rw [hdefs] at hn
    obtain ⟨bodies, hd, hget | rfl⟩ := Definitions.of_get?_overlay hn
    · obtain ⟨own, hown, hall⟩ := ht name resolved hget
      refine ⟨own, hown, fun b' hb' => ?_⟩
      obtain ⟨b, hb, hroot⟩ := hall b' hb'
      exact ⟨b, hb, hroot.1⟩
    · exact ⟨resolved, hd, fun b' hb' => ⟨b', hb', .refl _ b'⟩⟩

end

end Bindery.Schema
