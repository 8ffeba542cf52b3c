/-
  Values are listed once.

  The readers gather the values that a text may have one by one, and pass over
  those they have.  Resolving gives an element or an attribute the values of a
  definition only where it has none of its own, so that two lists of values are
  never joined.

  * `keptDistinct`: the steps of readers list no value twice;
  * `readGrammar_distinct`: nor does a grammar that is read, at any depth;
  * `Resolves.distinct`: nor does an element that is resolved;
  * `resolve_distinct`: nor does a resolved grammar.
-/
import Mathlib.Data.List.Nodup
import Bindery.Proofs.Resolution.Outcome

namespace Bindery.Schema

open ElementPattern

/-! ## Facets -/

namespace Facet

def Distinct (f : Option Facet) : Prop := ∀ listed ∈ f, listed.values.Nodup

theorem distinct_none : Distinct none := nofun

theorem Distinct.push {f : Facet} (h : Distinct (some f)) (value : String) :
    Distinct (some (f.push value)) := by
  rintro _ ⟨⟩
  have hnodup := h f rfl
  rw [Facet.push]
  split
  · exact hnodup
  · rename_i hnew
    exact hnodup.append (List.nodup_singleton value) (List.disjoint_singleton.2 hnew)

theorem Distinct.proper {f : Option Facet} (h : Distinct f) : Distinct (Facet.proper f) :=
  fun listed hl => h listed (Option.filter_eq_some_iff.1 hl).1

theorem Distinct.orElse {f f' : Option Facet} (h : Distinct f) (h' : Distinct f') :
    Distinct (f <|> f') := by
  cases f with
  | none => exact h'
  | some => exact h

end Facet

/-! ## Pattern trees -/

/-- Whether no value is listed twice, for the element and its attributes and
    for all below it. -/
def ElementPattern.Distinct (e : ElementPattern) : Prop :=
  ∀ x ∈ e.walk, Facet.Distinct x.facet ∧ ∀ a ∈ x.attributes, Facet.Distinct a.facet

/-- Whether the bodies of all definitions list no value twice. -/
def Definitions.Distinct (ds : Definitions) : Prop :=
  ∀ name bodies, ds.get? name = some bodies → ∀ body ∈ bodies, body.Distinct

theorem Definitions.Distinct.body {ds : Definitions} (h : ds.Distinct) {name : String}
    {body : ElementPattern} (hb : body ∈ (ds.get? name).getD []) : body.Distinct := by
  cases hget : ds.get? name with
  | none => simp [hget] at hb
  | some bodies => exact h name bodies hget body (by simpa [hget] using hb)

namespace ElementPattern

variable {e b c : ElementPattern}

theorem distinct_iff : e.Distinct ↔ Facet.Distinct e.facet ∧
    (∀ a ∈ e.attributes, Facet.Distinct a.facet) ∧ ∀ c ∈ e.elements, c.Distinct :=
  forall_mem_walk.trans and_assoc

theorem Distinct.of_eq {e' : ElementPattern} (h : e.Distinct) (hf : e'.facet = e.facet)
    (ha : e'.attributes = e.attributes) (hc : e'.elements = e.elements) : e'.Distinct := by
  rw [distinct_iff, hf, ha, hc]
  exact distinct_iff.1 h

theorem Distinct.addElement (h : e.Distinct) (hc : c.Distinct) :
    ElementPattern.Distinct { e with elements := e.elements ++ [c] } := by
  obtain ⟨hf, ha, he⟩ := distinct_iff.1 h
  refine distinct_iff.2 ⟨hf, ha, fun x hx => ?_⟩
  rcases List.mem_append.1 hx with hx | hx
  · exact he x hx
  · rw [List.mem_singleton.1 hx]
    exact hc

theorem Distinct.addAttribute (h : e.Distinct) {a : AttributePattern}
    (hv : Facet.Distinct a.facet) :
    ElementPattern.Distinct { e with attributes := e.attributes ++ [a] } := by
  obtain ⟨hf, ha, he⟩ := distinct_iff.1 h
  refine distinct_iff.2 ⟨hf, fun x hx => ?_, he⟩
  rcases List.mem_append.1 hx with hx | hx
  · exact ha x hx
  · rw [List.mem_singleton.1 hx]
    exact hv

theorem Distinct.inlineBody (he : e.Distinct) (hb : b.Distinct) (p : Pattern) :
    (Schema.inlineBody p e b).Distinct := by
  obtain ⟨hef, hea, hec⟩ := distinct_iff.1 he
  obtain ⟨hbf, hba, hbc⟩ := distinct_iff.1 hb
  refine distinct_iff.2 ⟨hef.orElse hbf, fun a ha => ?_, fun c hc => ?_⟩
  · rcases List.mem_append.1 ha with ha | ha
    · exact hea a ha
    · obtain ⟨a', ha', rfl⟩ := List.mem_map.1 ha
      exact hba a' ha'
  · rcases List.mem_append.1 hc with hc | hc
    · exact hec c hc
    · obtain ⟨c', hc', rfl⟩ := List.mem_map.1 hc
      exact (hbc c' hc').of_eq rfl rfl rfl

end ElementPattern

/-! ## Reading -/

/-- Readers pass over values they have. -/
def keptDistinct : Kept where
  Tree _ := ElementPattern.Distinct
  Values := Facet.Distinct
  free := Facet.distinct_none
  blank := by
    rintro _ ⟨⟩
    exact List.nodup_nil
  push value h := h.push value
  combinable {f} h := by
    rintro _ ⟨⟩
    exact h f rfl
  proper h := h.proper
  empty _ _ := distinct_iff.2 ⟨Facet.distinct_none, fun _ h => absurd h List.not_mem_nil,
    fun _ h => absurd h List.not_mem_nil⟩
  values h := (distinct_iff.1 h).1
  retype h _ _ helements hattributes hf := by
    rw [distinct_iff, helements, hattributes]
    exact ⟨hf, (distinct_iff.1 h).2⟩
  addElement h hc := h.addElement hc
  addAttribute h hv := h.addAttribute hv
  addReference _ _ h := h.of_eq rfl rfl rfl

/-- **A grammar that is read lists no value twice**, in whatever language it is
    written. -/
theorem readGrammar_distinct {dialect : Option Dialect} {root : Markup.Node} {g : Grammar}
    (h : (readGrammar dialect root).1 = .ok g) : g.start.Distinct ∧ g.definitions.Distinct :=
  readGrammar_kept keptDistinct h

/-! ## Resolving -/

section
variable {ds table : Definitions} {path : List String}

theorem Expands.distinct (ht : table.Distinct) {owner : String} {grown out : ElementPattern}
    {rs : List Reference} (h : Expands ds table path owner grown rs out)
    (hg : grown.Distinct) : out.Distinct := by
  induction h with
  | nil => exact hg
  | keep _ _ ih => exact ih (hg.of_eq rfl rfl rfl)
  | guard _ _ ih => exact ih (hg.of_eq rfl rfl rfl)
  | @inline _ r _ _ bodies hb _ ih =>
    exact ih (List.foldlRecOn (motive := ElementPattern.Distinct) bodies _ hg
      fun _ hgrown body hm => hgrown.inlineBody (ht _ _ hb body hm) r.pattern)

theorem Valued.distinct (ht : table.Distinct) {a a' : AttributePattern}
    (h : Valued ds table path a a') (ha : Facet.Distinct a.facet) : Facet.Distinct a'.facet := by
  cases h with
  | plain => exact ha
  | guard => exact ha
  | @fill _ bodies _ hb =>
    exact List.foldlRecOn (motive := fun x : AttributePattern => Facet.Distinct x.facet)
      bodies _ ha fun _ hx body hm =>
        hx.orElse (distinct_iff.1 (ht _ _ hb body hm)).1.proper

/-- **A resolved element lists no value twice**: the definitions fill in where it
    lists none. -/
theorem Resolves.distinct (ht : table.Distinct) (e : ElementPattern) :
    e.Distinct → ∀ e', Resolves ds table path e e' → e'.Distinct := by
  induction e using childInduction with
  | step e ih =>
    rintro he _ ⟨hx, ha, hc⟩
    obtain ⟨hf, hattributes, helements⟩ := distinct_iff.1 he
    have hbare : ElementPattern.Distinct { e with elements := [], references := [] } :=
      distinct_iff.2 ⟨hf, hattributes, fun _ h => absurd h List.not_mem_nil⟩
    have hgrown := distinct_iff.1 (hx.distinct ht hbare)
    refine distinct_iff.2 ⟨hgrown.1, fun a' hm => ?_, fun c' hm => ?_⟩
    · obtain ⟨a, hm, hv⟩ := forall₂_mem_right ha hm
      exact hv.distinct ht (hgrown.2.1 a hm)
    · rcases List.mem_append.1 hm with hm | hm
      · obtain ⟨c, hm, hr⟩ := forall₂_mem_right hc hm
        exact ih c hm (helements c hm) c' hr
      · exact hgrown.2.2 c' hm

theorem Stage.distinct (hd : ds.Distinct) (h : Stage ds path table) : table.Distinct := by
  refine h.forall_table fun _ hb hr ih b' hb' => ?_
  obtain ⟨b, hm, hres⟩ := forall₂_mem_right hr hb'
  exact hres.distinct ih b (hd _ _ hb b hm) b'

end

theorem resolve_distinct {g : Grammar} (hstart : g.start.Distinct)
    (hdefs : g.definitions.Distinct) :
    g.resolve.1.start.Distinct ∧ g.resolve.1.definitions.Distinct := by
  obtain ⟨table, hstage, hresolved, htable⟩ := resolve_stage g
  have ht := hstage.distinct hdefs
  refine ⟨hresolved.distinct ht g.start hstart _, fun name resolved hn b hb => ?_⟩
  rw [htable] at hn
  obtain ⟨bodies, hd, hget | rfl⟩ := Definitions.of_get?_overlay hn
  · exact ht name resolved hget b hb
  · exact hdefs name resolved hd b hb

end Bindery.Schema
