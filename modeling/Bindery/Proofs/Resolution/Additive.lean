/-
  Resolving only adds.

  What takes the place of references is put behind the children and attributes
  that an element has of its own.  Definitions leave the table while their bodies
  are resolved, and other definitions that use them may be resolved meanwhile.

  * `Resolves.extended`: a resolved element extends the one it was resolved from,
    and so do its first children, at every depth;
  * `resolve_extends`: every definition comes back with all of its bodies.
-/
import Bindery.Proofs.Resolution.Coverage

namespace Bindery.Schema

/-- **Whether nothing of an element is lost or changed in another**: its name and
    its modifiers are the same, its attributes come first there, and the first
    children extend its own. -/
inductive ElementPattern.Extends : ElementPattern → ElementPattern → Prop
  | intro {e e' : ElementPattern} {own added : List ElementPattern} :
      e'.name = e.name → e'.pattern = e.pattern → (e.hasText = true → e'.hasText = true) →
      e.attributes.map (·.heading) <+: e'.attributes.map (·.heading) →
      e'.elements = own ++ added → List.Forall₂ Extends e.elements own → Extends e e'

section
variable {ds table : Definitions} {path : List String}

theorem Expands.extends {owner : String} {grown out : ElementPattern} {rs : List Reference}
    (h : Expands ds table path owner grown rs out) :
    out.pattern = grown.pattern ∧ (grown.hasText = true → out.hasText = true) ∧
      grown.attributes <+: out.attributes := by
  induction h with
  | nil => exact ⟨rfl, id, List.prefix_rfl⟩
  | keep _ _ ih => exact ih
  | guard _ _ ih => exact ih
  | inline _ _ ih =>
    rw [foldl_inlineBody] at ih
    obtain ⟨hpattern, htext, hattributes⟩ := ih
    exact ⟨hpattern, fun h => htext (by simp [h]), (List.prefix_append _ _).trans hattributes⟩

theorem Resolves.extended (e : ElementPattern) :
    ∀ e', Resolves ds table path e e' → e.Extends e' := by
  induction e using ElementPattern.childInduction with
  | step e ih =>
    rintro _ ⟨hx, ha, hc⟩
    obtain ⟨hpattern, htext, hattributes⟩ := hx.extends
    refine .intro hx.name hpattern htext ?_ rfl (forall₂_imp_mem hc ih)
    rw [map_heading_of_valued ha]
    exact hattributes.map _

end

theorem ElementPattern.Extends.refl (e : ElementPattern) : e.Extends e := by
  induction e using ElementPattern.childInduction with
  | step e ih =>
    exact .intro rfl rfl id List.prefix_rfl (List.append_nil _).symm (List.forall₂_same.2 ih)

/-- **Resolving only adds.**  Whatever the start and the definitions of a grammar
    are, shared and recursive ones too: the resolved start extends the start, and
    the names of the definitions and their order stay.  Every definition has as
    many bodies as before, each extending the body in its place, and they are the
    same bodies if the start leads to the definition neither through references
    nor through the values of attributes. -/
theorem resolve_extends (g : Grammar) :
    g.start.Extends g.resolve.1.start ∧
      g.resolve.1.definitions.keys = g.definitions.keys ∧
      ∀ name bodies, g.definitions.get? name = some bodies →
        ∃ resolved, g.resolve.1.definitions.get? name = some resolved ∧
          List.Forall₂ ElementPattern.Extends bodies resolved ∧
          (¬ g.Needs name → resolved = bodies) := by
  obtain ⟨table, hstage, hstart, hdefs, hneeds⟩ := resolve_needs g
  refine ⟨hstart.extended g.start _, ?_, fun name bodies hd => ?_⟩
  · rw [hdefs]
    simp [Table.keys, Definitions.overlay]
  · rw [hdefs, Definitions.get?_overlay, hd]
    cases hget : table.get? name with
    | none => exact ⟨bodies, rfl, List.forall₂_same.2 fun b _ => .refl b, fun _ => rfl⟩
    | some resolved =>
      refine ⟨resolved, rfl, ?_, fun hn => absurd (hneeds name resolved hget) hn⟩
      obtain ⟨own, outer, hown, -, hres⟩ := hstage.resolved hget
      cases hd.symm.trans hown
      exact hres.imp fun b b' => Resolves.extended b b'

end Bindery.Schema
