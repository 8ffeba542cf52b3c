/-
  Reading content models.

  `RelaxNg.Models` says that nodes spell a content model, with any labels on its
  elements.  What is read from such nodes are elements with the modifiers of the
  model (`marks_of_read`), whatever the elements hold: `ReadM.Grows` is what all
  readers keep of the number of choices.
-/
import Bindery.Proofs.Occurrence.Marks
import Bindery.Proofs.Resolution.Fresh

namespace Bindery.Schema

/-! ## Readers -/

/-- A reader that counts choices upwards, and whose result, if it gives one, has
    `Q`. -/
def ReadM.Grows {α : Type} (x : ReadM α) (Q : α → Prop) : Prop :=
  ∀ r a r', x.run r = (.ok a, r') → r.choices ≤ r'.choices ∧ Q a

namespace ReadM

variable {α β : Type} {P : α → Prop} {Q : β → Prop}

theorem exists_of_run_bind {x : ReadM α} {f : α → ReadM β} {r r' : Reading} {b : β}
    (h : (x >>= f).run r = (.ok b, r')) :
    ∃ a r₁, x.run r = (.ok a, r₁) ∧ (f a).run r₁ = (.ok b, r') := by
  rw [run_bind] at h
  rcases hx : x.run r with ⟨e | a, r₁⟩ <;> rw [hx] at h
  · cases h
  · exact ⟨a, r₁, rfl, h⟩

theorem Grows.pure {a : α} (h : P a) : Grows (Pure.pure a) P := by
  intro r b r' hx
  cases hx
  exact ⟨Nat.le_refl _, h⟩

theorem Grows.bind {x : ReadM α} {f : α → ReadM β} (hx : x.Grows P)
    (hf : ∀ a, P a → (f a).Grows Q) : (x >>= f).Grows Q := by
  intro r b r' hb
  obtain ⟨a, r₁, ha, hb⟩ := exists_of_run_bind hb
  obtain ⟨hle, hP⟩ := hx r a r₁ ha
  obtain ⟨hle', hQ⟩ := hf a hP r₁ b r' hb
  exact ⟨hle.trans hle', hQ⟩

theorem grows_tell (n : Notice) : Grows (tell n) fun _ => True := by
  intro r a r' h
  cases h
  exact ⟨Nat.le_refl _, trivial⟩

theorem grows_nextChoice : Grows nextChoice fun _ => True := by
  intro r a r' h
  cases h
  exact ⟨Nat.le_succ _, trivial⟩

theorem grows_ofExcept (x : Except SchemaError α) : Grows (ofExcept x) fun _ => True := by
  cases x with
  | ok a => exact .pure trivial
  | error e =>
    intro r a r' h
    cases h

theorem grows_dataType (name : String) : Grows (dataType name) fun _ => True := by
  rw [dataType]
  split
  · exact .pure trivial
  · exact .bind (grows_tell _) fun _ _ => .pure trivial

end ReadM

namespace RelaxNg

open Markup (Node)

theorem grows_foldAttribute (name : String) (pattern : Pattern) (content : ElementPattern) :
    ReadM.Grows (foldAttribute name pattern content) fun _ => True := by
  rw [foldAttribute]
  split
  · refine .bind (ReadM.grows_tell _) fun _ _ => ?_
    split
    · exact .bind (ReadM.grows_tell _) fun _ _ => .pure trivial
    · exact .pure trivial
  · split
    · exact .bind (ReadM.grows_tell _) fun _ _ => .pure trivial
    · exact .pure trivial

mutual

theorem grows_readPattern (p : Pattern) (target : ElementPattern) :
    ∀ n : Node, (readPattern p target n).Grows fun out => out.pattern = target.pattern
  | .element head children => by
    rw [readPattern]
    split
    · refine .bind (ReadM.grows_ofExcept _) fun name _ => ?_
      exact .bind (grows_readPatterns {} _ children) fun _ _ => .pure rfl
    · refine .bind (ReadM.grows_ofExcept _) fun name _ => ?_
      refine .bind (grows_readPatterns {} _ children) fun _ _ => ?_
      exact .bind (grows_foldAttribute _ _ _) fun _ _ => .pure rfl
    · exact .bind (ReadM.grows_ofExcept _) fun _ _ => .pure rfl
    · exact .pure rfl
    · exact .pure rfl
    · exact grows_readPatterns _ target children
    · exact grows_readPatterns _ target children
    · exact grows_readPatterns _ target children
    · exact .bind ReadM.grows_nextChoice fun _ _ => grows_readPatterns _ target children
    · exact grows_readPatterns _ target children
    · exact grows_readPatterns _ target children
    · exact grows_readPatterns _ _ children
    · refine .bind (grows_readPatterns _ target children) fun e he => ?_
      split
      · exact .pure he
      · exact .pure he
    · refine .bind (ReadM.grows_ofExcept _) fun _ _ => ?_
      exact .bind (ReadM.grows_dataType _) fun _ _ => .pure rfl
    · exact .pure rfl
    · exact .pure rfl
    · exact .pure rfl
    -- the other constructs are skipped with a notice
    all_goals exact .bind (ReadM.grows_tell _) fun _ _ => .pure rfl
  | .text _ | .comment _ | .instruction => .pure rfl

theorem grows_readPatterns (p : Pattern) (target : ElementPattern) :
    ∀ ns : List Node, (readPatterns p target ns).Grows fun out => out.pattern = target.pattern
  | [] => .pure rfl
  | n :: ns => by
    rw [readPatterns]
    refine .bind (grows_readPattern p target n) fun e he => ?_
    rw [← he]
    exact grows_readPatterns p e ns

end

/-! ## Content models -/

def Construct.ofWrapper : Wrapper → Construct
  | .optional => optional
  | .zeroOrMore => zeroOrMore
  | .oneOrMore => oneOrMore
  | .choice => choice
  | .group => group

variable {α : Type}

/-- **Whether nodes spell a content model.**  Texts and comments between them,
    annotations and the name of the element are no part of it, and every choice
    has an alternative. -/
inductive Models : List Node → ContentModel α → Prop
  | nil : Models [] .nil
  | element {head children ns a m} : Construct.ofHead head = .element → Models ns m →
      Models (.element head children :: ns) (.element a m)
  | empty {head children ns m} : Construct.ofHead head = .empty → Models ns m →
      Models (.element head children :: ns) (.empty m)
  | wrapped {head children ns w inner m} : Construct.ofHead head = .ofWrapper w →
      (w = .choice → inner ≠ .nil) → Models children inner → Models ns m →
      Models (.element head children :: ns) (.wrapped w inner m)
  | skip {n ns m} : n.isElement = false → Models ns m → Models (n :: ns) m
  | aside {head children ns m} :
      Construct.ofHead head = .name ∨ Construct.ofHead head = .foreign → Models ns m →
      Models (.element head children :: ns) m

theorem Models.proper {ns : List Node} {m : ContentModel α} (h : Models ns m) : m.Proper := by
  induction h with
  | nil => trivial
  | element _ _ ih => exact ih
  | empty _ _ ih => exact ih
  | wrapped _ hchoice _ _ ihInner ihRest => exact ⟨hchoice, ihInner, ihRest⟩
  | skip _ _ ih => exact ih
  | aside _ _ ih => exact ih

theorem run_readPattern_wrapper {head : Markup.Head} {children : List Node} {w : Wrapper}
    (hhead : Construct.ofHead head = .ofWrapper w) (p : Pattern) (target : ElementPattern)
    (r : Reading) : (readPattern p target (.element head children)).run r =
      (readPatterns (w.mark r.choices p) target children).run
        { r with choices := w.count r.choices } := by
  rw [readPattern]
  cases w <;> simp only [hhead, Construct.ofWrapper] <;> rfl

/-- **What is read from a content model** are elements with its modifiers. -/
theorem marks_of_read {ns : List Node} {m : ContentModel α} (h : Models ns m) {p : Pattern}
    {target out : ElementPattern} {r r' : Reading}
    (hrun : (readPatterns p target ns).run r = (.ok out, r')) :
    ∃ es qs, out.elements = target.elements ++ es ∧ out.references = target.references ∧
      es.map (·.pattern) = qs.map (·.2) ∧ Marks r.choices p m qs r'.choices := by
  induction h generalizing p target out r r' with
  | nil =>
    cases hrun
    exact ⟨[], [], by simp, rfl, rfl, .nil⟩
  | @element head children ns a m hhead _ ih =>
    rw [readPatterns] at hrun
    obtain ⟨added, r₂, hadd, hrest⟩ := ReadM.exists_of_run_bind hrun
    rw [readPattern] at hadd
    simp only [hhead] at hadd
    obtain ⟨name, r₀, hname, hadd⟩ := ReadM.exists_of_run_bind hadd
    obtain ⟨e, r₁, he, hadd⟩ := ReadM.exists_of_run_bind hadd
    cases hadd
    obtain ⟨hle, -⟩ := ReadM.grows_ofExcept _ _ _ _ hname
    obtain ⟨hle', hpattern⟩ := grows_readPatterns _ _ _ _ _ _ he
    obtain ⟨es, qs, helements, hreferences, hpatterns, hmarks⟩ := ih hrest
    refine ⟨e :: es, (a, p) :: qs, ?_, hreferences, ?_, .element (hle.trans hle') hmarks⟩
    · rw [helements, List.append_assoc, List.singleton_append]
    · rw [List.map_cons, List.map_cons, hpattern, hpatterns]
  | @empty head children ns m hhead _ ih =>
    rw [readPatterns] at hrun
    obtain ⟨added, r₂, hadd, hrest⟩ := ReadM.exists_of_run_bind hrun
    rw [readPattern] at hadd
    simp only [hhead] at hadd
    cases hadd
    obtain ⟨es, qs, helements, hreferences, hpatterns, hmarks⟩ := ih hrest
    exact ⟨es, qs, helements, hreferences, hpatterns, .empty hmarks⟩
  | @wrapped head children ns w inner m hhead _ _ _ ihInner ihRest =>
    rw [readPatterns] at hrun
    obtain ⟨added, r₂, hadd, hrest⟩ := ReadM.exists_of_run_bind hrun
    rw [run_readPattern_wrapper hhead] at hadd
    obtain ⟨es₁, qs₁, helements₁, hreferences₁, hpatterns₁, hmarks₁⟩ := ihInner hadd
    obtain ⟨es₂, qs₂, helements₂, hreferences₂, hpatterns₂, hmarks₂⟩ := ihRest hrest
    refine ⟨es₁ ++ es₂, qs₁ ++ qs₂, ?_, ?_, ?_, .wrapped hmarks₁ hmarks₂⟩
    · rw [helements₂, helements₁, List.append_assoc]
    · rw [hreferences₂, hreferences₁]
    · rw [List.map_append, List.map_append, hpatterns₁, hpatterns₂]
  | @skip n ns m hn _ ih =>
    rw [readPatterns] at hrun
    obtain ⟨added, r₂, hadd, hrest⟩ := ReadM.exists_of_run_bind hrun
    cases n with
    | element => cases hn
    | text | comment | instruction =>
      cases hadd
      exact ih hrest
  | @aside head children ns m hhead _ ih =>
    rw [readPatterns] at hrun
    obtain ⟨added, r₂, hadd, hrest⟩ := ReadM.exists_of_run_bind hrun
    rw [readPattern] at hadd
    rcases hhead with hhead | hhead <;> simp only [hhead] at hadd <;> cases hadd <;> exact ih hrest

end RelaxNg

end Bindery.Schema
