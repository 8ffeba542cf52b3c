/-
  Identifiers and the numbers of choices.

  The readers number every choice that they meet, and the numbers travel with
  the patterns into the content of elements.  `ElementPattern.renumber` gives
  the choices other numbers, in a pattern and at all depths below it.

  * `renumber_eq_self`: a pattern stays as it is, up to how it occurs itself, if
    and only if none of the numbers below it changes (`groupsBelow`);
  * `identifiers_of_renumbered`: a pattern and one with other numbers get
    one identifier if and only if the numbers below are the same, and otherwise
    one of them gets an identifier with a number;
  * `repeated_choice_numbered`: a declaration with a choice that is repeated
    word for word.
-/
import Mathlib
import Bindery.Proofs.Document.Licensed
import Bindery.Proofs.Document.Visits

namespace Bindery.Schema

/-! ## Other numbers for choices -/

def Pattern.renumber (ρ : Nat → Nat) (p : Pattern) : Pattern :=
  { p with group := p.group.map ρ }

def AttributePattern.renumber (ρ : Nat → Nat) (a : AttributePattern) : AttributePattern :=
  { a with pattern := a.pattern.renumber ρ }

def Reference.renumber (ρ : Nat → Nat) (r : Reference) : Reference :=
  { r with pattern := r.pattern.renumber ρ }

theorem Pattern.renumber_eq_self {ρ : Nat → Nat} {p : Pattern} :
    p.renumber ρ = p ↔ ∀ k, p.group = some k → ρ k = k := by
  obtain ⟨optional, zeroOrMore, oneOrMore, choice, group⟩ := p
  cases group <;> simp [renumber]

theorem AttributePattern.renumber_eq_self {ρ : Nat → Nat} {a : AttributePattern} :
    a.renumber ρ = a ↔ ∀ k, a.pattern.group = some k → ρ k = k := by
  rw [← Pattern.renumber_eq_self]
  cases a
  simp [renumber]

theorem Reference.renumber_eq_self {ρ : Nat → Nat} {r : Reference} :
    r.renumber ρ = r ↔ ∀ k, r.pattern.group = some k → ρ k = k := by
  rw [← Pattern.renumber_eq_self]
  cases r
  simp [renumber]

namespace ElementPattern

mutual

def renumber (ρ : Nat → Nat) : ElementPattern → ElementPattern
  | ⟨name, hasText, isEmpty, elements, attributes, references, pattern, dataType, facet⟩ =>
    { name, hasText, isEmpty, dataType, facet
      elements := renumberAll ρ elements
      attributes := attributes.map (·.renumber ρ)
      references := references.map (·.renumber ρ)
      pattern := pattern.renumber ρ }

def renumberAll (ρ : Nat → Nat) : List ElementPattern → List ElementPattern
  | [] => []
  | e :: es => renumber ρ e :: renumberAll ρ es

end

theorem renumberAll_eq_map (ρ : Nat → Nat) : ∀ es : List ElementPattern,
    renumberAll ρ es = es.map (renumber ρ)
  | [] => rfl
  | e :: es => by rw [renumberAll, renumberAll_eq_map ρ es, List.map_cons]

/-- The numbers of the choices directly in an element. -/
def groupsIn (e : ElementPattern) : List Nat :=
  e.attributes.filterMap (·.pattern.group) ++ e.references.filterMap (·.pattern.group) ++
    e.elements.filterMap (·.pattern.group)

/-- The numbers of the choices below an element, at any depth. -/
def groupsBelow (e : ElementPattern) : List Nat :=
  e.walk.flatMap groupsIn

theorem forall_groupsBelow {P : Nat → Prop} {e : ElementPattern} :
    (∀ k ∈ e.groupsBelow, P k) ↔
      (∀ k ∈ e.groupsIn, P k) ∧ ∀ c ∈ e.elements, ∀ k ∈ c.groupsBelow, P k := by
  simp only [groupsBelow, List.mem_flatMap]
  constructor
  · intro h
    exact ⟨fun k hk => h k ⟨e, mem_walk.2 (.inl rfl), hk⟩,
      fun c hc k ⟨x, hx, hk⟩ => h k ⟨x, mem_walk.2 (.inr ⟨c, hc, hx⟩), hk⟩⟩
  · rintro ⟨hin, hbelow⟩ k ⟨x, hx, hk⟩
    rcases mem_walk.1 hx with rfl | ⟨c, hc, hx⟩
    · exact hin k hk
    · exact hbelow c hc k ⟨x, hx, hk⟩

theorem forall_groupsIn {P : Nat → Prop} {e : ElementPattern} :
    (∀ k ∈ e.groupsIn, P k) ↔ (∀ a ∈ e.attributes, ∀ k, a.pattern.group = some k → P k) ∧
      (∀ r ∈ e.references, ∀ k, r.pattern.group = some k → P k) ∧
      ∀ c ∈ e.elements, ∀ k, c.pattern.group = some k → P k := by
  simp only [groupsIn, List.forall_mem_append, List.mem_filterMap, forall_exists_index, and_imp,
    and_assoc]
  constructor
  · rintro ⟨ha, hr, hc⟩
    exact ⟨fun a h k hk => ha k a h hk, fun r h k hk => hr k r h hk, fun c h k hk => hc k c h hk⟩
  · rintro ⟨ha, hr, hc⟩
    exact ⟨fun k a h hk => ha a h k hk, fun k r h hk => hr r h k hk, fun k c h hk => hc c h k hk⟩

theorem map_eq_self {α : Type} {f : α → α} {xs : List α} : xs.map f = xs ↔ ∀ x ∈ xs, f x = x := by
  have h : xs.map f = xs.map (fun x => x) ↔ ∀ x ∈ xs, f x = x := List.map_inj_left
  rwa [List.map_id'] at h

theorem renumber_eq_self {ρ : Nat → Nat} (e : ElementPattern) :
    { e.renumber ρ with pattern := e.pattern } = e ↔ ∀ k ∈ e.groupsBelow, ρ k = k := by
  induction e using childInduction with
  | step e ih =>
    have hparts : { e.renumber ρ with pattern := e.pattern } = e ↔
        (e.attributes.map (·.renumber ρ) = e.attributes ∧
          e.references.map (·.renumber ρ) = e.references) ∧
          e.elements.map (renumber ρ) = e.elements := by
      cases e
      simp only [renumber, renumberAll_eq_map, mk.injEq]
      tauto
    have hchild : ∀ c ∈ e.elements, c.renumber ρ = c ↔
        (∀ k, c.pattern.group = some k → ρ k = k) ∧ ∀ k ∈ c.groupsBelow, ρ k = k := by
      intro c hc
      rw [← ih c hc, ← Pattern.renumber_eq_self]
      cases c
      simp only [renumber, mk.injEq]
      tauto
    rw [hparts, map_eq_self, map_eq_self, map_eq_self, forall_groupsBelow, forall_groupsIn]
    simp only [AttributePattern.renumber_eq_self, Reference.renumber_eq_self]
    constructor
    · rintro ⟨⟨ha, hr⟩, hc⟩
      exact ⟨⟨ha, hr, fun c hm => ((hchild c hm).1 (hc c hm)).1⟩,
        fun c hm => ((hchild c hm).1 (hc c hm)).2⟩
    · rintro ⟨⟨ha, hr, hc⟩, hbelow⟩
      exact ⟨⟨ha, hr⟩, fun c hm => (hchild c hm).2 ⟨hc c hm, hbelow c hm⟩⟩

end ElementPattern

open ElementPattern

/-! ## Identifiers -/

section
variable {g : Grammar} {x y : ElementPattern} {i j : String}

theorem visit_identifier_eq_iff_of_name (hx : (x, i) ∈ g.visits) (hy : (y, j) ∈ g.visits)
    (hname : x.name = y.name) : i = j ↔ x.sameContent y = true := by
  refine ⟨?_, visit_identifier_eq hx hy⟩
  rintro rfl
  obtain ⟨p, hp⟩ := mem_built_of_visit hx
  obtain ⟨q, hq⟩ := mem_built_of_visit hy
  exact sameContent_of_withPattern ((underway_finished g).numbered.unique_of_name hp hq hname)

theorem visit_identifier_numbered (hx : (x, i) ∈ g.visits) : ∃ k, i = numberedName x.name k := by
  obtain ⟨p, hp⟩ := mem_built_of_visit hx
  obtain ⟨k, -, hk⟩ := (underway_finished g).numbered.exists_number hp
  exact ⟨k, hk⟩

theorem visit_mem_keys (hx : (x, i) ∈ g.visits) : i ∈ g.build.1.elements.keys := by
  obtain ⟨p, hp⟩ := mem_built_of_visit hx
  exact (closing_finished g).present _ i hp

theorem sameContent_renumber_iff {ρ : Nat → Nat} (h : x.sameContent (y.renumber ρ) = true) :
    x.sameContent y = true ↔ ∀ k ∈ y.groupsBelow, ρ k = k := by
  obtain ⟨p, rfl⟩ : ∃ p, x = { y.renumber ρ with pattern := p } := ⟨_, eq_of_sameContent h⟩
  rw [← renumber_eq_self]
  cases y
  simp [sameContent, renumber]

end

/-- **Identifiers depend on the numbers of choices.**  Take two visited patterns
    that are the same apart from how they occur themselves, and from other
    numbers `ρ` for the choices below them.  They get the same identifier if and
    only if none of these numbers is another one; and where they do not, one of
    them is identified by the name and a number. -/
theorem identifiers_of_renumbered {g : Grammar} {x y : ElementPattern} {i j : String}
    (hx : (x, i) ∈ g.visits) (hy : (y, j) ∈ g.visits) {ρ : Nat → Nat}
    (h : x.sameContent (y.renumber ρ) = true) :
    i ∈ g.build.1.elements.keys ∧ j ∈ g.build.1.elements.keys ∧
    (i = j ↔ ∀ k ∈ y.groupsBelow, ρ k = k) ∧
    (i ≠ j → ∃ n, 2 ≤ n ∧
      (i = x.name ++ "#" ++ toString n ∨ j = x.name ++ "#" ++ toString n)) := by
  have hname : x.name = y.name := by
    rw [eq_of_sameContent h]
    cases y
    rfl
  refine ⟨visit_mem_keys hx, visit_mem_keys hy, ?_, fun hne => ?_⟩
  · rw [visit_identifier_eq_iff_of_name hx hy hname, sameContent_renumber_iff h]
  · obtain ⟨k, rfl⟩ := visit_identifier_numbered hx
    obtain ⟨l, rfl⟩ := visit_identifier_numbered hy
    rw [← hname] at hne ⊢
    cases k with
    | succ k => exact ⟨k + 2, by omega, .inl rfl⟩
    | zero =>
      cases l with
      | succ l => exact ⟨l + 2, by omega, .inr rfl⟩
      | zero => exact absurd rfl hne

def penNode : Markup.Node :=
  namedNode "element" "pen"
    [plainNode "choice" [namedNode "element" "ink" [], namedNode "element" "lead" []]]

def pensRoot : Markup.Node :=
  plainNode "grammar"
    [plainNode "start" [penNode, namedNode "ref" "pens" [],
      plainNode "zeroOrMore" [namedNode "ref" "pens" []]],
    namedNode "define" "pens" [penNode]]

def penPattern (k : Nat) : ElementPattern where
  name := "pen"
  elements := [{ name := "ink", pattern := { choice := true, group := some k } },
    { name := "lead", pattern := { choice := true, group := some k } }]

def pensGrammar : Grammar where
  start := { elements := [penPattern 1, penPattern 2,
    { penPattern 2 with pattern := { zeroOrMore := true } }] }
  definitions := ⟨[("pens", [{ name := "pens", elements := [penPattern 2] }])]⟩

theorem pensGrammar_read :
    ((readGrammar none pensRoot).1.map fun g => g.resolve.1) = .ok pensGrammar := by
  have hread : (readGrammar none pensRoot).1 = .ok { pensGrammar with
      start := { elements := [penPattern 1], references := [{ name := "pens" },
        { name := "pens", pattern := { zeroOrMore := true } }] } } := by rfl
  rw [hread]
  cbv

theorem pens_identified : ∃ i j l, (penPattern 1, i) ∈ pensGrammar.visits ∧
    (penPattern 2, j) ∈ pensGrammar.visits ∧
    ({ penPattern 2 with pattern := { zeroOrMore := true } }, l) ∈ pensGrammar.visits ∧
    j = l ∧ i ≠ j := by
  obtain ⟨i, hi⟩ := reached_iff.1 (Grammar.Reached.start (g := pensGrammar) (c := penPattern 1)
    (p := {}) (by decide))
  obtain ⟨j, hj⟩ := reached_iff.1 (Grammar.Reached.start (g := pensGrammar) (c := penPattern 2)
    (p := {}) (by decide))
  obtain ⟨l, hl⟩ := reached_iff.1 (Grammar.Reached.start (g := pensGrammar)
    (c := { penPattern 2 with pattern := { zeroOrMore := true } }) (p := { zeroOrMore := true })
    (by decide))
  refine ⟨i, j, l, hi, hj, hl, ?_, fun heq => ?_⟩
  · exact (identifiers_of_renumbered hj hl (ρ := id) (by decide)).2.2.1.2 (by decide)
  · have hfixed := (identifiers_of_renumbered hj hi (ρ := (· + 1)) (by decide)).2.2.1.1 heq.symm
    exact absurd (hfixed 1 (by decide)) (by decide)

/-- **A declaration with a choice that is repeated word for word gives two
    entities**, though the patterns differ in the number of the choice only. -/
theorem repeated_choice_numbered :
    ((readGrammar none pensRoot).1.map fun g => g.resolve.1) = .ok pensGrammar ∧
    Function.Injective (fun k : Nat => k + 1) ∧
    (penPattern 2).sameContent ((penPattern 1).renumber fun k => k + 1) = true ∧
    pensGrammar.build.1.roots = ["pen", "pen#2"] := by
  refine ⟨pensGrammar_read, fun _ _ h => Nat.succ.inj h, by decide, ?_⟩
  cbv

end Bindery.Schema
