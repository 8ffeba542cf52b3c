/-
  The relations of an element are the fold of its content.

  * `mark?_isSome_iff`, `mark?_eq_iff`: a target is marked if it shares its
    alternation, and the marks tell alternations apart;
  * `Folds`: what relations tell of the content that they are folded from;
  * `relations_fold_content`: the relations of the entities of a document.
-/
import Bindery.Proofs.Document.Visits
import Bindery.Proofs.Occurrence.Bounds

namespace Bindery.Schema

section
variable {content : List (String × Pattern)} {t : String}

/-! ## Groups -/

theorem nodup_membersOf (group : Option Nat) : (membersOf content group).Nodup :=
  (nodup_distinct _).filter _

theorem mark?_isSome_iff (ht : t ∈ content.map (·.1)) : (mark? content t).isSome = true ↔
    ∃ group, alternation? content t = some group ∧ ∃ s ∈ content.map (·.1), s ≠ t ∧
      alternation? content s = some group := by
  have hsome : (mark? content t).isSome = true ↔ 1 < (alternatives content t).length := by
    rw [mark?]
    split <;> simp_all
  rw [hsome]
  cases halt : alternation? content t with
  | none => simp [alternatives, halt]
  | some group =>
    have hmember : t ∈ membersOf content group := mem_membersOf.2 ⟨ht, halt⟩
    rw [alternatives_eq halt]
    rw [← List.toFinset_card_of_nodup (nodup_membersOf group)]
    constructor
    · intro hcard
      obtain ⟨s, hs, hne⟩ := Finset.exists_mem_ne hcard t
      obtain ⟨htarget, hgroup⟩ := mem_membersOf.1 (List.mem_toFinset.1 hs)
      exact ⟨group, rfl, s, htarget, hne, hgroup⟩
    · rintro ⟨_, ⟨⟩, s, hs, hne, hgroup⟩
      have hother : s ∈ membersOf content group := mem_membersOf.2 ⟨hs, hgroup⟩
      exact Finset.one_lt_card.2
        ⟨s, List.mem_toFinset.2 hother, t, List.mem_toFinset.2 hmember, hne⟩

theorem choiceMembers_of_choice {r : Relation} {members : List String} (hne : members ≠ [])
    (hplus : ∀ t ∈ members, '+' ∉ t.toList) (h : r.choice = some ("+".intercalate members)) :
    r.choiceMembers = members := by
  have hsplit := splitOn_joined hne hplus
  rw [List.splitOn] at hsplit
  rw [Relation.choiceMembers, h]
  dsimp only
  rw [hsplit, List.map_map]
  simp [Function.comp_def]

theorem mark?_eq_iff (hplus : ∀ t ∈ content.map (·.1), '+' ∉ t.toList) {s : String}
    (hs : s ∈ content.map (·.1)) {group : Option Nat} (ht : alternation? content t = some group)
    (hlength : 1 < (membersOf content group).length) :
    mark? content s = mark? content t ↔ alternation? content s = some group := by
  have hmark : ∀ s, alternation? content s = some group →
      mark? content s = some ("+".intercalate (membersOf content group)) := by
    intro s halt
    rw [mark?, alternatives_eq halt, if_pos hlength]
  constructor
  · intro heq
    rw [hmark t ht] at heq
    obtain ⟨group', halt, hjoined, hlength'⟩ := exists_group heq
    have hsame : membersOf content group = membersOf content group' :=
      intercalate_inj (List.ne_nil_of_length_pos (by omega)) (List.ne_nil_of_length_pos (by omega))
        (fun t ht => hplus t (mem_membersOf.1 ht).1) (fun t ht => hplus t (mem_membersOf.1 ht).1)
        hjoined
    have hmember : s ∈ membersOf content group := hsame ▸ mem_membersOf.2 ⟨hs, halt⟩
    exact (mem_membersOf.1 hmember).2
  · intro halt
    rw [hmark s halt, hmark t ht]

/-- **What relations tell of a content** that they are folded from. -/
structure Folds (content : List (String × Pattern)) (relations : List Relation) : Prop where
  /-- There is one for each target, in the order of first occurrence. -/
  targets : relations.map (·.target) = distinct (content.map (·.1))
  /-- The bounds of a single slot are kept. -/
  once : ∀ r ∈ relations, ∀ p, slotsFor content r.target = [p] → r.occurs = p.occurs
  /-- Several slots have the least of their lower bounds, and no upper one. -/
  several : ∀ r ∈ relations, 1 < (slotsFor content r.target).length →
    r.occurs.max = .unbounded ∧
      ((slotsFor content r.target).map (·.occurs.min)).min? = some r.occurs.min
  /-- Relations are marked that alternate, by their first slots, with others. -/
  marked_iff : ∀ r ∈ relations, r.choice.isSome = true ↔
    ∃ group, alternation? content r.target = some group ∧
      ∃ r' ∈ relations, r'.target ≠ r.target ∧ alternation? content r'.target = some group
  /-- A mark lists the targets of the alternation. -/
  members : ∀ r ∈ relations, r.choice.isSome = true → ∀ group,
    alternation? content r.target = some group →
      r.choiceMembers = (relations.map (·.target)).filter (alternation? content · == some group)
  /-- The marks are a partition into groups of two or more. -/
  groups : ∀ r ∈ relations, r.choice.isSome = true →
    r.choiceMembers = (relations.filter (·.choice == r.choice)).map (·.target) ∧
      2 ≤ r.choiceMembers.length

theorem folds_elementRelations (hplus : ∀ t ∈ content.map (·.1), '+' ∉ t.toList) :
    Folds content (elementRelations content) := by
  have havoid : ∀ group, ∀ t ∈ membersOf content group, '+' ∉ t.toList :=
    fun group t ht => hplus t (mem_membersOf.1 ht).1
  have hmembers : ∀ r ∈ elementRelations content, r.choice.isSome = true → ∃ group,
      alternation? content r.target = some group ∧
      r.choiceMembers = membersOf content group ∧ 1 < (membersOf content group).length := by
    intro r hr hsome
    obtain ⟨mark, hmark⟩ := Option.isSome_iff_exists.1 hsome
    obtain ⟨ht, -, hchoice⟩ := of_mem_elementRelations hr
    obtain ⟨group, halt, rfl, hlength⟩ := exists_group (hchoice ▸ hmark)
    have hne : membersOf content group ≠ [] := List.ne_nil_of_length_pos (by omega)
    exact ⟨group, halt, choiceMembers_of_choice hne (havoid group) hmark, hlength⟩
  constructor
  case targets => exact elementRelations_targets content
  case once =>
    intro r hr p hp
    rw [(of_mem_elementRelations hr).2.1, hp]
    rfl
  case several =>
    intro r hr hlength
    rw [(of_mem_elementRelations hr).2.1]
    exact widest_of_lt hlength
  case marked_iff =>
    intro r hr
    obtain ⟨ht, -, hchoice⟩ := of_mem_elementRelations hr
    rw [hchoice, mark?_isSome_iff ht]
    refine exists_congr fun group => and_congr_right fun _ => ⟨?_, ?_⟩
    · rintro ⟨s, hs, hrest⟩
      obtain ⟨r', hr', rfl⟩ := exists_relation hs
      exact ⟨r', hr', hrest⟩
    · rintro ⟨r', hr', hrest⟩
      exact ⟨r'.target, (of_mem_elementRelations hr').1, hrest⟩
  case members =>
    intro r hr hsome group halt
    obtain ⟨group', halt', hlist, -⟩ := hmembers r hr hsome
    obtain rfl : group' = group := Option.some.inj (halt'.symm.trans halt)
    rw [hlist, elementRelations_targets, membersOf]
  case groups =>
    intro r hr hsome
    obtain ⟨group, halt, hlist, hlength⟩ := hmembers r hr hsome
    refine ⟨?_, hlist ▸ hlength⟩
    rw [hlist, membersOf, ← elementRelations_targets, List.filter_map]
    refine congrArg (List.map _) (List.filter_congr fun r' hr' => Bool.eq_iff_iff.2 ?_)
    obtain ⟨ht, -, hchoice⟩ := of_mem_elementRelations hr'
    rw [beq_iff_eq, hchoice, (of_mem_elementRelations hr).2.2, mark?_eq_iff hplus ht halt hlength]
    exact beq_iff_eq

end

/-! ## Documents -/

theorem Grammar.Reached.mem_patterns {g : Grammar} {e : ElementPattern} (h : g.Reached e) :
    e ∈ patterns g := by
  induction h with
  | start hc =>
    exact mem_patterns_of_content
      (fun _ hc => List.mem_append_left _ (ElementPattern.mem_walkList_of_mem hc)) hc
  | content _ hc ih => exact mem_patterns_of_content (fun _ hc => mem_patterns_child ih hc) hc

/-- **The relations of an element are the fold of its content.**  Take any start
    and definitions whose elements have names without `#` and `+`.  For each
    element pattern that is visited, the child elements of its content have been
    visited too and have got identifiers, and the relations of its entity are
    folded from these, with the patterns under which the child elements occur:
    one relation for each target, with the bounds of its slot, or wider ones if
    it has several, and marked if it shares an alternation with others. -/
theorem relations_fold_content {g : Grammar} (hsharp : ∀ e ∈ patterns g, '#' ∉ e.name.toList)
    (hplus : ∀ e ∈ patterns g, '+' ∉ e.name.toList) {x : ElementPattern} {id : String}
    (hx : (x, id) ∈ g.visits) : ∃ content entity,
      List.Forall₂ (fun c t => (c.1, t.1) ∈ g.visits ∧ c.2 = t.2)
        (contentElements g.definitions x) content ∧
      g.build.1.elements.get? id = some entity ∧ Folds content entity.elementRelations := by
  have hreached : ∀ c p, (c, p) ∈ contentElements g.definitions x → g.Reached c :=
    fun c p hc => (reached_iff.2 ⟨id, hx⟩).content hc
  refine ⟨_, _, List.forall₂_map_right_iff.2 (List.forall₂_same.2 ?_),
    entity_of_visit hsharp hx, folds_elementRelations ?_⟩
  · rintro ⟨c, p⟩ hc
    obtain ⟨j, hj⟩ := reached_iff.1 (hreached c p hc)
    dsimp only
    rw [(traced_finished g).received c j hj]
    exact ⟨hj, rfl⟩
  · intro t ht
    rw [List.map_map] at ht
    obtain ⟨c, hc, rfl⟩ := List.mem_map.1 ht
    exact identifier_avoids (by decide) hplus (hreached c.1 c.2 hc).mem_patterns

/-- An order has a number, a payment by card or in cash, several items, and notes
    before and after them.  There may also be a card for the buyer. -/
def orderPattern : ElementPattern where
  name := "order"
  elements := [
    { name := "number" },
    { name := "card", pattern := { choice := true, group := some 1 } },
    { name := "cash", pattern := { choice := true, group := some 1 } },
    { name := "note", pattern := { optional := true } },
    { name := "item", pattern := { oneOrMore := true } },
    { name := "note" },
    { name := "card", pattern := { optional := true } }]

def ordersGrammar : Grammar where
  start := { elements := [orderPattern] }

theorem order_relations_folded :
    (∀ e ∈ patterns ordersGrammar, '#' ∉ e.name.toList) ∧
    (∀ e ∈ patterns ordersGrammar, '+' ∉ e.name.toList) ∧
    ∃ id content entity, (orderPattern, id) ∈ ordersGrammar.visits ∧
      List.Forall₂ (fun c t => (c.1, t.1) ∈ ordersGrammar.visits ∧ c.2 = t.2)
        (contentElements ordersGrammar.definitions orderPattern) content ∧
      ordersGrammar.build.1.elements.get? id = some entity ∧
      Folds content entity.elementRelations := by
  have hsharp : ∀ e ∈ patterns ordersGrammar, '#' ∉ e.name.toList := by decide
  have hplus : ∀ e ∈ patterns ordersGrammar, '+' ∉ e.name.toList := by decide
  have horder : ordersGrammar.Reached orderPattern := .start (p := {}) (by decide)
  obtain ⟨id, hid⟩ := reached_iff.1 horder
  obtain ⟨content, entity, hfolded⟩ := relations_fold_content hsharp hplus hid
  exact ⟨hsharp, hplus, id, content, entity, hid, hfolded⟩

end Bindery.Schema
