/-
  What the relations of an element tell of its content.

  The content of an element is folded into relations child by child: a second
  slot for an element widens its bounds, and the alternation of an element is
  that of its first slot.

  * `Summary`, `summary_of_mem`: the bounds of a relation and the slots of its
    target;
  * `exists_alternation`: relations with the same mark belong to one
    alternation, if none is a list and no identifier contains `+`.
-/
import Bindery.Proofs.Document.Relations
import Bindery.Proofs.Occurrence.Marks

namespace Bindery.Schema

/-! ## Bounds -/

theorem Pattern.min_occurs (p : Pattern) :
    p.occurs.min = if p.oneOrMore || !(p.zeroOrMore || p.optional) then 1 else 0 := by
  rcases p with ⟨o, z, n, c, g⟩
  cases o <;> cases z <;> cases n <;> rfl

theorem Pattern.max_occurs (p : Pattern) :
    p.occurs.max = if p.repeats then .unbounded else .count 1 := by
  rcases p with ⟨o, z, n, c, g⟩
  cases o <;> cases z <;> cases n <;> rfl

theorem Pattern.Under.min_eq_zero_iff {ws : List Wrapper} {q : Pattern}
    (h : Pattern.Under {} ws q) : q.occurs.min ≤ 1 ∧ (q.occurs.min = 0 ↔
      .oneOrMore ∉ ws ∧ (.optional ∈ ws ∨ .zeroOrMore ∈ ws)) := by
  obtain ⟨hoptional, hzeroOrMore, honeOrMore⟩ := h
  rw [Pattern.min_occurs, hoptional, hzeroOrMore, honeOrMore]
  by_cases hone : .oneOrMore ∈ ws <;> by_cases hzero : .zeroOrMore ∈ ws <;>
    by_cases hopt : .optional ∈ ws <;> simp [hone, hzero, hopt]

/-- Whether the bounds of a relation are those of the slots of its target. -/
structure Summary (content : List (String × Pattern)) (r : Relation) : Prop where
  min_le : ∀ q, (r.target, q) ∈ content → r.occurs.min ≤ q.occurs.min
  attained : ∃ q, (r.target, q) ∈ content ∧ q.occurs.min = r.occurs.min
  /-- Unless it is unbounded, there is one slot. -/
  once : r.occurs.max ≠ .unbounded →
    ∃ q, content.filter (·.1 == r.target) = [(r.target, q)] ∧ r.occurs.max = q.occurs.max

section
variable {content : List (String × Pattern)} {t : String} {r : Relation}

theorem slotsFor_eq_singleton {q : Pattern} (h : slotsFor content t = [q]) :
    content.filter (·.1 == t) = [(t, q)] := by
  obtain ⟨c, hc, rfl⟩ := List.map_eq_singleton_iff.1 h
  have hmem : c ∈ content.filter (·.1 == t) := hc ▸ List.mem_singleton_self c
  rw [hc, ← beq_iff_eq.1 (List.mem_filter.1 hmem).2]

theorem summary_of_mem (h : r ∈ elementRelations content) : Summary content r := by
  obtain ⟨ht, ho, -⟩ := of_mem_elementRelations h
  have hslots : (∃ q, slotsFor content r.target = [q]) ∨ 1 < (slotsFor content r.target).length := by
    have hpos := List.length_pos_of_ne_nil (slotsFor_ne_nil ht)
    rw [← List.length_eq_one_iff]
    omega
  rcases hslots with ⟨q, hq⟩ | hlength
  · have hbounds : r.occurs = q.occurs := by
      rw [ho, hq]
      rfl
    constructor
    case min_le =>
      intro q' hq'
      rw [← mem_slotsFor, hq, List.mem_singleton] at hq'
      rw [hbounds, hq']
    case attained => exact ⟨q, mem_slotsFor.1 (hq ▸ List.mem_singleton_self q), by rw [hbounds]⟩
    case once => exact fun _ => ⟨q, slotsFor_eq_singleton hq, by rw [hbounds]⟩
  · obtain ⟨hmax, hmin⟩ := widest_of_lt hlength
    rw [← ho] at hmax hmin
    constructor
    case min_le =>
      intro q hq
      exact (List.min?_eq_some_iff.1 hmin).2 _ (List.mem_map_of_mem (mem_slotsFor.2 hq))
    case attained =>
      obtain ⟨q, hq, heq⟩ := List.mem_map.1 (List.min?_eq_some_iff.1 hmin).1
      exact ⟨q, mem_slotsFor.1 hq, heq⟩
    case once => exact fun hne => absurd hmax hne

/-! ## Alternations -/

theorem slot_of_mem_membersOf {group : Option Nat} (h : t ∈ membersOf content group) :
    ∃ q, (t, q) ∈ content ∧ q.choice = true ∧ q.group = group := by
  obtain ⟨q, hq, hgroup⟩ := Option.map_eq_some_iff.1 (mem_membersOf.1 h).2
  obtain ⟨hlookup, hchoice⟩ := Option.filter_eq_some_iff.1 hq
  obtain ⟨before, after, rfl, -⟩ := List.lookup_eq_some_iff.1 hlookup
  exact ⟨q, List.mem_append_right _ List.mem_cons_self, hchoice, hgroup⟩

theorem exists_members (h : r ∈ elementRelations content) {mark : String}
    (hmark : r.choice = some mark) : ∃ group members, mark = "+".intercalate members ∧
      r.target ∈ members ∧
      ∀ t ∈ members, ∃ q, (t, q) ∈ content ∧ q.choice = true ∧ q.group = group := by
  obtain ⟨ht, -, hchoice⟩ := of_mem_elementRelations h
  obtain ⟨group, halt, rfl, -⟩ := exists_group (hchoice ▸ hmark)
  exact ⟨group, membersOf content group, rfl, mem_membersOf.2 ⟨ht, halt⟩,
    fun t ht => slot_of_mem_membersOf ht⟩

theorem splitOn_joined {members : List String} (hne : members ≠ [])
    (hplus : ∀ t ∈ members, '+' ∉ t.toList) :
    List.splitOn '+' ("+".intercalate members).toList = members.map String.toList := by
  rw [String.toList_intercalate]
  refine List.splitOn_intercalate '+' (fun l hl => ?_) (by simpa using hne)
  obtain ⟨t, ht, rfl⟩ := List.mem_map.1 hl
  exact hplus t ht

/-- Names without `+` can be told from those joined with them. -/
theorem intercalate_inj {members members' : List String} (hne : members ≠ [])
    (hne' : members' ≠ []) (hplus : ∀ t ∈ members, '+' ∉ t.toList)
    (hplus' : ∀ t ∈ members', '+' ∉ t.toList)
    (h : "+".intercalate members = "+".intercalate members') : members = members' := by
  have hlists : members.map String.toList = members'.map String.toList := by
    rw [← splitOn_joined hne hplus, h, splitOn_joined hne' hplus']
  exact List.map_injective_iff.2 (fun _ _ => String.toList_inj.1) hlists

theorem Summary.slot_of_not_isList (h : Summary content r) (hlist : r.isList = false) :
    ∃ q, content.filter (·.1 == r.target) = [(r.target, q)] ∧ q.repeats = false := by
  have hmax : r.occurs.max ≠ .unbounded := by
    intro hmax
    rw [Relation.isList, Occurs.isList, hmax] at hlist
    cases hlist
  obtain ⟨q, hq, heq⟩ := h.once hmax
  refine ⟨q, hq, ?_⟩
  rw [heq, Pattern.max_occurs] at hmax
  by_contra hrepeats
  rw [if_pos (by simpa using hrepeats)] at hmax
  exact hmax rfl

theorem exists_alternation (hplus : ∀ t ∈ content.map (·.1), '+' ∉ t.toList) {mark : String}
    (hlist : ∀ r ∈ elementRelations content, r.choice = some mark → r.isList = false) :
    ∃ group, ∀ r ∈ elementRelations content, r.choice = some mark →
      ∀ q, (r.target, q) ∈ content → q.choice = true ∧ q.group = group ∧ q.repeats = false := by
  by_cases hmarked : ∃ r ∈ elementRelations content, r.choice = some mark
  · obtain ⟨r₀, hr₀, hmark₀⟩ := hmarked
    obtain ⟨group, members₀, rfl, ht₀, hslots₀⟩ := exists_members hr₀ hmark₀
    refine ⟨group, fun r hr hmark q hq => ?_⟩
    obtain ⟨_, members, hjoined, ht, hslots⟩ := exists_members hr hmark
    have havoid : ∀ {members : List String} {group : Option Nat},
        (∀ t ∈ members, ∃ q, (t, q) ∈ content ∧ q.choice = true ∧ q.group = group) →
        ∀ t ∈ members, '+' ∉ t.toList := by
      intro members group hslots t ht
      obtain ⟨q, hq, -⟩ := hslots t ht
      exact hplus t (List.mem_map_of_mem (f := (·.1)) hq)
    have heq : members₀ = members := intercalate_inj (List.ne_nil_of_mem ht₀)
      (List.ne_nil_of_mem ht) (havoid hslots₀) (havoid hslots) hjoined
    subst heq
    -- the one slot of the target is the one that is in the alternation
    obtain ⟨q₁, hfilter, hrepeats⟩ :=
      (summary_of_mem hr).slot_of_not_isList (hlist r hr hmark)
    have honly : ∀ q, (r.target, q) ∈ content → q = q₁ := by
      intro q hq
      have hmem : (r.target, q) ∈ content.filter (·.1 == r.target) :=
        List.mem_filter.2 ⟨hq, beq_self_eq_true _⟩
      rw [hfilter] at hmem
      exact (Prod.mk.inj (List.mem_singleton.1 hmem)).2
    obtain ⟨q₂, hq₂, hchoice, hgroup⟩ := hslots₀ r.target ht
    rw [honly q₂ hq₂] at hchoice hgroup
    rw [honly q hq]
    exact ⟨hchoice, hgroup, hrepeats⟩
  · exact ⟨none, fun r hr hmark => absurd ⟨r, hr, hmark⟩ hmarked⟩

end

end Bindery.Schema
