/-
  The relations for a content, target by target.

  One pass over the content of an element gathers relations, widens the bounds
  of those that recur and collects alternations; the alternations are marked
  afterwards.  Here is what comes out, without the pass.

  * `slotsFor`, `widest`: the slots of a target, and bounds that hold them;
  * `alternation?`, `membersOf`: the alternation that the first slot of a target
    belongs to, and the targets that an alternation has;
  * `Folding.Gathers`, `gathers_foldl`: what the pass has gathered of a part of
    the content;
  * `mark?`, `elementRelations_eq`: the relations, target by target.
-/
import Mathlib.Data.List.Induction
import Mathlib.Data.List.Nodup
import Bindery.Proofs.Document.Entity

namespace Bindery.Schema

/-! ## Slots and alternations -/

/-- The patterns under which `t` occurs in the content. -/
def slotsFor (content : List (String × Pattern)) (t : String) : List Pattern :=
  (content.filter (·.1 == t)).map (·.2)

/-- Bounds wide enough for all slots. -/
def widest : List Pattern → Occurs
  | [] => {}
  | p :: ps => ps.foldl (fun o q => o.widen q.occurs) p.occurs

/-- The alternation that the first slot of `t` belongs to. -/
def alternation? (content : List (String × Pattern)) (t : String) : Option (Option Nat) :=
  ((content.lookup t).filter (·.choice)).map (·.group)

/-- The targets whose first slots belong to `group`. -/
def membersOf (content : List (String × Pattern)) (group : Option Nat) : List String :=
  (distinct (content.map (·.1))).filter fun s => alternation? content s == some group

/-- The targets that share the alternation of `t`. -/
def alternatives (content : List (String × Pattern)) (t : String) : List String :=
  ((alternation? content t).map (membersOf content)).getD []

section
variable {content : List (String × Pattern)} {t : String} {p : Pattern}

theorem mem_slotsFor : p ∈ slotsFor content t ↔ (t, p) ∈ content := by
  rw [slotsFor, List.mem_map]
  constructor
  · rintro ⟨c, hc, rfl⟩
    obtain ⟨hmem, ht⟩ := List.mem_filter.1 hc
    rwa [← beq_iff_eq.1 ht]
  · exact fun h => ⟨(t, p), List.mem_filter.2 ⟨h, beq_self_eq_true t⟩, rfl⟩

theorem slotsFor_append_self :
    slotsFor (content ++ [(t, p)]) t = slotsFor content t ++ [p] := by
  simp [slotsFor]

theorem slotsFor_append_of_ne {s : String} (h : s ≠ t) :
    slotsFor (content ++ [(t, p)]) s = slotsFor content s := by
  simp [slotsFor, h.symm]

theorem slotsFor_ne_nil (h : t ∈ content.map (·.1)) : slotsFor content t ≠ [] := by
  obtain ⟨c, hc, rfl⟩ := List.mem_map.1 h
  exact List.ne_nil_of_mem (mem_slotsFor.2 hc)

theorem slotsFor_new (h : t ∉ content.map (·.1)) : slotsFor content t = [] := by
  rw [slotsFor, List.map_eq_nil_iff, List.filter_eq_nil_iff]
  intro c hc heq
  exact h (List.mem_map.2 ⟨c, hc, by simpa using heq⟩)

theorem widest_append {ps : List Pattern} (h : ps ≠ []) (q : Pattern) :
    widest (ps ++ [q]) = (widest ps).widen q.occurs := by
  cases ps with
  | nil => exact absurd rfl h
  | cons p ps => simp [widest, List.foldl_append]

theorem widest_of_lt {ps : List Pattern} (h : 1 < ps.length) :
    (widest ps).max = .unbounded ∧ (ps.map (·.occurs.min)).min? = some (widest ps).min := by
  have hmin : ∀ (ps : List Pattern) (o : Occurs),
      (ps.foldl (fun o q => o.widen q.occurs) o).min = (ps.map (·.occurs.min)).foldl min o.min := by
    intro ps
    induction ps with
    | nil => exact fun o => rfl
    | cons p ps ih => exact fun o => ih _
  cases ps with
  | nil => cases h
  | cons p ps =>
    constructor
    · cases ps using List.reverseRecOn with
      | nil => exact absurd h (Nat.lt_irrefl 1)
      | append_singleton ps q => simp [widest, List.foldl_append, Occurs.widen]
    · rw [List.map_cons, List.min?_cons', widest, hmin]

theorem lookup_new (h : t ∉ content.map (·.1)) : content.lookup t = none :=
  List.lookup_eq_none_iff.2 fun c hc =>
    bne_iff_ne.2 fun heq => h (List.mem_map.2 ⟨c, hc, heq.symm⟩)

theorem alternation?_append_of_mem (h : t ∈ content.map (·.1)) (rest : List (String × Pattern)) :
    alternation? (content ++ rest) t = alternation? content t := by
  obtain ⟨c, hc, rfl⟩ := List.mem_map.1 h
  have hfound : content.lookup c.1 ≠ none := fun hnone =>
    absurd (beq_self_eq_true c.1) (by simpa using List.lookup_eq_none_iff.1 hnone c hc)
  obtain ⟨q, hq⟩ := Option.ne_none_iff_exists'.1 hfound
  rw [alternation?, alternation?, List.lookup_append, hq]
  rfl

theorem alternation?_append_of_new (h : t ∉ content.map (·.1)) :
    alternation? (content ++ [(t, p)]) t = if p.choice then some p.group else none := by
  rw [alternation?, List.lookup_append, lookup_new h]
  cases hp : p.choice <;> simp [hp, Option.filter]

theorem distinct_append (names : List String) (n : String) :
    distinct (names ++ [n]) = if n ∈ names then distinct names else distinct names ++ [n] := by
  have hstep : distinct (names ++ [n]) =
      if n ∈ distinct names then distinct names else distinct names ++ [n] := by
    rw [distinct, List.foldl_append]
    rfl
  rw [hstep]
  simp only [mem_distinct]

theorem mem_membersOf {group : Option Nat} :
    t ∈ membersOf content group ↔ t ∈ content.map (·.1) ∧ alternation? content t = some group := by
  rw [membersOf, List.mem_filter, mem_distinct, beq_iff_eq]

theorem membersOf_append_of_mem (h : t ∈ content.map (·.1)) (group : Option Nat) :
    membersOf (content ++ [(t, p)]) group = membersOf content group := by
  rw [membersOf, membersOf, List.map_append, List.map_singleton, distinct_append, if_pos h]
  refine List.filter_congr fun s hs => ?_
  rw [alternation?_append_of_mem (mem_distinct.1 hs)]

theorem membersOf_append_of_new (h : t ∉ content.map (·.1)) (group : Option Nat) :
    membersOf (content ++ [(t, p)]) group =
      membersOf content group ++ if p.choice ∧ p.group = group then [t] else [] := by
  rw [membersOf, List.map_append, List.map_singleton, distinct_append, if_neg h,
    List.filter_append]
  congr 1
  · refine List.filter_congr fun s hs => ?_
    rw [alternation?_append_of_mem (mem_distinct.1 hs)]
  · cases hp : p.choice <;> by_cases hg : p.group = group <;>
      simp [alternation?_append_of_new h, hp, hg]

end

/-! ## The pass -/

theorem addMember_map {group : Option Nat} {t : String} {members members' : Option Nat → List String}
    (hself : members' group = members group ++ [t])
    (hother : ∀ g, g ≠ group → members' g = members g) {groups : List (Option Nat)}
    (hnodup : groups.Nodup) (hnew : group ∉ groups → members group = []) :
    addMember group t (groups.map fun g => (g, members g)) =
      (if group ∈ groups then groups else groups ++ [group]).map fun g => (g, members' g) := by
  induction groups with
  | nil =>
    rw [hnew List.not_mem_nil] at hself
    simp [addMember, hself]
  | cons g groups ih =>
    obtain ⟨hg, hnodup⟩ := List.nodup_cons.1 hnodup
    rw [List.map_cons, addMember]
    by_cases heq : g = group
    · subst heq
      rw [if_pos rfl, if_pos List.mem_cons_self, List.map_cons, hself]
      congr 1
      exact List.map_congr_left fun g' hg' => by rw [hother g' fun h => hg (h ▸ hg')]
    · have hmem : group ∈ g :: groups ↔ group ∈ groups := by
        simp [Ne.symm heq]
      rw [if_neg heq, ih hnodup fun h => hnew (hmem.not.2 h), ← hother g heq]
      simp only [hmem]
      split <;> rfl

/-- What is gathered of the content: a relation for each target, as yet without
    marks, and the members of each alternation. -/
structure Folding.Gathers (f : Folding) (content : List (String × Pattern)) : Prop where
  relations : f.relations = (distinct (content.map (·.1))).map fun t =>
    { target := t, occurs := widest (slotsFor content t) }
  choices : ∃ groups : List (Option Nat), groups.Nodup ∧
    (∀ group, group ∉ groups → membersOf content group = []) ∧
    f.choices = groups.map fun group => (group, membersOf content group)

section
variable {content : List (String × Pattern)} {f : Folding} {t : String} {p : Pattern}

theorem Folding.Gathers.any_eq_true (h : f.Gathers content) :
    f.relations.any (·.target == t) = true ↔ t ∈ content.map (·.1) := by
  rw [h.relations, ← mem_distinct]
  simp

theorem Folding.Gathers.add_of_mem (h : f.Gathers content) (ht : t ∈ content.map (·.1)) :
    (f.add t p).Gathers (content ++ [(t, p)]) := by
  rw [Folding.add, if_pos (h.any_eq_true.2 ht)]
  constructor
  case relations =>
    rw [List.map_append, List.map_singleton, distinct_append, if_pos ht]
    dsimp only
    rw [h.relations, List.map_map]
    refine List.map_congr_left fun s hs => ?_
    by_cases hst : s = t
    · subst hst
      simp [slotsFor_append_self, widest_append (slotsFor_ne_nil ht)]
    · simp [hst, slotsFor_append_of_ne hst]
  case choices =>
    simp only [membersOf_append_of_mem ht]
    exact h.choices

theorem Folding.Gathers.add_of_new (h : f.Gathers content) (ht : t ∉ content.map (·.1)) :
    (f.add t p).Gathers (content ++ [(t, p)]) := by
  rw [Folding.add, if_neg fun hany => ht (h.any_eq_true.1 hany)]
  constructor
  case relations =>
    rw [List.map_append, List.map_singleton, distinct_append, if_neg ht, List.map_append,
      h.relations, List.map_singleton, slotsFor_append_self, slotsFor_new ht]
    refine congrArg (· ++ _) (List.map_congr_left fun s hs => ?_)
    have hne : s ≠ t := fun heq => ht (heq ▸ mem_distinct.1 hs)
    rw [slotsFor_append_of_ne hne]
  case choices =>
    obtain ⟨groups, hnodup, hnew, hchoices⟩ := h.choices
    cases hp : p.choice with
    | false =>
      refine ⟨groups, hnodup, ?_, ?_⟩ <;> simpa [membersOf_append_of_new ht, hp] using by assumption
    | true =>
      refine ⟨if p.group ∈ groups then groups else groups ++ [p.group], ?_, ?_, ?_⟩
      · split
        · exact hnodup
        · rename_i hg
          exact List.nodup_append.2 ⟨hnodup, by simp, by
            rintro a ha b hb rfl
            exact hg (List.mem_singleton.1 hb ▸ ha)⟩
      · intro group hgroup
        have hne : p.group ≠ group := by
          rintro rfl
          split at hgroup <;> simp_all
        have hmem : group ∉ groups := by
          split at hgroup <;> simp_all
        rw [membersOf_append_of_new ht, hnew group hmem, if_neg fun hboth => hne hboth.2]
        rfl
      · dsimp only
        rw [hchoices]
        refine addMember_map ?_ ?_ hnodup (hnew p.group)
        · rw [membersOf_append_of_new ht, if_pos ⟨hp, rfl⟩]
        · intro g hg
          rw [membersOf_append_of_new ht, if_neg fun hboth => hg hboth.2.symm, List.append_nil]

theorem gathers_foldl (content : List (String × Pattern)) :
    (content.foldl (fun f c => f.add c.1 c.2) ({} : Folding)).Gathers content := by
  induction content using List.reverseRecOn with
  | nil => exact ⟨rfl, [], .nil, fun _ _ => rfl, rfl⟩
  | append_singleton content c ih =>
    rw [List.foldl_append]
    by_cases hc : c.1 ∈ content.map (·.1)
    · exact ih.add_of_mem hc
    · exact ih.add_of_new hc

end

/-! ## Marks -/

/-- A relation, marked with an alternation of several that it belongs to. -/
def Relation.marked (r : Relation) (members : List String) : Relation :=
  if 1 < members.length ∧ r.target ∈ members then
    { r with choice := some ("+".intercalate members) }
  else r

section
variable {r : Relation}

theorem Relation.marked_target (members : List String) : (r.marked members).target = r.target := by
  rw [Relation.marked]
  split <;> rfl

theorem Relation.foldl_marked_of_not_mem {choices : List (List String)}
    (h : ∀ members ∈ choices, r.target ∉ members) : choices.foldl Relation.marked r = r := by
  induction choices with
  | nil => rfl
  | cons members choices ih =>
    obtain ⟨hfirst, hrest⟩ := List.forall_mem_cons.1 h
    rw [List.foldl_cons, Relation.marked, if_neg fun hboth => hfirst hboth.2]
    exact ih hrest

theorem Folding.tagged_eq (f : Folding) :
    f.tagged = f.relations.map fun r => (f.choices.map (·.2)).foldl Relation.marked r := by
  have hfold : ∀ (choices : List (Option Nat × List String)) (relations : List Relation),
      choices.foldl (fun relations choice =>
        if 1 < choice.2.length then
          relations.map fun r =>
            if r.target ∈ choice.2 then { r with choice := some ("+".intercalate choice.2) } else r
        else relations) relations =
      relations.map fun r => (choices.map (·.2)).foldl Relation.marked r := by
    intro choices
    induction choices with
    | nil => exact fun relations => (List.map_id relations).symm
    | cons first rest ih =>
      intro relations
      rw [List.foldl_cons, ih, List.map_cons]
      simp only [List.foldl_cons]
      by_cases hlength : 1 < first.2.length
      · rw [if_pos hlength, List.map_map]
        simp only [Function.comp_def, Relation.marked, hlength, true_and]
      · rw [if_neg hlength]
        simp only [Relation.marked, hlength, false_and, if_false]
  exact hfold f.choices f.relations

end

section
variable {content : List (String × Pattern)} {t : String}

/-- The mark of a target: the targets that share its alternation, if there are
    several. -/
def mark? (content : List (String × Pattern)) (t : String) : Option String :=
  if 1 < (alternatives content t).length then some ("+".intercalate (alternatives content t))
  else none

theorem alternatives_eq {group : Option Nat} (h : alternation? content t = some group) :
    alternatives content t = membersOf content group := by
  rw [alternatives, h]
  rfl

theorem exists_group {mark : String} (h : mark? content t = some mark) :
    ∃ group, alternation? content t = some group ∧
      mark = "+".intercalate (membersOf content group) ∧ 1 < (membersOf content group).length := by
  cases halt : alternation? content t with
  | none =>
    rw [mark?, alternatives, halt] at h
    cases h
  | some group =>
    rw [mark?, alternatives_eq halt] at h
    split at h
    · rename_i hlength
      exact ⟨group, rfl, (Option.some.inj h).symm, hlength⟩
    · cases h

theorem foldl_marked_members {groups : List (Option Nat)} (hnodup : groups.Nodup)
    (hnew : ∀ group, group ∉ groups → membersOf content group = []) {r : Relation}
    (ht : r.target ∈ content.map (·.1)) (hr : r.choice = none) :
    (groups.map (membersOf content)).foldl Relation.marked r =
      { r with choice := mark? content r.target } := by
  have hout : ∀ {groups : List (Option Nat)},
      (∀ group ∈ groups, alternation? content r.target ≠ some group) →
      ∀ members ∈ groups.map (membersOf content), r.target ∉ members := by
    intro groups hgroups members hmembers hmem
    obtain ⟨group, hgroup, rfl⟩ := List.mem_map.1 hmembers
    exact hgroups group hgroup (mem_membersOf.1 hmem).2
  cases halt : alternation? content r.target with
  | none =>
    rw [Relation.foldl_marked_of_not_mem (hout fun group _ h => by simp [halt] at h)]
    simp [mark?, alternatives, halt, ← hr]
  | some group =>
    have hmember : r.target ∈ membersOf content group := mem_membersOf.2 ⟨ht, halt⟩
    have hgroup : group ∈ groups := by
      by_contra hgroup
      rw [hnew group hgroup] at hmember
      cases hmember
    -- the groups before and after are other ones
    obtain ⟨before, after, rfl⟩ := List.append_of_mem hgroup
    have hother : ∀ g ∈ before ++ after, alternation? content r.target ≠ some g := by
      rintro g hg heq
      obtain rfl : group = g := Option.some.inj (halt ▸ heq)
      exact (List.nodup_cons.1 (List.nodup_middle.1 hnodup)).1 hg
    have hbefore := hout fun g hg => hother g (List.mem_append_left _ hg)
    have hafter := hout fun g hg => hother g (List.mem_append_right _ hg)
    rw [List.map_append, List.map_cons, List.foldl_append, List.foldl_cons,
      Relation.foldl_marked_of_not_mem hbefore,
      Relation.foldl_marked_of_not_mem (by rwa [Relation.marked_target])]
    rw [Relation.marked, mark?, alternatives_eq halt]
    by_cases hlength : 1 < (membersOf content group).length
    · rw [if_pos ⟨hlength, hmember⟩, if_pos hlength]
    · rw [if_neg fun hboth => hlength hboth.1, if_neg hlength, ← hr]

theorem elementRelations_eq (content : List (String × Pattern)) :
    elementRelations content = (distinct (content.map (·.1))).map fun t =>
      { target := t, occurs := widest (slotsFor content t), choice := mark? content t } := by
  obtain ⟨hrelations, groups, hnodup, hnew, hchoices⟩ := gathers_foldl content
  rw [elementRelations, Folding.tagged_eq]
  dsimp only
  rw [hrelations, hchoices, List.map_map, List.map_map]
  refine List.map_congr_left fun t ht => ?_
  exact foldl_marked_members hnodup hnew (mem_distinct.1 ht) rfl

theorem of_mem_elementRelations {r : Relation} (h : r ∈ elementRelations content) :
    r.target ∈ content.map (·.1) ∧ r.occurs = widest (slotsFor content r.target) ∧
      r.choice = mark? content r.target := by
  rw [elementRelations_eq] at h
  obtain ⟨t, ht, rfl⟩ := List.mem_map.1 h
  exact ⟨mem_distinct.1 ht, rfl, rfl⟩

theorem exists_relation (h : t ∈ content.map (·.1)) :
    ∃ r ∈ elementRelations content, r.target = t := by
  rw [← mem_distinct, ← elementRelations_targets] at h
  exact List.mem_map.1 h

end

end Bindery.Schema
