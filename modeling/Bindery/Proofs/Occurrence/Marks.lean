/-
  The modifiers of the elements in a content model.

  An element is marked with the constructs that it stands in, without their
  order, and with the number of the outermost choice among them.  `Marks` says
  so of all elements of a model; numbers only grow from left to right, also by
  choices within the elements.

  * `Marks.exists_of_holds`, `Marks.exists_holds`: the marks tell the constructs that
    an element stands in;
  * `Marks.mostAs_le`: elements that are not marked as repeated are in a sequence
    as often as they are in the model;
  * `Marks.most_le_one`: of elements that are marked with one choice and not as
    repeated, a sequence holds no two, if the choice does not.
-/
import Bindery.Schema.Occurs
import Bindery.Proofs.Occurrence.Model

namespace Bindery.Schema

/-- Whether a repetition is among the modifiers. -/
def Pattern.repeats (p : Pattern) : Bool := p.zeroOrMore || p.oneOrMore

/-- The modifiers of what a construct holds that stands under `p`, after `k`
    choices. -/
def Wrapper.mark (k : Nat) (p : Pattern) : Wrapper → Pattern
  | optional => { p with optional := true }
  | zeroOrMore => { p with zeroOrMore := true }
  | oneOrMore => { p with oneOrMore := true }
  | choice => p.inChoice (k + 1)
  | group => p

/-- Whether the modifiers `q` are those of `p` and of the constructs `ws`. -/
def Pattern.Under (p : Pattern) (ws : List Wrapper) (q : Pattern) : Prop :=
  q.optional = (p.optional || decide (.optional ∈ ws)) ∧
    q.zeroOrMore = (p.zeroOrMore || decide (.zeroOrMore ∈ ws)) ∧
    q.oneOrMore = (p.oneOrMore || decide (.oneOrMore ∈ ws))

theorem Pattern.under_nil (p : Pattern) : p.Under [] p := by simp [Under]

theorem Pattern.Under.wrap {k : Nat} {p q : Pattern} {w : Wrapper} {ws : List Wrapper}
    (h : (w.mark k p).Under ws q) : p.Under (w :: ws) q := by
  obtain ⟨ho, hz, hone⟩ := h
  rw [Pattern.Under, ho, hz, hone]
  cases w <;> simp [Wrapper.mark, Pattern.inChoice]

def Wrapper.count (k : Nat) : Wrapper → Nat
  | choice => k + 1
  | optional | zeroOrMore | oneOrMore | group => k

variable {α : Type}

/-- **The elements of a model with their modifiers**, for a model under `p`, with
    `k` choices before and `k'` afterwards. -/
inductive Marks : Nat → Pattern → ContentModel α → List (α × Pattern) → Nat → Prop
  | nil {k p} : Marks k p .nil [] k
  | element {k k₁ k' p a rest qs} : k ≤ k₁ → Marks k₁ p rest qs k' →
      Marks k p (.element a rest) ((a, p) :: qs) k'
  | empty {k k' p rest qs} : Marks k p rest qs k' → Marks k p (.empty rest) qs k'
  | wrapped {k k₁ k' p w inner rest qs₁ qs₂} : Marks (w.count k) (w.mark k p) inner qs₁ k₁ →
      Marks k₁ p rest qs₂ k' → Marks k p (.wrapped w inner rest) (qs₁ ++ qs₂) k'

namespace Wrapper

theorem le_count (k : Nat) (w : Wrapper) : k ≤ w.count k := by
  cases w <;> simp [count]

theorem mark_repeats (k : Nat) (p : Pattern) (w : Wrapper) :
    (w.mark k p).repeats = (w.repeats || p.repeats) := by
  cases w <;> simp [mark, repeats, Pattern.repeats, Pattern.inChoice]

theorem mark_group {p : Pattern} {n : Nat} (h : p.group = some n) (k : Nat) (w : Wrapper) :
    (w.mark k p).group = some n := by
  cases w <;> simp [mark, Pattern.inChoice, h]

theorem mark_group_of_ne {p : Pattern} (h : p.group = none) (k : Nat) {w : Wrapper}
    (hw : w ≠ .choice) : (w.mark k p).group = none := by
  cases w with
  | choice => exact absurd rfl hw
  | optional | zeroOrMore | oneOrMore | group => exact h

theorem mark_alternates {p : Pattern} (h : p.choice = true → p.group.isSome = true) (k : Nat)
    (w : Wrapper) : (w.mark k p).choice = true → (w.mark k p).group.isSome = true := by
  cases w with
  | choice =>
    intro _
    simp only [mark, Pattern.inChoice]
    cases p.group <;> rfl
  | optional | zeroOrMore | oneOrMore | group => exact h

end Wrapper

namespace Marks

variable {k k' : Nat} {p : Pattern} {m : ContentModel α} {qs : List (α × Pattern)}

theorem labels (h : Marks k p m qs k') : qs.map (·.1) = m.labels := by
  induction h with
  | nil => rfl
  | element _ _ ih => rw [List.map_cons, ih, ContentModel.labels]
  | empty _ ih => exact ih
  | wrapped _ _ ihInner ihRest => rw [List.map_append, ihInner, ihRest, ContentModel.labels]

theorem le (h : Marks k p m qs k') : k ≤ k' := by
  induction h with
  | nil => exact Nat.le_refl _
  | element hle _ ih => exact Nat.le_trans hle ih
  | empty _ ih => exact ih
  | @wrapped k _ _ _ w _ _ _ _ _ _ ihInner ihRest =>
    exact (w.le_count k).trans (ihInner.trans ihRest)

theorem forall_marks {Q : Pattern → Prop} (hkeep : ∀ k p w, Q p → Q (Wrapper.mark k p w))
    (h : Marks k p m qs k') (hp : Q p) : ∀ q ∈ qs, Q q.2 := by
  induction h with
  | nil => exact List.forall_mem_nil _
  | element _ _ ih => exact List.forall_mem_cons.2 ⟨hp, ih hp⟩
  | empty _ ih => exact ih hp
  | wrapped _ _ ihInner ihRest =>
    exact List.forall_mem_append.2 ⟨ihInner (hkeep _ _ _ hp), ihRest hp⟩

theorem repeats (h : Marks k p m qs k') (hp : p.repeats = true) :
    ∀ q ∈ qs, q.2.repeats = true :=
  h.forall_marks (Q := fun p => p.repeats = true)
    (fun k p w hp => by rw [Wrapper.mark_repeats, hp, Bool.or_true]) hp

theorem group_eq (h : Marks k p m qs k') {n : Nat} (hp : p.group = some n) :
    ∀ q ∈ qs, q.2.group = some n :=
  h.forall_marks (Q := fun p => p.group = some n) (fun k _ w hp => w.mark_group hp k) hp

theorem alternates (h : Marks k p m qs k') (hp : p.choice = true → p.group.isSome = true) :
    ∀ q ∈ qs, q.2.choice = true → q.2.group.isSome = true :=
  h.forall_marks (Q := fun p => p.choice = true → p.group.isSome = true)
    (fun k _ w hp => w.mark_alternates hp k) hp

theorem group_lt (h : Marks k p m qs k') (hp : p.group = none) {n : Nat} :
    ∀ q ∈ qs, q.2.group = some n → k < n ∧ n ≤ k' := by
  induction h with
  | nil => exact List.forall_mem_nil _
  | element hle _ ih =>
    refine List.forall_mem_cons.2 ⟨fun hn => ?_, fun q hq hn => ?_⟩
    · rw [hp] at hn
      cases hn
    · exact ⟨Nat.lt_of_le_of_lt hle (ih hp q hq hn).1, (ih hp q hq hn).2⟩
  | empty _ ih => exact ih hp
  | @wrapped k k₁ k' p w inner rest qs₁ qs₂ hinner hrest ihInner ihRest =>
    have hcount := w.le_count k
    have hle := hinner.le
    have hle' := hrest.le
    refine List.forall_mem_append.2 ⟨fun q hq hn => ?_, fun q hq hn => ?_⟩
    · by_cases hw : w = .choice
      · subst hw
        have hgroup : (Wrapper.choice.mark k p).group = some (k + 1) := by
          simp [Wrapper.mark, Pattern.inChoice, hp]
        rw [hinner.group_eq hgroup q hq] at hn
        cases hn
        exact ⟨Nat.lt_succ_self k, hle.trans hle'⟩
      · obtain ⟨hlt, hn⟩ := ihInner (Wrapper.mark_group_of_ne hp k hw) q hq hn
        exact ⟨Nat.lt_of_le_of_lt hcount hlt, hn.trans hle'⟩
    · obtain ⟨hlt, hn⟩ := ihRest hp q hq hn
      exact ⟨Nat.lt_of_le_of_lt (hcount.trans hle) hlt, hn⟩

/-- **The marks tell the constructs that an element stands in.** -/
theorem exists_of_holds {a : α} {ws : List Wrapper} (hm : m.Holds a ws) (h : Marks k p m qs k') :
    ∃ q, (a, q) ∈ qs ∧ p.Under ws q := by
  induction hm generalizing k p qs k' with
  | here =>
    cases h
    exact ⟨p, List.mem_cons_self, p.under_nil⟩
  | inside _ ih =>
    cases h with
    | wrapped hinner _ =>
      obtain ⟨q, hq, hunder⟩ := ih hinner
      exact ⟨q, List.mem_append_left _ hq, hunder.wrap⟩
  | afterElement _ ih =>
    cases h with
    | element _ hrest =>
      obtain ⟨q, hq, hflags⟩ := ih hrest
      exact ⟨q, List.mem_cons_of_mem _ hq, hflags⟩
  | afterEmpty _ ih =>
    cases h with
    | empty hrest => exact ih hrest
  | afterWrapped _ ih =>
    cases h with
    | wrapped _ hrest =>
      obtain ⟨q, hq, hflags⟩ := ih hrest
      exact ⟨q, List.mem_append_right _ hq, hflags⟩

theorem exists_holds (h : Marks k p m qs k') {a : α} {q : Pattern} (hq : (a, q) ∈ qs) :
    ∃ ws, m.Holds a ws ∧ p.Under ws q := by
  induction h with
  | nil => cases hq
  | element _ _ ih =>
    rcases List.mem_cons.1 hq with heq | hq
    · cases heq
      exact ⟨[], .here, Pattern.under_nil _⟩
    · obtain ⟨ws, hholds, hunder⟩ := ih hq
      exact ⟨ws, .afterElement hholds, hunder⟩
  | empty _ ih =>
    obtain ⟨ws, hholds, hunder⟩ := ih hq
    exact ⟨ws, .afterEmpty hholds, hunder⟩
  | wrapped _ _ ihInner ihRest =>
    rcases List.mem_append.1 hq with hq | hq
    · obtain ⟨ws, hholds, hunder⟩ := ihInner hq
      exact ⟨_, .inside hholds, hunder.wrap⟩
    · obtain ⟨ws, hholds, hunder⟩ := ihRest hq
      exact ⟨ws, .afterWrapped hholds, hunder⟩

/-! ## Counting -/

section
variable {P : α → Bool}

theorem not_of_repeats {w : Wrapper} (h : Marks (w.count k) (w.mark k p) m qs k')
    (hw : w.repeats = true) (honce : ∀ q ∈ qs, P q.1 = true → q.2.repeats = false) :
    ∀ q ∈ qs, ¬ P q.1 = true := by
  intro q hq hP
  have hrepeats := h.repeats (by rw [Wrapper.mark_repeats, hw, Bool.true_or]) q hq
  rw [honce q hq hP] at hrepeats
  cases hrepeats

/-- **Elements that are not repeated are in a sequence as often as they are in
    the model.** -/
theorem mostAs_le (h : Marks k p m qs k')
    (honce : ∀ q ∈ qs, P q.1 = true → q.2.repeats = false) (arr : Arrangement) :
    m.mostAs P arr ≤ (qs.countP fun q => P q.1 : ℕ) := by
  induction h generalizing arr with
  | nil => exact zero_le
  | @element _ _ _ _ a _ _ _ _ ih =>
    refine (Arrangement.most_le_add _ _ _).trans ?_
    rw [List.countP_cons, Nat.cast_add, add_comm]
    refine add_le_add (ih (fun q hq => honce q (List.mem_cons_of_mem _ hq)) arr) ?_
    split <;> simp_all
  | empty _ ih =>
    refine (Arrangement.most_le_add _ _ _).trans ?_
    rw [zero_add]
    exact ih honce arr
  | @wrapped k k₁ k' p w inner rest qs₁ qs₂ hinner _ ihInner ihRest =>
    obtain ⟨honce₁, honce₂⟩ := List.forall_mem_append.1 honce
    refine (Arrangement.most_le_add _ _ _).trans ?_
    rw [List.countP_append, Nat.cast_add]
    refine add_le_add ?_ (ihRest honce₂ arr)
    have hmost := ihInner honce₁ w.arrangement
    by_cases hw : w.repeats = true
    · rw [List.countP_eq_zero.2 (hinner.not_of_repeats hw honce₁), Nat.cast_zero,
        nonpos_iff_eq_zero] at hmost
      rw [hmost, Wrapper.most_zero]
      exact zero_le
    · rw [Wrapper.most_eq (by simpa using hw)]
      exact hmost

theorem mostAs_eq_zero (h : Marks k p m qs k') (hnone : ∀ q ∈ qs, ¬ P q.1 = true)
    (arr : Arrangement) : m.mostAs P arr = 0 := by
  have hmost := h.mostAs_le (fun q hq hP => absurd hP (hnone q hq)) arr
  rwa [List.countP_eq_zero.2 hnone, Nat.cast_zero, nonpos_iff_eq_zero] at hmost

/-- What counts in a construct is not repeated by it. -/
theorem most_eq_mostAs {w : Wrapper} (h : Marks (w.count k) (w.mark k p) m qs k')
    (honce : ∀ q ∈ qs, P q.1 = true → q.2.repeats = false) :
    w.most (m.mostAs P w.arrangement) = m.mostAs P w.arrangement := by
  by_cases hw : w.repeats = true
  · rw [h.mostAs_eq_zero (h.not_of_repeats hw honce), Wrapper.most_zero]
  · exact Wrapper.most_eq (by simpa using hw) _

/-- **Of elements in one choice a sequence holds no two, if the choice does
    not**, unless they are repeated. -/
theorem most_le_one (h : Marks k p m qs k') (hp : p.group = none) {n : Nat}
    (honce : ∀ q ∈ qs, P q.1 = true → q.2.repeats = false)
    (hgroup : ∀ q ∈ qs, P q.1 = true → q.2.group = some n)
    (hchoices : ∀ alternatives ∈ m.choices, alternatives.mostAs P .alternatives ≤ 1) :
    m.most P ≤ 1 := by
  induction h with
  | nil => exact zero_le
  | @element _ _ _ p a rest _ _ _ ih =>
    obtain ⟨-, honce⟩ := List.forall_mem_cons.1 honce
    obtain ⟨hhead, hgroup⟩ := List.forall_mem_cons.1 hgroup
    have ha : ¬ P a = true := by
      intro ha
      rw [hp] at hhead
      cases hhead ha
    rw [ContentModel.most, ContentModel.mostAs, if_neg ha, Arrangement.most, zero_add]
    exact ih hp honce hgroup hchoices
  | empty _ ih =>
    rw [ContentModel.most, ContentModel.mostAs, Arrangement.most, zero_add]
    exact ih hp honce hgroup hchoices
  | @wrapped k k₁ k' p w inner rest qs₁ qs₂ hinner hrest ihInner ihRest =>
    obtain ⟨honce₁, honce₂⟩ := List.forall_mem_append.1 honce
    obtain ⟨hgroup₁, hgroup₂⟩ := List.forall_mem_append.1 hgroup
    obtain ⟨hchoices₁, hchoices₂⟩ := List.forall_mem_append.1 hchoices
    have hinnerMost : inner.mostAs P w.arrangement ≤ 1 := by
      by_cases hw : w = .choice
      · subst hw
        exact hchoices₁ inner List.mem_cons_self
      · rw [if_neg hw] at hchoices₁
        rw [Wrapper.arrangement_eq_sequence hw]
        exact ihInner (Wrapper.mark_group_of_ne hp k hw) honce₁ hgroup₁ hchoices₁
    have hrestMost : rest.mostAs P .sequence ≤ 1 := ihRest hp honce₂ hgroup₂ hchoices₂
    rw [ContentModel.most, ContentModel.mostAs, Arrangement.most, hinner.most_eq_mostAs honce₁]
    -- the choice is in this construct or behind it
    by_cases hn : n ≤ k₁
    · have hnone : ∀ q ∈ qs₂, ¬ P q.1 = true := fun q hq hP =>
        Nat.not_lt.2 hn (hrest.group_lt hp q hq (hgroup₂ q hq hP)).1
      rw [hrest.mostAs_eq_zero hnone, add_zero]
      exact hinnerMost
    · have hnone : ∀ q ∈ qs₁, ¬ P q.1 = true := by
        intro q hq hP
        have hwrapped : Marks k p (.wrapped w inner .nil) (qs₁ ++ []) k₁ := .wrapped hinner .nil
        exact hn (hwrapped.group_lt hp q (List.mem_append_left _ hq) (hgroup₁ q hq hP)).2
      rw [hinner.mostAs_eq_zero hnone, zero_add]
      exact hrestMost

end

end Marks

end Bindery.Schema
