/-
  Content models and the sequences they admit.

  A content model is built from elements, `empty` and the constructs that hold
  further patterns.  Patterns that stand side by side are a sequence, or the
  alternatives of a choice (`Arrangement`).  `ContentModel.language` are the
  sequences of elements that a model admits, and `least` and `most` count on the
  model how many of the elements in question such a sequence holds.

  * `le_least_iff`: the first is the best lower bound;
  * `mostAs_le_iff`: the second is the best upper bound, if no choice is empty;
  * `exists_outside`: what a choice admits is part of an admitted sequence.
-/
import Mathlib.Computability.Language
import Mathlib.Data.ENat.Lattice

namespace Bindery.Schema

open scoped Computability

/-- The constructs that hold patterns. -/
inductive Wrapper where
  | optional
  | zeroOrMore
  | oneOrMore
  | choice
  | group
deriving DecidableEq

/-- How patterns that stand side by side are meant. -/
inductive Arrangement where
  | sequence
  | alternatives

def Wrapper.arrangement : Wrapper → Arrangement
  | choice => .alternatives
  | optional | zeroOrMore | oneOrMore | group => .sequence

theorem Wrapper.arrangement_eq_alternatives (w : Wrapper) :
    w.arrangement = .alternatives ↔ w = .choice := by
  cases w <;> simp [arrangement]

theorem Wrapper.arrangement_eq_sequence {w : Wrapper} (h : w ≠ .choice) :
    w.arrangement = .sequence := by
  cases w with
  | choice => exact absurd rfl h
  | optional | zeroOrMore | oneOrMore | group => rfl

def Wrapper.repeats : Wrapper → Bool
  | zeroOrMore | oneOrMore => true
  | optional | choice | group => false

/-- Patterns that stand side by side, the elements among them labelled. -/
inductive ContentModel (α : Type) where
  | nil
  | element (a : α) (rest : ContentModel α)
  | empty (rest : ContentModel α)
  | wrapped (w : Wrapper) (inner rest : ContentModel α)

variable {α : Type}

/-! ## Languages -/

namespace Arrangement

def neutral : Arrangement → Language α
  | sequence => 1
  | alternatives => 0

def join : Arrangement → Language α → Language α → Language α
  | sequence, l, m => l * m
  | alternatives, l, m => l + m

end Arrangement

def Wrapper.language : Wrapper → Language α → Language α
  | optional, l => 1 + l
  | zeroOrMore, l => l∗
  | oneOrMore, l => l * l∗
  | choice, l => l
  | group, l => l

namespace ContentModel

/-- The sequences that a model admits as a sequence or as alternatives. -/
def languageAs : ContentModel α → Arrangement → Language α
  | nil, arr => arr.neutral
  | element a rest, arr => arr.join {[a]} (rest.languageAs arr)
  | empty rest, arr => arr.join 1 (rest.languageAs arr)
  | wrapped w inner rest, arr =>
    arr.join (w.language (inner.languageAs w.arrangement)) (rest.languageAs arr)

/-- **The sequences of elements that a model admits.** -/
def language (m : ContentModel α) : Language α := m.languageAs .sequence

def labels : ContentModel α → List α
  | nil => []
  | element a rest => a :: rest.labels
  | empty rest => rest.labels
  | wrapped _ inner rest => inner.labels ++ rest.labels

def Proper : ContentModel α → Prop
  | nil => True
  | element _ rest => rest.Proper
  | empty rest => rest.Proper
  | wrapped w inner rest => (w = .choice → inner ≠ nil) ∧ inner.Proper ∧ rest.Proper

/-- The choices that stand in no other choice. -/
def choices : ContentModel α → List (ContentModel α)
  | nil => []
  | element _ rest => rest.choices
  | empty rest => rest.choices
  | wrapped w inner rest => (if w = .choice then [inner] else inner.choices) ++ rest.choices

/-- Whether an element stands in a model below these constructs, the outermost
    first. -/
inductive Holds (a : α) : ContentModel α → List Wrapper → Prop
  | here {rest} : Holds a (element a rest) []
  | inside {w inner rest ws} : Holds a inner ws → Holds a (wrapped w inner rest) (w :: ws)
  | afterElement {b rest ws} : Holds a rest ws → Holds a (element b rest) ws
  | afterEmpty {rest ws} : Holds a rest ws → Holds a (empty rest) ws
  | afterWrapped {w inner rest ws} : Holds a rest ws → Holds a (wrapped w inner rest) ws

end ContentModel

/-! ## Counting on the model -/

namespace Arrangement

/-- The fewest in patterns that hold at least `a` and `b`. -/
noncomputable def least : Arrangement → ℕ∞ → ℕ∞ → ℕ∞
  | sequence, a, b => a + b
  | alternatives, a, b => min a b

/-- The most in patterns that hold at most `a` and `b`. -/
noncomputable def most : Arrangement → ℕ∞ → ℕ∞ → ℕ∞
  | sequence, a, b => a + b
  | alternatives, a, b => max a b

theorem most_le_add (arr : Arrangement) (a b : ℕ∞) : arr.most a b ≤ a + b := by
  cases arr with
  | sequence => exact le_rfl
  | alternatives => exact max_le le_self_add le_add_self

end Arrangement

namespace Wrapper

def least : Wrapper → ℕ∞ → ℕ∞
  | optional, _ | zeroOrMore, _ => 0
  | oneOrMore, n | choice, n | group, n => n

def most : Wrapper → ℕ∞ → ℕ∞
  | zeroOrMore, n | oneOrMore, n => ⊤ * n
  | optional, n | choice, n | group, n => n

theorem most_zero (w : Wrapper) : w.most 0 = 0 := by
  cases w <;> simp [most]

theorem most_eq {w : Wrapper} (h : w.repeats = false) (n : ℕ∞) : w.most n = n := by
  cases w with
  | zeroOrMore | oneOrMore => cases h
  | optional | choice | group => rfl

end Wrapper

namespace ContentModel

/-- The least number of elements with `P`, of patterns as a sequence or as
    alternatives. -/
noncomputable def leastAs (P : α → Bool) : ContentModel α → Arrangement → ℕ∞
  | nil, .sequence => 0
  | nil, .alternatives => ⊤
  | element a rest, arr => arr.least (if P a then 1 else 0) (rest.leastAs P arr)
  | empty rest, arr => arr.least 0 (rest.leastAs P arr)
  | wrapped w inner rest, arr =>
    arr.least (w.least (inner.leastAs P w.arrangement)) (rest.leastAs P arr)

/-- The largest number of elements with `P`, of patterns as a sequence or as
    alternatives. -/
noncomputable def mostAs (P : α → Bool) : ContentModel α → Arrangement → ℕ∞
  | nil, _ => 0
  | element a rest, arr => arr.most (if P a then 1 else 0) (rest.mostAs P arr)
  | empty rest, arr => arr.most 0 (rest.mostAs P arr)
  | wrapped w inner rest, arr =>
    arr.most (w.most (inner.mostAs P w.arrangement)) (rest.mostAs P arr)

/-- **The least number of elements with `P`** in an admitted sequence. -/
noncomputable def least (P : α → Bool) (m : ContentModel α) : ℕ∞ := m.leastAs P .sequence

/-- **The largest number of elements with `P`** in an admitted sequence. -/
noncomputable def most (P : α → Bool) (m : ContentModel α) : ℕ∞ := m.mostAs P .sequence

end ContentModel

/-! ## Lower bounds -/

section
variable {P : α → Bool} {l l' : Language α} {n n' : ℕ∞}

def AtLeast (P : α → Bool) (l : Language α) (n : ℕ∞) : Prop :=
  ∀ s ∈ l, n ≤ (s.countP P : ℕ)

/-- Whether a sequence of the language holds `n`, unless there is no bound. -/
def Attains (P : α → Bool) (l : Language α) (n : ℕ∞) : Prop :=
  n = ⊤ ∨ ∃ s ∈ l, ((s.countP P : ℕ) : ℕ∞) = n

theorem AtLeast.join (arr : Arrangement) (h : AtLeast P l n) (h' : AtLeast P l' n') :
    AtLeast P (arr.join l l') (arr.least n n') := by
  intro s hs
  cases arr with
  | sequence =>
    obtain ⟨a, ha, b, hb, rfl⟩ := Language.mem_mul.1 hs
    rw [List.countP_append, Nat.cast_add]
    exact add_le_add (h a ha) (h' b hb)
  | alternatives =>
    rcases (Language.mem_add _ _ _).1 hs with hs | hs
    · exact (min_le_left _ _).trans (h s hs)
    · exact (min_le_right _ _).trans (h' s hs)

theorem Attains.join (arr : Arrangement) (h : Attains P l n) (h' : Attains P l' n') :
    Attains P (arr.join l l') (arr.least n n') := by
  cases arr with
  | sequence =>
    rcases h with rfl | ⟨s, hs, hn⟩
    · exact .inl (top_add _)
    rcases h' with rfl | ⟨s', hs', hn'⟩
    · exact .inl (add_top _)
    refine .inr ⟨s ++ s', Language.append_mem_mul hs hs', ?_⟩
    rw [List.countP_append, Nat.cast_add, hn, hn']
    rfl
  | alternatives =>
    rcases min_choice n n' with hmin | hmin
    · rw [Arrangement.least, hmin]
      exact h.imp_right fun ⟨s, hs, hn⟩ => ⟨s, .inl hs, hn⟩
    · rw [Arrangement.least, hmin]
      exact h'.imp_right fun ⟨s, hs, hn⟩ => ⟨s, .inr hs, hn⟩

theorem AtLeast.wrapped (w : Wrapper) (h : AtLeast P l n) :
    AtLeast P (w.language l) (w.least n) := by
  intro s hs
  cases w with
  | optional | zeroOrMore => exact zero_le
  | oneOrMore =>
    obtain ⟨a, ha, b, -, rfl⟩ := Language.mem_mul.1 hs
    rw [List.countP_append, Nat.cast_add]
    exact (h a ha).trans le_self_add
  | choice | group => exact h s hs

theorem Attains.wrapped (w : Wrapper) (h : Attains P l n) :
    Attains P (w.language l) (w.least n) := by
  cases w with
  | optional => exact .inr ⟨[], .inl Language.nil_mem_one, rfl⟩
  | zeroOrMore => exact .inr ⟨[], Language.nil_mem_kstar l, rfl⟩
  | oneOrMore =>
    refine h.imp_right fun ⟨s, hs, hn⟩ => ⟨s ++ [], ?_, ?_⟩
    · exact Language.append_mem_mul hs (Language.nil_mem_kstar l)
    · rw [List.append_nil, hn]
      rfl
  | choice | group => exact h

end

namespace ContentModel

theorem atLeast_leastAs (P : α → Bool) (m : ContentModel α) (arr : Arrangement) :
    AtLeast P (m.languageAs arr) (m.leastAs P arr) := by
  induction m generalizing arr with
  | nil =>
    cases arr with
    | sequence => exact fun s _ => zero_le
    | alternatives => exact fun s hs => absurd hs (Language.notMem_zero s)
  | element a rest ih =>
    refine AtLeast.join arr (fun s hs => ?_) (ih arr)
    obtain rfl := Set.mem_singleton_iff.1 hs
    rw [List.countP_singleton]
    split <;> rfl
  | empty rest ih => exact AtLeast.join arr (fun s _ => zero_le) (ih arr)
  | wrapped w inner rest ihInner ihRest =>
    exact AtLeast.join arr ((ihInner w.arrangement).wrapped w) (ihRest arr)

theorem attains_leastAs (P : α → Bool) (m : ContentModel α) (arr : Arrangement) :
    Attains P (m.languageAs arr) (m.leastAs P arr) := by
  induction m generalizing arr with
  | nil =>
    cases arr with
    | sequence => exact .inr ⟨[], Language.nil_mem_one, rfl⟩
    | alternatives => exact .inl rfl
  | element a rest ih =>
    refine Attains.join arr (.inr ⟨[a], Set.mem_singleton _, ?_⟩) (ih arr)
    rw [List.countP_singleton]
    split <;> rfl
  | empty rest ih => exact Attains.join arr (.inr ⟨[], Language.nil_mem_one, rfl⟩) (ih arr)
  | wrapped w inner rest ihInner ihRest =>
    exact Attains.join arr ((ihInner w.arrangement).wrapped w) (ihRest arr)

theorem le_least_iff {P : α → Bool} {m : ContentModel α} {n : ℕ∞} :
    n ≤ m.least P ↔ ∀ s ∈ m.language, n ≤ (s.countP P : ℕ) := by
  constructor
  · exact fun h s hs => h.trans (atLeast_leastAs P m .sequence s hs)
  · intro h
    rcases attains_leastAs P m .sequence with htop | ⟨s, hs, hn⟩
    · rw [least, htop]
      exact le_top
    · rw [least, ← hn]
      exact h s hs

theorem Holds.one_le_least {a : α} {m : ContentModel α} {ws : List Wrapper} (h : Holds a m ws)
    (hws : ∀ w ∈ ws, w = .oneOrMore ∨ w = .group) {P : α → Bool} (ha : P a = true) :
    1 ≤ m.least P := by
  induction h with
  | here =>
    rw [least, leastAs, if_pos ha]
    exact le_self_add
  | @inside w inner rest ws _ ih =>
    have hinner : 1 ≤ inner.least P := ih fun v hv => hws v (List.mem_cons_of_mem _ hv)
    refine le_trans ?_ (le_self_add (a := w.least (inner.leastAs P w.arrangement)))
    rcases hws w List.mem_cons_self with rfl | rfl
    · exact hinner
    · exact hinner
  | afterElement _ ih => exact (ih hws).trans le_add_self
  | afterEmpty _ ih => exact (ih hws).trans le_add_self
  | afterWrapped _ ih => exact (ih hws).trans le_add_self

end ContentModel

/-! ## Upper bounds -/

section
variable {P : α → Bool} {l l' : Language α} {n n' : ℕ∞}

def AtMost (P : α → Bool) (l : Language α) (n : ℕ∞) : Prop :=
  ∀ s ∈ l, ((s.countP P : ℕ) : ℕ∞) ≤ n

/-- Whether for every number up to `n` a sequence of the language holds as
    many. -/
def Exhausts (P : α → Bool) (l : Language α) (n : ℕ∞) : Prop :=
  ∀ k : ℕ, (k : ℕ∞) ≤ n → ∃ s ∈ l, k ≤ s.countP P

theorem AtMost.join (arr : Arrangement) (h : AtMost P l n) (h' : AtMost P l' n') :
    AtMost P (arr.join l l') (arr.most n n') := by
  intro s hs
  cases arr with
  | sequence =>
    obtain ⟨a, ha, b, hb, rfl⟩ := Language.mem_mul.1 hs
    rw [List.countP_append, Nat.cast_add]
    exact add_le_add (h a ha) (h' b hb)
  | alternatives =>
    rcases (Language.mem_add _ _ _).1 hs with hs | hs
    · exact (h s hs).trans (le_max_left _ _)
    · exact (h' s hs).trans (le_max_right _ _)

theorem AtMost.kstar (h : AtMost P l n) : AtMost P l∗ (⊤ * n) := by
  intro s hs
  obtain ⟨rounds, rfl, hrounds⟩ := Language.mem_kstar.1 hs
  by_cases hn : n = 0
  · have hnone : ∀ a ∈ rounds.flatten, ¬ P a = true := by
      intro a ha hp
      obtain ⟨s, hs, has⟩ := List.mem_flatten.1 ha
      have hzero : s.countP P = 0 := by
        simpa [hn] using h s (hrounds s hs)
      exact List.countP_eq_zero.1 hzero a has hp
    rw [List.countP_eq_zero.2 hnone]
    exact zero_le
  · rw [ENat.top_mul hn]
    exact le_top

theorem AtMost.wrapped (w : Wrapper) (h : AtMost P l n) : AtMost P (w.language l) (w.most n) := by
  cases w with
  | optional =>
    intro s hs
    rcases (Language.mem_add _ _ _).1 hs with hs | hs
    · obtain rfl := (Language.mem_one s).1 hs
      exact zero_le
    · exact h s hs
  | zeroOrMore => exact h.kstar
  | oneOrMore =>
    intro s hs
    obtain ⟨a, ha, b, hb, rfl⟩ := Language.mem_mul.1 hs
    obtain ⟨rounds, rfl, hrounds⟩ := Language.mem_kstar.1 hb
    refine h.kstar (a ++ rounds.flatten) (Language.mem_kstar.2 ⟨a :: rounds, rfl, ?_⟩)
    exact List.forall_mem_cons.2 ⟨ha, hrounds⟩
  | choice | group => exact h

theorem exists_add_of_le_add {k : ℕ} {n n' : ℕ∞} (h : (k : ℕ∞) ≤ n + n') :
    ∃ i j : ℕ, (i : ℕ∞) ≤ n ∧ (j : ℕ∞) ≤ n' ∧ k ≤ i + j := by
  cases n with
  | top => exact ⟨k, 0, le_top, zero_le, le_self_add⟩
  | coe a =>
    cases n' with
    | top => exact ⟨0, k, zero_le, le_top, le_add_self⟩
    | coe b => exact ⟨a, b, le_rfl, le_rfl, by exact_mod_cast h⟩

theorem Exhausts.sequence (h : Exhausts P l n) (h' : Exhausts P l' n') :
    Exhausts P (l * l') (n + n') := by
  intro k hk
  obtain ⟨i, j, hi, hj, hle⟩ := exists_add_of_le_add hk
  obtain ⟨s, hs, hcount⟩ := h i hi
  obtain ⟨s', hs', hcount'⟩ := h' j hj
  refine ⟨s ++ s', Language.append_mem_mul hs hs', ?_⟩
  rw [List.countP_append]
  exact hle.trans (Nat.add_le_add hcount hcount')

theorem Exhausts.kstar (h : Exhausts P l n) : Exhausts P l∗ (⊤ * n) := by
  intro k hk
  by_cases hn : n = 0
  · refine ⟨[], Language.nil_mem_kstar l, ?_⟩
    simpa [hn] using hk
  · -- as many rounds as are asked for, each with one
    obtain ⟨s, hs, hcount⟩ := h 1 (by simpa using Order.one_le_iff_ne_zero.2 hn)
    refine ⟨(List.replicate k s).flatten, Language.join_mem_kstar fun y hy => ?_, ?_⟩
    · rw [List.eq_of_mem_replicate hy]
      exact hs
    · rw [List.countP_flatten, List.map_replicate, List.sum_replicate_nat]
      exact Nat.le_mul_of_pos_right k hcount

theorem Exhausts.wrapped (w : Wrapper) (h : Exhausts P l n) :
    Exhausts P (w.language l) (w.most n) := by
  cases w with
  | optional => exact fun k hk => (h k hk).imp fun s hs => ⟨.inr hs.1, hs.2⟩
  | zeroOrMore => exact h.kstar
  | oneOrMore =>
    intro k hk
    obtain ⟨a, ha, -⟩ := h 0 zero_le
    obtain ⟨s, hs, hcount⟩ := h.kstar k hk
    refine ⟨a ++ s, Language.append_mem_mul ha hs, ?_⟩
    rw [List.countP_append]
    exact hcount.trans le_add_self
  | choice | group => exact h

end

namespace ContentModel

theorem atMost_mostAs (P : α → Bool) (m : ContentModel α) (arr : Arrangement) :
    AtMost P (m.languageAs arr) (m.mostAs P arr) := by
  induction m generalizing arr with
  | nil =>
    intro s hs
    cases arr with
    | sequence =>
      obtain rfl := (Language.mem_one s).1 hs
      exact zero_le
    | alternatives => exact absurd hs (Language.notMem_zero s)
  | element a rest ih =>
    refine AtMost.join arr (fun s hs => ?_) (ih arr)
    obtain rfl := Set.mem_singleton_iff.1 hs
    rw [List.countP_singleton]
    split <;> rfl
  | empty rest ih =>
    refine AtMost.join arr (fun s hs => ?_) (ih arr)
    obtain rfl := (Language.mem_one s).1 hs
    exact zero_le
  | wrapped w inner rest ihInner ihRest =>
    exact AtMost.join arr ((ihInner w.arrangement).wrapped w) (ihRest arr)

theorem exhausts_join {P : α → Bool} {l : Language α} {n : ℕ∞} (h : Exhausts P l n)
    (arr : Arrangement) {rest : ContentModel α}
    (hrest : (arr = .alternatives → rest ≠ nil) →
      Exhausts P (rest.languageAs arr) (rest.mostAs P arr)) :
    Exhausts P (arr.join l (rest.languageAs arr)) (arr.most n (rest.mostAs P arr)) := by
  cases arr with
  | sequence => exact h.sequence (hrest (fun heq => by cases heq))
  | alternatives =>
    intro k hk
    rcases le_max_iff.1 hk with hk | hk
    · exact (h k hk).imp fun s hs => ⟨.inl hs.1, hs.2⟩
    · by_cases hnil : rest = nil
      · rw [hnil, mostAs] at hk
        obtain ⟨s, hs, -⟩ := h 0 zero_le
        exact ⟨s, .inl hs, by simp_all⟩
      · exact (hrest (fun _ => hnil) k hk).imp fun s hs => ⟨.inr hs.1, hs.2⟩

theorem exhausts_mostAs (P : α → Bool) {m : ContentModel α} (hm : m.Proper) (arr : Arrangement)
    (hne : arr = .alternatives → m ≠ nil) :
    Exhausts P (m.languageAs arr) (m.mostAs P arr) := by
  induction m generalizing arr with
  | nil =>
    cases arr with
    | sequence => exact fun k hk => ⟨[], Language.nil_mem_one, by simpa [mostAs] using hk⟩
    | alternatives => exact absurd rfl (hne rfl)
  | element a rest ih =>
    refine exhausts_join (fun k hk => ⟨[a], Set.mem_singleton _, ?_⟩) arr (ih hm arr)
    rw [List.countP_singleton]
    split at hk
    · rename_i ha
      rw [if_pos ha]
      exact_mod_cast hk
    · rename_i ha
      rw [if_neg ha]
      exact_mod_cast hk
  | empty rest ih =>
    refine exhausts_join (fun k hk => ⟨[], Language.nil_mem_one, ?_⟩) arr (ih hm arr)
    simpa using hk
  | wrapped w inner rest ihInner ihRest =>
    obtain ⟨hchoice, hinner, hrest⟩ := hm
    have hne : w.arrangement = .alternatives → inner ≠ nil :=
      fun heq => hchoice (w.arrangement_eq_alternatives.1 heq)
    exact exhausts_join ((ihInner hinner w.arrangement hne).wrapped w) arr (ihRest hrest arr)

theorem mostAs_le_iff {P : α → Bool} {m : ContentModel α} (hm : m.Proper) {arr : Arrangement}
    (hne : arr = .alternatives → m ≠ nil) {n : ℕ} :
    m.mostAs P arr ≤ n ↔ ∀ s ∈ m.languageAs arr, s.countP P ≤ n := by
  constructor
  · intro h s hs
    exact_mod_cast (atMost_mostAs P m arr s hs).trans h
  · intro h
    by_contra hlt
    have hsucc : ((n + 1 : ℕ) : ℕ∞) ≤ m.mostAs P arr := by
      rw [Nat.cast_add, Nat.cast_one]
      exact Order.add_one_le_of_lt (not_le.1 hlt)
    obtain ⟨s, hs, hcount⟩ := exhausts_mostAs P hm arr hne (n + 1) hsucc
    exact absurd (h s hs) (Nat.not_le.2 hcount)

/-! ## Choices -/

theorem Proper.of_mem_choices {m alternatives : ContentModel α} (hm : m.Proper)
    (h : alternatives ∈ m.choices) : alternatives.Proper ∧ alternatives ≠ nil := by
  induction m with
  | nil => cases h
  | element a rest ih => exact ih hm h
  | empty rest ih => exact ih hm h
  | wrapped w inner rest ihInner ihRest =>
    obtain ⟨hchoice, hinner, hrest⟩ := hm
    rcases List.mem_append.1 h with h | h
    · split at h
      · rename_i hw
        rw [List.mem_singleton.1 h]
        exact ⟨hinner, hchoice hw⟩
      · exact ihInner hinner h
    · exact ihRest hrest h

theorem Proper.exists_mem_languageAs {m : ContentModel α} (hm : m.Proper) (arr : Arrangement)
    (hne : arr = .alternatives → m ≠ nil) : ∃ s, s ∈ m.languageAs arr := by
  obtain ⟨s, hs, -⟩ := exhausts_mostAs (fun _ => true) hm arr hne 0 zero_le
  exact ⟨s, hs⟩

theorem mem_wrapper {w : Wrapper} {l : Language α} {s : List α} (h : s ∈ l) :
    s ∈ w.language l := by
  cases w with
  | optional => exact .inr h
  | zeroOrMore => exact Language.mem_kstar.2 ⟨[s], by simp, by simpa using h⟩
  | oneOrMore =>
    rw [← List.append_nil s]
    exact Language.append_mem_mul h (Language.nil_mem_kstar l)
  | choice | group => exact h

theorem exists_outside {m alternatives : ContentModel α} (hm : m.Proper)
    (h : alternatives ∈ m.choices) {s : List α} (hs : s ∈ alternatives.languageAs .alternatives) :
    ∃ t ∈ m.language, s <:+: t := by
  induction m with
  | nil => cases h
  | element a rest ih =>
    obtain ⟨t, ht, hpart⟩ := ih hm h
    exact ⟨[a] ++ t, Language.append_mem_mul (Set.mem_singleton _) ht,
      hpart.trans (List.suffix_append _ _).isInfix⟩
  | empty rest ih =>
    obtain ⟨t, ht, hpart⟩ := ih hm h
    exact ⟨[] ++ t, Language.append_mem_mul Language.nil_mem_one ht, hpart⟩
  | wrapped w inner rest ihInner ihRest =>
    obtain ⟨hchoice, hinner, hrest⟩ := hm
    obtain ⟨u, hu⟩ := hrest.exists_mem_languageAs .sequence (fun heq => by cases heq)
    rcases List.mem_append.1 h with h | h
    · split at h
      · rename_i hw
        rw [List.mem_singleton.1 h] at hs
        subst hw
        exact ⟨s ++ u, Language.append_mem_mul hs hu, (List.prefix_append _ _).isInfix⟩
      · rename_i hw
        obtain ⟨t, ht, hpart⟩ := ihInner hinner h
        refine ⟨t ++ u, Language.append_mem_mul (mem_wrapper ?_) hu,
          hpart.trans (List.prefix_append _ _).isInfix⟩
        rw [Wrapper.arrangement_eq_sequence hw]
        exact ht
    · obtain ⟨t, ht, hpart⟩ := ihRest hrest h
      obtain ⟨v, hv⟩ := hinner.exists_mem_languageAs w.arrangement
        fun heq => hchoice (w.arrangement_eq_alternatives.1 heq)
      exact ⟨v ++ t, Language.append_mem_mul (mem_wrapper hv) ht,
        hpart.trans (List.suffix_append _ _).isInfix⟩

end ContentModel

end Bindery.Schema
