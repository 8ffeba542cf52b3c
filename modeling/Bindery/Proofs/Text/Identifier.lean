/-
  Identifier characters.

  A class of characters is given by the code points at which membership changes,
  and looked up by bisection.  Names of types are made from the words of other
  names, whose case is changed.

  * `CharClass.contains_iff`: bisection finds the members of the ranges;
  * `CaseClosed`: what changes of case keep of a character;
  * `caseClosed_continues`: identifier characters stay such;
  * `CaseClosed.pascal`: so do all characters of a name when it is capitalised.
-/
import Mathlib.Data.List.Chain
import Mathlib.Data.List.TakeDrop
import Mathlib.Data.List.TakeWhile
import Bindery.Text.Identifier
import Bindery.Text.Words

namespace Bindery

namespace CharClass

/-! ## Bisection -/

/-- The boundaries in pairs: the first member of a range, and the first
    character after it. -/
def pairs : List Nat → List (Nat × Nat)
  | a :: b :: rest => (a, b) :: pairs rest
  | _ => []

def ranges (k : CharClass) : List (Nat × Nat) := pairs k.bounds.toList

def Within (n : Nat) (r : Nat × Nat) : Prop := r.1 ≤ n ∧ n < r.2

theorem le_of_ascending {bounds : Array Nat} (h : bounds.toList.Pairwise (· < ·)) {i j : Nat}
    (hij : i ≤ j) (hj : j < bounds.size) : bounds.getD i 0 ≤ bounds.getD j 0 := by
  rcases Nat.lt_or_eq_of_le hij with hlt | rfl
  · have hi : i < bounds.size := Nat.lt_trans hlt hj
    have hget := List.pairwise_iff_getElem.1 h i j (by simpa using hi) (by simpa using hj) hlt
    simpa [Array.getD, hi, hj] using Nat.le_of_lt hget
  · exact Nat.le_refl _

theorem rank_separates {bounds : Array Nat} (h : bounds.toList.Pairwise (· < ·)) (n lo hi : Nat)
    (hlo : lo ≤ hi) (hhi : hi ≤ bounds.size) (hbelow : ∀ i < lo, bounds.getD i 0 ≤ n)
    (habove : ∀ i, hi ≤ i → i < bounds.size → n < bounds.getD i 0) :
    rank bounds n lo hi ≤ bounds.size ∧ (∀ i < rank bounds n lo hi, bounds.getD i 0 ≤ n) ∧
      ∀ i, rank bounds n lo hi ≤ i → i < bounds.size → n < bounds.getD i 0 := by
  fun_induction rank bounds n lo hi with
  | case1 lo hi hlt mid hmid ih =>
    have hsize : mid < bounds.size := by omega
    refine ih (by omega) hhi (fun i hi => ?_) habove
    exact Nat.le_trans (le_of_ascending h (by omega) hsize) hmid
  | case2 lo hi hlt mid hmid ih =>
    refine ih (by omega) (by omega) hbelow fun i hi hisize => ?_
    exact Nat.lt_of_lt_of_le (by omega) (le_of_ascending h hi hisize)
  | case3 lo hi hlt => exact ⟨by omega, hbelow, fun i hi => habove i (by omega)⟩

theorem countP_of_separates {bounds : Array Nat} {n r : Nat} (hr : r ≤ bounds.size)
    (hbelow : ∀ i < r, bounds.getD i 0 ≤ n)
    (habove : ∀ i, r ≤ i → i < bounds.size → n < bounds.getD i 0) :
    bounds.toList.countP (· ≤ n) = r := by
  have hget : ∀ i (hi : i < bounds.toList.length), bounds.getD i 0 = bounds.toList[i] := by
    intro i hi
    have hsize : i < bounds.size := by simpa using hi
    simp [Array.getD, hsize]
  have htake : (bounds.toList.take r).countP (· ≤ n) = (bounds.toList.take r).length := by
    rw [List.countP_eq_length]
    intro b hb
    obtain ⟨i, hi, rfl⟩ := List.mem_take_iff_getElem.1 hb
    rw [← hget]
    simpa using hbelow i (by omega)
  have hdrop : (bounds.toList.drop r).countP (· ≤ n) = 0 := by
    rw [List.countP_eq_zero]
    intro b hb
    obtain ⟨i, hi, rfl⟩ := List.mem_drop_iff_getElem.1 hb
    have hi' : r + i < bounds.toList.length := by omega
    have hlt := habove (r + i) (by omega) (by simpa using hi')
    rw [hget _ hi'] at hlt
    simpa using hlt
  rw [← List.take_append_drop r bounds.toList, List.countP_append, htake, hdrop, List.length_take,
    Array.length_toList]
  omega

/-- An odd number of ascending boundaries are at most `n` iff `n` lies in a
    range. -/
theorem odd_countP_iff (n : Nat) : ∀ {bounds : List Nat}, bounds.Pairwise (· < ·) →
    bounds.length % 2 = 0 → (bounds.countP (· ≤ n) % 2 = 1 ↔ ∃ r ∈ pairs bounds, Within n r)
  | [], _, _ => by simp [pairs]
  | [_], _, hlen => by simp at hlen
  | a :: b :: rest, h, hlen => by
    rw [List.pairwise_cons, List.pairwise_cons] at h
    obtain ⟨ha, hb, hrest⟩ := h
    have hab : a < b := ha b List.mem_cons_self
    have ih := odd_countP_iff n hrest (by simp only [List.length_cons] at hlen; omega)
    have hlater : n < b → rest.countP (· ≤ n) = 0 := fun hn => List.countP_eq_zero.2 fun c hc => by
      have := hb c hc
      simp only [decide_eq_true_eq]
      omega
    rw [pairs, List.exists_mem_cons_iff, ← ih, List.countP_cons, List.countP_cons, Within]
    by_cases hn : n < b
    · rw [hlater hn]
      by_cases hna : a ≤ n <;> simp [hn, hna, Nat.not_le.2 hn]
    · have hbn : b ≤ n := Nat.le_of_not_lt hn
      have han : a ≤ n := Nat.le_trans (Nat.le_of_lt hab) hbn
      simp only [hn, hbn, han, and_false, false_or, decide_true, if_true]
      omega

/-- **Bisection finds the members of the ranges.** -/
theorem contains_iff {k : CharClass} (h : k.bounds.toList.IsChain (· < ·))
    (heven : k.bounds.toList.length % 2 = 0) (c : Char) :
    k.contains c = true ↔ ∃ r ∈ k.ranges, Within c.toNat r := by
  rw [List.isChain_iff_pairwise] at h
  obtain ⟨hr, hbelow, habove⟩ := rank_separates h c.toNat 0 k.bounds.size (Nat.zero_le _)
    (Nat.le_refl _) (fun i hi => absurd hi (Nat.not_lt_zero i))
    fun i hi hlt => absurd hlt (Nat.not_lt.2 hi)
  rw [contains, beq_iff_eq, ← countP_of_separates hr hbelow habove]
  exact odd_countP_iff _ h heven

/-- The ranges of `as` that are left when those inside the ranges of `bs` are
    dropped, in one pass over both. -/
def uncovered (as bs : List (Nat × Nat)) : List (Nat × Nat) :=
  bs.foldl (fun as b => as.dropWhile fun a => Nat.ble b.1 a.1 && Nat.ble a.2 b.2) as

theorem covered_of_uncovered {as bs : List (Nat × Nat)} {a : Nat × Nat} (ha : a ∈ as)
    (hleft : a ∉ uncovered as bs) : ∃ b ∈ bs, b.1 ≤ a.1 ∧ a.2 ≤ b.2 := by
  induction bs generalizing as with
  | nil => exact absurd ha hleft
  | cons b bs ih =>
    rw [uncovered, List.foldl_cons] at hleft
    by_cases hdrop : a ∈ as.dropWhile fun a => Nat.ble b.1 a.1 && Nat.ble a.2 b.2
    · obtain ⟨b', hb', hcovers⟩ := ih hdrop hleft
      exact ⟨b', List.mem_cons_of_mem _ hb', hcovers⟩
    · rw [← List.takeWhile_append_dropWhile
        (p := fun a => Nat.ble b.1 a.1 && Nat.ble a.2 b.2) (l := as), List.mem_append] at ha
      have hinside := List.mem_takeWhile_imp (ha.resolve_right hdrop)
      rw [Bool.and_eq_true, Nat.ble_eq, Nat.ble_eq] at hinside
      exact ⟨b, List.mem_cons_self, hinside⟩

end CharClass

namespace Text

open CharClass (Within)

/-! ## Changing the case of identifier characters -/

/-- The identifier characters that changes of case lead to. -/
def casedClass : CharClass := .ofLengths [
  65, 26, 6, 26, 69, 23, 1, 31, 1, 458, 62, 117, 1, 2, 3, 3, 1, 1, 6, 5, 1, 1, 1, 20, 1, 83, 1, 139,
  8, 166, 1, 38, 9, 41, 2839, 38, 1, 1, 5, 1, 2, 43, 1, 333, 343, 86, 2, 6, 2178, 11, 5, 43, 2, 3,
  64, 534, 2, 6, 2, 38, 2, 6, 2, 8, 1, 1, 1, 1, 1, 1, 1, 31, 2, 53, 1, 7, 5, 3, 1, 7, 3, 4, 2, 6, 4,
  13, 5, 3, 1, 7, 301, 16, 20, 1, 17, 41, 2679, 229, 6, 9, 12, 38, 1, 1, 5, 1, 30994, 48, 15, 115,
  48, 103, 2, 82, 20, 55, 776, 43, 21, 123, 21302, 26, 6, 26, 1189, 158, 18, 36, 4, 36, 116, 11, 1,
  15, 1, 7, 1, 2, 1, 11, 1, 15, 1, 7, 1, 2, 1731, 51, 13, 51, 77, 38, 9, 23, 2842, 74, 21846, 64,
  32, 25, 2, 25, 31276, 76]

/-- Whether one of its ranges holds the code points from `lo` to `hi`. -/
def areCased (lo hi : Nat) : Bool :=
  casedClass.ranges.any fun r => Nat.ble r.1 lo && Nat.blt hi r.2

theorem areCased_iff {lo hi : Nat} :
    areCased lo hi = true ↔ ∃ r ∈ casedClass.ranges, r.1 ≤ lo ∧ hi < r.2 := by
  simp [areCased, Nat.ble_eq, Nat.blt_eq]

/-- The circled letters.  They have case and are no identifier characters. -/
def circledLetters : Nat × Nat := (0x24b6, 0x24ea)

set_option maxRecDepth 20000 in
theorem identClass_ranges :
    (identContinueClass.bounds.toList.IsChain (· < ·) ∧
      identContinueClass.bounds.toList.length % 2 = 0 ∧
      casedClass.ranges.isSublist identContinueClass.ranges = true ∧
      identContinueClass.ranges.all
        (fun r => r.2 ≤ circledLetters.1 || circledLetters.2 ≤ r.1) = true) ∧
    identStartClass.bounds.toList.IsChain (· < ·) ∧
    identStartClass.bounds.toList.length % 2 = 0 ∧
    CharClass.uncovered identStartClass.ranges identContinueClass.ranges = [] := by
  decide

theorem identContinueClass_contains_iff (c : Char) :
    identContinueClass.contains c = true ↔ ∃ r ∈ identContinueClass.ranges, Within c.toNat r :=
  CharClass.contains_iff identClass_ranges.1.1 identClass_ranges.1.2.1 c

theorem isIdentContinue_of_isIdentStart {c : Char} (h : isIdentStart c = true) :
    isIdentContinue c = true := by
  rw [isIdentStart] at h
  rw [isIdentContinue]
  split
  · rename_i hascii
    rw [if_pos hascii, Bool.or_eq_true] at h
    simp only [Char.isAlphanum, Bool.or_eq_true]
    exact h.imp_left .inl
  · rename_i hascii
    obtain ⟨-, hchain, heven, hcovered⟩ := identClass_ranges
    rw [if_neg hascii, CharClass.contains_iff hchain heven] at h
    obtain ⟨a, ha, hlo, hhi⟩ := h
    obtain ⟨b, hb, hlo', hhi'⟩ := CharClass.covered_of_uncovered ha (hcovered ▸ List.not_mem_nil)
    exact (identContinueClass_contains_iff c).2 ⟨b, hb, by omega, by omega⟩

theorem not_circled {c : Char} (h : identContinueClass.contains c = true) :
    ¬ Within c.toNat circledLetters := by
  obtain ⟨r, hr, hlo, hhi⟩ := (identContinueClass_contains_iff c).1 h
  have hapart := List.all_eq_true.1 identClass_ranges.1.2.2.2 r hr
  rw [Bool.or_eq_true, decide_eq_true_eq, decide_eq_true_eq] at hapart
  rintro ⟨hlo', hhi'⟩
  omega

theorem casedClass_scalar : ∀ r ∈ casedClass.ranges,
    (r.1 < 128 → r = (0x41, 0x5b) ∨ r = (0x61, 0x7b)) ∧
    (r.2 ≤ 0xd800 ∨ 0xe000 ≤ r.1 ∧ r.2 ≤ 0x110000) := by
  decide

theorem ascii_continues : ∀ n < 128,
    ((0x41 ≤ n ∧ n < 0x5b ∨ 0x61 ≤ n ∧ n < 0x7b) → isIdentContinue (Char.ofNat n) = true) ∧
    (isIdentContinue (Char.ofNat n) = true → isIdentContinue (Char.ofNat n).toUpper = true ∧
      isIdentContinue (Char.ofNat n).toLower = true) := by
  decide

theorem continues_of_areCased {n : Nat} (h : areCased n n = true) :
    isIdentContinue (Char.ofNat n) = true := by
  obtain ⟨r, hr, hlo, hhi⟩ := areCased_iff.1 h
  obtain ⟨hletters, hscalar⟩ := casedClass_scalar r hr
  by_cases hn : n < 128
  · refine (ascii_continues n hn).1 ?_
    rcases hletters (by omega) with rfl | rfl
    · exact .inl ⟨hlo, hhi⟩
    · exact .inr ⟨hlo, hhi⟩
  · have hvalid : n.isValidChar := by
      rcases hscalar with hscalar | hscalar
      · exact .inl (by omega)
      · exact .inr ⟨by omega, by omega⟩
    have hcode : (Char.ofNat n).toNat = n := by
      rw [Char.ofNat, dif_pos hvalid]
      rfl
    rw [isIdentContinue, hcode, if_neg hn, identContinueClass_contains_iff, hcode]
    have hsub := List.isSublist_iff_sublist.1 identClass_ranges.1.2.2.1
    exact ⟨r, hsub.subset hr, hlo, hhi⟩

namespace CaseRun

/-- The code point that the run gives for `n`. -/
def image (r : CaseRun) (n : Nat) : Nat := Int.toNat (n + r.shift)

/-- Whether the run leads from identifier characters to identifier characters:
    into one range, or, where it skips characters, one by one. -/
def continues (r : CaseRun) : Bool :=
  areCased (r.image r.first) (r.image r.last) ||
    (circledLetters.1 ≤ r.first && r.last < circledLetters.2) ||
    (List.range (r.last + 1 - r.first)).all fun k =>
      (r.map? (r.first + k)).all fun n => areCased n n

theorem map?_eq_some {r : CaseRun} {n m : Nat} (h : r.map? n = some m) :
    r.first ≤ n ∧ n ≤ r.last ∧ m = r.image n := by
  rw [map?] at h
  split at h
  · rename_i hcond
    simp only [Bool.and_eq_true, decide_eq_true_eq] at hcond
    exact ⟨hcond.1.1, hcond.1.2, (Option.some.inj h).symm⟩
  · cases h

theorem areCased_of_map? {r : CaseRun} (hr : r.continues = true) {n m : Nat}
    (h : r.map? n = some m) : areCased m m = true ∨ Within n circledLetters := by
  obtain ⟨hlo, hhi, rfl⟩ := map?_eq_some h
  rw [continues, Bool.or_eq_true, Bool.or_eq_true] at hr
  rcases hr with (hrange | hcircled) | heach
  · left
    obtain ⟨s, hs, hfirst, hlast⟩ := areCased_iff.1 hrange
    rw [image] at hfirst hlast
    exact areCased_iff.2 ⟨s, hs, by rw [image]; omega, by rw [image]; omega⟩
  · right
    simp only [Bool.and_eq_true, decide_eq_true_eq] at hcircled
    exact ⟨Nat.le_trans hcircled.1 hlo, Nat.lt_of_le_of_lt hhi hcircled.2⟩
  · left
    have heach' := List.all_eq_true.1 heach (n - r.first) (List.mem_range.2 (by omega))
    rw [Nat.add_sub_cancel' hlo, h] at heach'
    simpa using heach'

end CaseRun

set_option maxRecDepth 20000 in
/-- All runs and sequences lead to identifier characters. -/
theorem case_tables_continue :
    (upperRuns ++ lowerRuns).all CaseRun.continues = true ∧
    (upperSequences ++ lowerSequences).all (fun s => s.2.all fun n => areCased n n) = true := by
  decide

structure CaseClosed (P : Char → Prop) : Prop where
  ascii : ∀ c : Char, c.toNat < 128 → P c → P c.toUpper ∧ P c.toLower
  sequence : ∀ s ∈ upperSequences ++ lowerSequences, ∀ n ∈ s.2, P (Char.ofNat n)
  run : ∀ r ∈ upperRuns ++ lowerRuns, ∀ c, ¬ c.toNat < 128 → P c → ∀ n,
    r.map? c.toNat = some n → P (Char.ofNat n)
  final : P 'ς'

theorem caseClosed_continues : CaseClosed (isIdentContinue · = true) where
  ascii c hascii hc := by
    have hkeeps := (ascii_continues c.toNat hascii).2
    rw [Char.ofNat_toNat] at hkeeps
    exact hkeeps hc
  sequence s hs n hn :=
    continues_of_areCased (List.all_eq_true.1 (List.all_eq_true.1 case_tables_continue.2 s hs) n hn)
  run r hr c hascii hc n hmap := by
    have hclass : identContinueClass.contains c = true := by rwa [isIdentContinue, if_neg hascii] at hc
    have hcontinues := List.all_eq_true.1 case_tables_continue.1 r hr
    rcases CaseRun.areCased_of_map? hcontinues hmap with hcased | hcircled
    · exact continues_of_areCased hcased
    · exact absurd hcircled (not_circled hclass)
  final := continues_of_areCased (by decide : areCased 'ς'.toNat 'ς'.toNat = true)

set_option maxRecDepth 20000 in
theorem caseClosed_ne : CaseClosed (· ≠ '<') where
  ascii c hascii hc := by
    have hall : ∀ n < 128, Char.ofNat n ≠ '<' →
        (Char.ofNat n).toUpper ≠ '<' ∧ (Char.ofNat n).toLower ≠ '<' := by decide
    simpa only [Char.ofNat_toNat] using hall c.toNat hascii (by rwa [Char.ofNat_toNat])
  sequence s hs n hn heq :=
    absurd (caseClosed_continues.sequence s hs n hn) (by rw [heq]; decide)
  run r hr c _ _ n hmap heq := by
    have habove : ∀ r ∈ upperRuns ++ lowerRuns, '<'.toNat < r.image r.first := by decide
    have hfirst := habove r hr
    obtain ⟨hlo, -, rfl⟩ := CaseRun.map?_eq_some hmap
    have hlt : '<'.toNat < r.image c.toNat := by
      rw [CaseRun.image] at hfirst ⊢
      omega
    by_cases hvalid : (r.image c.toNat).isValidChar
    · rw [Char.ofNat, dif_pos hvalid] at heq
      exact Nat.ne_of_gt hlt (congrArg Char.toNat heq)
    · rw [Char.ofNat, dif_neg hvalid] at heq
      exact absurd heq (by decide)
  final := by decide

namespace CaseClosed
variable {P : Char → Prop} (hP : CaseClosed P) {c : Char}
include hP

theorem mapCase {runs : List CaseRun} {sequences : List (Nat × List Nat)}
    (hruns : runs ⊆ upperRuns ++ lowerRuns) (hsequences : sequences ⊆ upperSequences ++ lowerSequences)
    (hc : P c) (hascii : ¬ c.toNat < 128) : ∀ c' ∈ mapCase runs sequences c, P c' := by
  intro c' hc'
  rw [Text.mapCase] at hc'
  split at hc'
  · rename_i ns hlookup
    obtain ⟨before, after, heq, -⟩ := List.lookup_eq_some_iff.1 hlookup
    have hmem : (c.toNat, ns) ∈ sequences := by simp [heq]
    obtain ⟨n, hn, rfl⟩ := List.mem_map.1 hc'
    exact hP.sequence _ (hsequences hmem) n hn
  · split at hc'
    · rename_i n hfound
      obtain ⟨r, hr, hmap⟩ := List.exists_of_findSome?_eq_some hfound
      rw [List.mem_singleton.1 hc']
      exact hP.run r (hruns hr) c hascii hc n hmap
    · rw [List.mem_singleton.1 hc']
      exact hc

theorem upper (hc : P c) : ∀ c' ∈ toUpper c, P c' := by
  rw [toUpper]
  split
  · rename_i hascii
    exact List.forall_mem_singleton.2 (hP.ascii c hascii hc).1
  · exact hP.mapCase (List.subset_append_left _ _) (List.subset_append_left _ _) hc ‹_›

theorem lower (hc : P c) : ∀ c' ∈ toLower c, P c' := by
  rw [toLower]
  split
  · rename_i hascii
    exact List.forall_mem_singleton.2 (hP.ascii c hascii hc).2
  · exact hP.mapCase (List.subset_append_right _ _) (List.subset_append_right _ _) hc ‹_›

/-! ## Capitalised names -/

theorem lowerWord {word : List Char} (h : ∀ c ∈ word, P c) :
    ∀ c ∈ lowerWord word, P c := by
  fun_induction Text.lowerWord word with
  | case1 => exact h
  | case2 => exact List.forall_mem_singleton.2 hP.final
  | case3 c rest _ ih =>
    intro c' hc'
    rcases List.mem_append.1 hc' with hc' | hc'
    · exact hP.lower (h c List.mem_cons_self) c' hc'
    · exact ih (fun x hx => h x (List.mem_cons_of_mem _ hx)) c' hc'

theorem capitalWord {word : List Char} (h : ∀ c ∈ word, P c) :
    ∀ c ∈ capitalWord word, P c := by
  cases word with
  | nil => exact h
  | cons c rest =>
    intro c' hc'
    rcases List.mem_append.1 hc' with hc' | hc'
    · exact hP.upper (h c List.mem_cons_self) c' hc'
    · exact hP.lowerWord (fun x hx => h x (List.mem_cons_of_mem _ hx)) c' hc'

end CaseClosed

theorem flatten_splitOnP (p : Char → Bool) (cs : List Char) :
    (cs.splitOnP p).flatten = cs.filter (!p ·) := by
  induction cs with
  | nil => rfl
  | cons c cs ih =>
    rw [List.splitOnP_cons_eq_if_modifyHead]
    split
    · rename_i hc
      simp [ih, hc]
    · rename_i hc
      obtain ⟨first, others, hsplit⟩ := List.exists_cons_of_ne_nil (List.splitOnP_ne_nil p cs)
      rw [hsplit, List.flatten_cons] at ih
      simp [hsplit, hc, ih]

theorem flatten_cutByCase (k : WordCase) (word cs : List Char) (h : cs ≠ []) :
    (cutByCase k word cs).flatten = word.reverse ++ cs := by
  fun_induction cutByCase k word cs with
  | case1 => exact absurd rfl h
  | case2 => simp
  | case3 _ _ _ _ _ _ ih => simp [ih (List.cons_ne_nil _ _)]
  | case4 _ _ _ _ _ _ _ ih => simp [ih (List.cons_ne_nil _ _)]
  | case5 _ _ _ _ _ _ _ ih => simp [ih (List.cons_ne_nil _ _)]

/-- **The words of a name are its letters and digits.** -/
theorem flatten_caseWords (s : String) :
    (caseWords s).flatten = s.toList.filter isAlphanumeric := by
  have hpieces : ∀ ps : List (List Char), (∀ piece ∈ ps, piece ≠ []) →
      (ps.flatMap (cutByCase .none [])).flatten = ps.flatten := by
    intro ps h
    induction ps with
    | nil => rfl
    | cons piece ps ih =>
      rw [List.flatMap_cons, List.flatten_append, ih fun q hq => h q (List.mem_cons_of_mem _ hq),
        flatten_cutByCase _ _ _ (h piece List.mem_cons_self)]
      rfl
  rw [caseWords, pieces, hpieces _ fun piece h => by simpa using (List.mem_filter.1 h).2,
    List.flatten_filter_not_isEmpty, flatten_splitOnP]
  simp

theorem CaseClosed.pascal {P : Char → Prop} (hP : CaseClosed P) {s : String}
    (h : ∀ c ∈ s.toList, isAlphanumeric c = true → P c) : ∀ c ∈ (pascal s).toList, P c := by
  intro c hc
  rw [Text.pascal, String.toList_ofList] at hc
  obtain ⟨word, hword, hc⟩ := List.mem_flatMap.1 hc
  refine hP.capitalWord (fun x hx => ?_) c hc
  obtain ⟨hx, halpha⟩ := List.mem_filter.1
    (flatten_caseWords s ▸ List.mem_flatten.2 ⟨word, hword, hx⟩)
  exact h x hx halpha

end Text

end Bindery
