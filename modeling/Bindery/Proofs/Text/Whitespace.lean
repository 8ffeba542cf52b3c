/-
  White space.

  Values of enumerations are told apart by words, numbers are read without the
  white space around them, and the types of scalars have a white space facet.  The
  facets of XML Schema speak of tabs, line feeds, carriage returns and spaces,
  character by character.  `Whitespace.normalize` cuts a value into words instead,
  at white space of any kind, and joins the words.

  * `words_intercalate`: words set apart by blanks are these words;
  * `replaced`, `collapsed`: the facets of the standard;
  * `normalize_standard`: where values are normalized as in the standard.
-/
import Mathlib.Data.List.DropRight
import Bindery.Proofs.Text.Identifier
import Bindery.Text.Whitespace

namespace Bindery.Text

/-! ## Trimming -/

theorem trimChars_of_ends {cs : List Char} (hhead : ∀ c ∈ cs.head?, isBlank c = false)
    (hlast : ∀ c ∈ cs.getLast?, isBlank c = false) : trimChars cs = cs := by
  have hkeep : ∀ {cs : List Char}, (∀ c ∈ cs.head?, isBlank c = false) →
      cs.dropWhile isBlank = cs := by
    intro cs h
    cases cs with
    | nil => rfl
    | cons c cs => rw [List.dropWhile_cons_of_neg (by simp [h c rfl])]
  rw [trimChars, hkeep hhead, hkeep (by rwa [List.head?_reverse]), List.reverse_reverse]

theorem trimChars_of_solid {cs : List Char} (h : ∀ c ∈ cs, isBlank c = false) :
    trimChars cs = cs :=
  trimChars_of_ends (fun c hc => h c (List.mem_of_mem_head? hc))
    fun c hc => h c (List.mem_of_mem_getLast? hc)

theorem trimChars_append {before after : List Char} (h : ∀ c ∈ before ++ after, isBlank c = true)
    (cs : List Char) : trimChars (before ++ cs ++ after) = trimChars cs := by
  have hbefore : ∀ c ∈ before, isBlank c = true := fun c hc => h c (List.mem_append_left _ hc)
  have hafter : ∀ c ∈ after, isBlank c = true := fun c hc => h c (List.mem_append_right _ hc)
  rw [trimChars, List.append_assoc, List.dropWhile_append_of_pos hbefore, List.dropWhile_append]
  split
  · rename_i hnil
    rw [List.dropWhile_eq_nil_iff.2 hafter, trimChars, List.isEmpty_iff.1 hnil]
  · rw [List.reverse_append, List.dropWhile_append_of_pos (by simpa using hafter), trimChars]

theorem exists_trimmed (cs : List Char) : ∃ before after, cs = before ++ trimChars cs ++ after ∧
    ∀ c ∈ before ++ after, isBlank c = true := by
  refine ⟨cs.takeWhile isBlank, (cs.dropWhile isBlank).rtakeWhile isBlank, ?_, fun c hc => ?_⟩
  · have htrim : trimChars cs = (cs.dropWhile isBlank).rdropWhile isBlank := rfl
    rw [List.append_assoc, htrim, List.rdropWhile_append_rtakeWhile,
      List.takeWhile_append_dropWhile]
  · rcases List.mem_append.1 hc with hc | hc
    · exact List.mem_takeWhile_imp hc
    · exact List.mem_takeWhile_imp (List.mem_reverse.1 hc)

/-! ## Words -/

def IsSolid (s : String) : Prop := ∀ c ∈ s.toList, isBlank c = false

-- Named, so that the members are tested and not every character.
instance (s : String) : Decidable (IsSolid s) := List.decidableBAll (isBlank · = false) s.toList

theorem splitOnP_intercalate : ∀ {ws : List (List Char)}, ws ≠ [] →
    (∀ w ∈ ws, ∀ c ∈ w, isBlank c = false) → ([' '].intercalate ws).splitOnP isBlank = ws
  | [w], _, h => by
    rw [List.intercalate_singleton]
    exact List.splitOnP_eq_singleton (h w List.mem_cons_self)
  | w :: w' :: ws, _, h => by
    rw [List.intercalate_cons_cons, List.append_assoc, List.singleton_append,
      List.splitOnP_append_cons_of_forall_mem (h w List.mem_cons_self) ' ' (by decide),
      splitOnP_intercalate (List.cons_ne_nil _ _) fun v hv => h v (List.mem_cons_of_mem _ hv)]

theorem words_intercalate {ws : List String} (h : ∀ w ∈ ws, w ≠ "" ∧ IsSolid w) :
    words (" ".intercalate ws) = ws := by
  cases hws : ws with
  | nil => rfl
  | cons w rest =>
    rw [← hws]
    have hsolid : ∀ cs ∈ ws.map String.toList, ∀ c ∈ cs, isBlank c = false := by
      intro cs hcs
      obtain ⟨v, hv, rfl⟩ := List.mem_map.1 hcs
      exact (h v hv).2
    have hkeep : (ws.map String.toList).filter (!·.isEmpty) = ws.map String.toList := by
      refine List.filter_eq_self.2 fun cs hcs => ?_
      obtain ⟨v, hv, rfl⟩ := List.mem_map.1 hcs
      simpa using (h v hv).1
    have hne : ws.map String.toList ≠ [] := by simp [hws]
    have hback : (ws.map String.toList).map String.ofList = ws := by
      rw [List.map_map]
      exact (List.map_congr_left fun v _ => String.ofList_toList).trans (List.map_id ws)
    rw [words, pieces, String.toList_intercalate, show " ".toList = [' '] from rfl,
      splitOnP_intercalate hne hsolid, hkeep, hback]

theorem mem_pieces {cs w : List Char} (h : w ∈ pieces isBlank cs) :
    w ≠ [] ∧ ∀ c ∈ w, isBlank c = false := by
  obtain ⟨hw, hne⟩ := List.mem_filter.1 h
  refine ⟨by simpa using hne, fun c hc => ?_⟩
  have hkept : c ∈ cs.filter (!isBlank ·) := flatten_splitOnP _ _ ▸ List.mem_flatten.2 ⟨w, hw, hc⟩
  simpa using (List.mem_filter.1 hkept).2

theorem words_solid (s : String) : ∀ w ∈ words s, w ≠ "" ∧ IsSolid w := by
  intro w hw
  obtain ⟨piece, hp, rfl⟩ := List.mem_map.1 hw
  obtain ⟨hne, hsolid⟩ := mem_pieces hp
  exact ⟨by simpa using hne, by simpa [IsSolid] using hsolid⟩

/-! ## The facets of the standard -/

/-- The value with a space for every tab, line feed and carriage return. -/
def replaced (cs : List Char) : List Char :=
  cs.map fun c => if c.toNat ∈ [0x9, 0xa, 0xd] then ' ' else c

/-- The value with one space for every run of spaces. -/
def contracted : List Char → List Char
  | [] => []
  | c :: cs => if c = ' ' ∧ cs.head? = some ' ' then contracted cs else c :: contracted cs

def stripped (cs : List Char) : List Char := (cs.rdropWhile (· = ' ')).dropWhile (· = ' ')

def collapsed (cs : List Char) : List Char := stripped (contracted (replaced cs))

def spaced (cs : List Char) : List Char := cs.map fun c => if isBlank c then ' ' else c

theorem ne_space_of_solid {c : Char} (h : isBlank c = false) : c ≠ ' ' := by
  rintro rfl
  cases h

theorem rdropWhile_cons {α : Type} (p : α → Bool) (a : α) (as : List α) :
    (a :: as).rdropWhile p =
      if p a = true ∧ as.rdropWhile p = [] then [] else a :: as.rdropWhile p := by
  simp only [List.rdropWhile, List.reverse_cons, List.dropWhile_append]
  by_cases has : as.reverse.dropWhile p = [] <;> by_cases ha : p a = true <;> simp [has, ha]

theorem intercalate_cons (c : Char) (w : List Char) : ∀ ws : List (List Char),
    [c].intercalate (w :: ws) = w ++ ws.flatMap (c :: ·)
  | [] => by simp
  | v :: ws => by
    rw [List.intercalate_cons_cons, intercalate_cons c v ws]
    simp

theorem contracted_spaced (cs : List Char) :
    ∀ first others, cs.splitOnP isBlank = first :: others →
      (contracted (spaced cs)).rdropWhile (· = ' ') =
        first ++ (others.filter (!·.isEmpty)).flatMap (' ' :: ·) := by
  induction cs with
  | nil =>
    rintro _ _ ⟨⟩
    rfl
  | cons c cs ih =>
    intro first others h
    obtain ⟨next, later, hcs⟩ := List.exists_cons_of_ne_nil (List.splitOnP_ne_nil isBlank cs)
    have ih := ih next later hcs
    rw [List.splitOnP_cons_eq_if_modifyHead, hcs] at h
    cases hc : isBlank c with
    | false =>
      rw [if_neg (by simp [hc])] at h
      cases h
      have hne := ne_space_of_solid hc
      have hspaced : spaced (c :: cs) = c :: spaced cs := by simp [spaced, hc]
      rw [hspaced, contracted, if_neg fun h => hne h.1, rdropWhile_cons, if_neg (by simp [hne]), ih]
      rfl
    | true =>
      rw [if_pos hc] at h
      cases h
      have hspaced : spaced (c :: cs) = ' ' :: spaced cs := by simp [spaced, hc]
      rw [hspaced, contracted]
      -- white space is dropped before more of it, and kept before a word
      cases cs with
      | nil =>
        cases hcs
        rfl
      | cons d cs =>
        rw [List.splitOnP_cons_eq_if_modifyHead] at hcs
        cases hd : isBlank d with
        | true =>
          rw [if_pos hd] at hcs
          cases hcs
          rw [if_pos ⟨rfl, by simp [spaced, hd]⟩, ih]
          rfl
        | false =>
          obtain ⟨first, others, hrest⟩ :=
            List.exists_cons_of_ne_nil (List.splitOnP_ne_nil isBlank cs)
          rw [if_neg (by simp [hd]), hrest] at hcs
          cases hcs
          have hhead : (spaced (d :: cs)).head? = some d := by simp [spaced, hd]
          rw [if_neg (by simp [hhead, ne_space_of_solid hd]), rdropWhile_cons, ih]
          simp

theorem replaced_spaced (cs : List Char) : replaced (spaced cs) = spaced cs := by
  refine (List.map_congr_left fun c hc => ?_).trans (List.map_id _)
  obtain ⟨d, -, rfl⟩ := List.mem_map.1 hc
  cases hd : isBlank d with
  | true => simp
  | false =>
    have hcontrol : ¬ d.toNat ∈ [0x9, 0xa, 0xd] := by
      simp [isBlank] at hd ⊢
      omega
    simp [hcontrol]

/-- **Words are joined as the standard collapses**, if it takes all white space for
    spaces. -/
theorem toList_collapse (s : String) :
    (Whitespace.collapse.normalize s).toList = collapsed (spaced s.toList) := by
  have hpieces : (Whitespace.collapse.normalize s).toList =
      [' '].intercalate (pieces isBlank s.toList) := by
    simp [Whitespace.normalize, words, String.toList_intercalate, Function.comp_def]
  have hword : ∀ w ∈ pieces isBlank s.toList, ∀ rest : List Char,
      (w ++ rest).dropWhile (· = ' ') = w ++ rest := by
    intro w hw rest
    obtain ⟨hne, hsolid⟩ := mem_pieces hw
    obtain ⟨c, w, rfl⟩ := List.exists_cons_of_ne_nil hne
    exact List.dropWhile_cons_of_neg (by simp [ne_space_of_solid (hsolid c List.mem_cons_self)])
  obtain ⟨first, others, hsplit⟩ :=
    List.exists_cons_of_ne_nil (List.splitOnP_ne_nil isBlank s.toList)
  have hall : pieces isBlank s.toList = (first :: others).filter (!·.isEmpty) := by
    rw [pieces, hsplit]
  rw [hpieces, collapsed, stripped, replaced_spaced, contracted_spaced _ _ _ hsplit]
  cases first with
  | nil =>
    rw [List.filter_cons_of_neg (by simp)] at hall
    rw [← hall]
    cases hws : pieces isBlank s.toList with
    | nil => rfl
    | cons w ws =>
      rw [intercalate_cons]
      exact (hword w (hws ▸ List.mem_cons_self) _).symm
  | cons c first =>
    rw [List.filter_cons_of_pos (by simp)] at hall
    rw [hword _ (hall ▸ List.mem_cons_self), hall, intercalate_cons]

/-! ## The facets compared -/

/-- The white space that the facets of the standard know. -/
def facetBlanks : List Char := [' ', '\t', '\n', '\r']

theorem replaceBlank_eq (c : Char) :
    replaceBlank c = if c.toNat ∈ [0x9, 0xa, 0xd] then ' ' else c := by
  simp [replaceBlank, ← Char.toNat_inj, or_assoc]

theorem replaceBlank_ite (c : Char) : replaceBlank c = if c ∈ facetBlanks then ' ' else c := by
  simp only [replaceBlank, facetBlanks]
  grind

theorem isBlank_of_mem : ∀ c ∈ facetBlanks, isBlank c = true := by
  simp [facetBlanks]
  decide

theorem mem_contracted {c : Char} (hc : c ≠ ' ') (cs : List Char) : c ∈ contracted cs ↔ c ∈ cs := by
  fun_induction contracted cs with
  | case1 => rfl
  | case2 d cs hd ih => simp [ih, hd.1, hc]
  | case3 d cs hd ih => simp [ih]

theorem mem_dropWhile {c : Char} (hc : c ≠ ' ') (cs : List Char) :
    c ∈ cs.dropWhile (· = ' ') ↔ c ∈ cs := by
  induction cs with
  | nil => rfl
  | cons d cs ih =>
    by_cases hd : d = ' ' <;> simp [List.dropWhile, hd, ih, hc]

/-- Only spaces are lost where a value is collapsed. -/
theorem mem_collapsed {c : Char} (hc : c ≠ ' ') (cs : List Char) :
    c ∈ collapsed cs ↔ c ∈ replaced cs := by
  rw [collapsed, stripped, mem_dropWhile hc, List.rdropWhile, List.mem_reverse, mem_dropWhile hc,
    List.mem_reverse, mem_contracted hc]

/-- **White space facets**: tabs and line ends are replaced as in the standard, and
    values are collapsed as in the standard if and only if they have no other white
    space; any other is collapsed as well.  What is normalized stays as it is, and
    replacing comes to nothing before collapsing. -/
theorem normalize_standard (s : String) :
    (Whitespace.replace.normalize s).toList = replaced s.toList ∧
      (Whitespace.collapse.normalize s).toList = collapsed (spaced s.toList) ∧
      ((Whitespace.collapse.normalize s).toList = collapsed s.toList ↔
        ∀ c ∈ s.toList, isBlank c = true → c ∈ facetBlanks) ∧
      (∀ w : Whitespace, w.normalize (w.normalize s) = w.normalize s) ∧
      Whitespace.collapse.normalize (Whitespace.replace.normalize s) =
        Whitespace.collapse.normalize s := by
  have hreplace : (Whitespace.replace.normalize s).toList = s.toList.map replaceBlank := by
    simp [Whitespace.normalize]
  refine ⟨?_, toList_collapse s, ⟨fun heq c hc hblank => ?_, fun h => ?_⟩, fun w => ?_, ?_⟩
  · rw [hreplace, replaced, funext replaceBlank_eq]
  · -- the standard leaves other white space, and there is none in the words
    by_contra hother
    have hne : c ≠ ' ' := fun h => hother (h ▸ List.mem_cons_self)
    have hkept : c ∈ replaced s.toList :=
      List.mem_map.2 ⟨c, hc, by rw [← replaceBlank_eq, replaceBlank_ite, if_neg hother]⟩
    rw [← mem_collapsed hne, ← heq, toList_collapse, mem_collapsed hne, replaced_spaced] at hkept
    obtain ⟨d, -, hd⟩ := List.mem_map.1 hkept
    grind
  · have hspaced : spaced s.toList = replaced s.toList := by
      refine List.map_congr_left fun c hc => ?_
      rw [← replaceBlank_eq, replaceBlank_ite]
      exact if_congr ⟨h c hc, isBlank_of_mem c⟩ rfl rfl
    rw [toList_collapse, collapsed, replaced_spaced, hspaced, collapsed]
  · cases w with
    | preserve => rfl
    | replace =>
      rw [← String.toList_inj]
      simp only [Whitespace.normalize, String.toList_ofList, List.map_map]
      refine List.map_congr_left fun c _ => ?_
      simp only [Function.comp_apply, replaceBlank_ite]
      grind
    | collapse =>
      rw [Whitespace.normalize, Whitespace.normalize, words_intercalate (words_solid s)]
  · rw [← String.toList_inj, toList_collapse, toList_collapse, hreplace, spaced, List.map_map]
    refine congrArg collapsed (List.map_congr_left fun c _ => ?_)
    simp only [Function.comp_apply, replaceBlank_ite]
    grind [isBlank_of_mem]

theorem noBreak_collapsed :
    (Whitespace.collapse.normalize "a\u00a0b").toList ≠ collapsed "a\u00a0b".toList := by
  decide

end Bindery.Text
