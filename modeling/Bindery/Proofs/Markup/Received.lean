/-
  Content as it is read back.

  Only the characters that markup uses are written as references.  The others
  stand in a text as they are, and reading changes some of them: tabulators and
  line ends of a value become spaces, and a carriage return of a text becomes a
  line feed, unless a reference next to it keeps it from being looked at again.

  * `receivedValue`, `receivedText`: what values and texts are read as;
  * `receivedValue_eq_self_iff`, `receivedText_eq_self_iff`: which of them are
    read as they were;
  * `Content.received`: the same for content.
-/
import Bindery.Markup.Reader
import Bindery.Proofs.Markup.Lexing

namespace Bindery.Markup

/-- Whether the character is written as a reference. -/
def isMarked (ch : Char) : Bool := ['<', '>', '&', '\'', '"'].contains ch

theorem escapeMarkup_of_not_isMarked {ch : Char} (h : isMarked ch = false) :
    escapeMarkup ch = [ch] := by
  unfold escapeMarkup
  split
  case h_6 => rfl
  all_goals exact absurd h (by decide)

theorem isMarked_cases {ch : Char} (h : isMarked ch = true) :
    ch = '<' ∨ ch = '>' ∨ ch = '&' ∨ ch = '\'' ∨ ch = '"' := by
  simpa [isMarked] using h

theorem escapeMarkup_of_isMarked {ch : Char} (h : isMarked ch = true) :
    ∃ s, isLocalName s = true ∧ reference.named s = .char ch ∧
      escapeMarkup ch = '&' :: (s.toList ++ [';']) := by
  rcases isMarked_cases h with rfl | rfl | rfl | rfl | rfl
  · exact ⟨"lt", by decide, rfl, by decide⟩
  · exact ⟨"gt", by decide, rfl, by decide⟩
  · exact ⟨"amp", by decide, rfl, by decide⟩
  · exact ⟨"apos", by decide, rfl, by decide⟩
  · exact ⟨"quot", by decide, rfl, by decide⟩

theorem head?_escaped {s : List Char} {x : Char} (hx : x ≠ '&') (hm : isMarked x = false) :
    (s.flatMap escapeMarkup).head? = some x ↔ s.head? = some x := by
  cases s with
  | nil => simp
  | cons ch s =>
    rw [List.flatMap_cons]
    by_cases hch : isMarked ch = true
    · obtain ⟨s, -, -, hs⟩ := escapeMarkup_of_isMarked hch
      rw [hs]
      constructor
      · intro h
        exact absurd (Option.some.inj h).symm hx
      · intro h
        rw [Option.some.inj h, hm] at hch
        cases hch
    · rw [escapeMarkup_of_not_isMarked (by simpa using hch)]
      simp

theorem isEmpty_escaped (s : List Char) : (s.flatMap escapeMarkup).isEmpty = s.isEmpty := by
  cases s with
  | nil => rfl
  | cons ch s =>
    by_cases hch : isMarked ch = true
    · obtain ⟨s, -, -, hs⟩ := escapeMarkup_of_isMarked hch
      simp [hs]
    · simp [escapeMarkup_of_not_isMarked (by simpa using hch)]

/-! ## Values -/

/-- The characters of a value as they are read. -/
def receivedValue : List Char → List Char
  | [] => []
  | ch :: s => valueChar ch s.head? ++ receivedValue s

/-- Whether the character stands for itself in a value. -/
def isKeptInValue (ch : Char) : Bool := ch != '\t' && ch != '\n' && ch != '\r'

theorem valueChar_of_isKept {ch : Char} (h : isKeptInValue ch = true) (next : Option Char) :
    valueChar ch next = [ch] := by
  simp only [isKeptInValue, Bool.and_eq_true, bne_iff_ne] at h
  simp [valueChar, h.1.1, h.1.2, h.2]

theorem isKeptInValue_of_isMarked {ch : Char} (h : isMarked ch = true) :
    isKeptInValue ch = true := by
  rcases isMarked_cases h with rfl | rfl | rfl | rfl | rfl <;> rfl

theorem head?_receivedValue {ch : Char} (h : isKeptInValue ch = false) (s : List Char) :
    (receivedValue (ch :: s)).head? = some ' ' := by
  have hch : ch = '\t' ∨ ch = '\n' ∨ ch = '\r' := by
    simp only [isKeptInValue, Bool.and_eq_false_iff, bne_eq_false_iff_eq] at h
    tauto
  rcases hch with rfl | rfl | rfl
  · rfl
  · rfl
  · rw [receivedValue]
    cases s with
    | nil => rfl
    | cons x s =>
      by_cases hx : x = '\n'
      · -- the line feed takes the place of both
        subst hx
        rfl
      · simp [valueChar, hx]

/-- **A value is read as it was exactly if it has no line ends and
    tabulators.** -/
theorem receivedValue_eq_self_iff (s : List Char) :
    receivedValue s = s ↔ ∀ ch ∈ s, ch ≠ '\t' ∧ ch ≠ '\n' ∧ ch ≠ '\r' := by
  induction s with
  | nil => simp [receivedValue]
  | cons ch s ih =>
    by_cases hch : isKeptInValue ch = true
    · have hne : ch ≠ '\t' ∧ ch ≠ '\n' ∧ ch ≠ '\r' := by
        simpa [isKeptInValue, and_assoc] using hch
      rw [receivedValue, valueChar_of_isKept hch, List.singleton_append, List.cons.injEq, ih]
      simp [hne]
    · have hhead := head?_receivedValue (by simpa using hch) s
      constructor
      · intro heq
        rw [heq] at hhead
        obtain rfl : ch = ' ' := Option.some.inj hhead
        exact absurd rfl hch
      · intro hall
        exact absurd (by simpa [isKeptInValue, and_assoc] using hall ch List.mem_cons_self) hch

/-! ## Texts -/

/-- What a carriage return is read as before the text `s`: a line feed, which a
    line feed after it goes with.  It stays where a reference comes next, and at
    the end of a text behind a reference. -/
def receivedReturn (marked : Bool) (s : List Char) : List Char :=
  match s with
  | [] => if marked then ['\r'] else ['\n']
  | x :: _ => if x = '\n' then [] else if isMarked x then ['\r'] else ['\n']

/-- The characters of a text as they are read, behind a reference if it is
    `marked`. -/
def receivedText (marked : Bool) : List Char → List Char
  | [] => []
  | ch :: s =>
    (if ch = '\r' then receivedReturn marked s else [ch]) ++ receivedText (isMarked ch) s

theorem receivedText_return (marked : Bool) (s : List Char) :
    receivedText marked ('\r' :: s) = receivedReturn marked s ++ receivedText false s := rfl

theorem receivedText_cons {ch : Char} (h : ch ≠ '\r') (marked : Bool) (s : List Char) :
    receivedText marked (ch :: s) = ch :: receivedText (isMarked ch) s := by
  simp [receivedText, h]

theorem receivedText_ne_nil {s : List Char} (h : s ≠ []) (marked : Bool) :
    receivedText marked s ≠ [] := by
  induction s generalizing marked with
  | nil => exact absurd rfl h
  | cons ch s ih =>
    by_cases hch : ch = '\r'
    · subst hch
      rw [receivedText_return]
      cases s with
      | nil => cases marked <;> simp [receivedReturn]
      | cons x s =>
        have hrest := ih (List.cons_ne_nil x s) false
        simp [hrest]
    · simp [receivedText_cons hch]

/-- Whether every carriage return of the text has a reference right behind it
    or, at the end, right before it. -/
def ReturnsGuarded (marked : Bool) (s : List Char) : Prop :=
  ∀ before after, s = before ++ '\r' :: after → after.head?.any isMarked = true ∨
    after = [] ∧ (before.getLast?.map isMarked).getD marked = true

theorem returnsGuarded_cons (marked : Bool) (ch : Char) (s : List Char) :
    ReturnsGuarded marked (ch :: s) ↔
      (ch = '\r' → s.head?.any isMarked = true ∨ s = [] ∧ marked = true) ∧
        ReturnsGuarded (isMarked ch) s := by
  constructor
  · intro h
    refine ⟨?_, ?_⟩
    · rintro rfl
      simpa using h [] s rfl
    · rintro before after rfl
      have hsplit := h (ch :: before) after rfl
      cases before with
      | nil => simpa using hsplit
      | cons x before => simpa [List.getLast?_cons] using hsplit
  · rintro ⟨hfirst, hrest⟩ before after heq
    cases before with
    | nil =>
      obtain ⟨rfl, rfl⟩ := List.cons.inj heq
      simpa using hfirst rfl
    | cons x before =>
      obtain ⟨rfl, rfl⟩ := List.cons.inj heq
      have hsplit := hrest before after rfl
      cases before with
      | nil => simpa using hsplit
      | cons y before => simpa [List.getLast?_cons] using hsplit

theorem receivedText_return_eq_iff (marked : Bool) (s : List Char) :
    receivedText marked ('\r' :: s) = '\r' :: s ↔
      (s.head?.any isMarked = true ∨ s = [] ∧ marked = true) ∧ receivedText false s = s := by
  rw [receivedText_return]
  cases s with
  | nil => cases marked <;> simp [receivedReturn, receivedText]
  | cons x s =>
    by_cases hx : x = '\n'
    · subst hx
      simp [receivedReturn, receivedText, isMarked]
    · by_cases hm : isMarked x = true <;> simp [receivedReturn, hx, hm]

/-- **A text is read as it was exactly if a reference guards every carriage
    return.** -/
theorem receivedText_eq_self_iff (marked : Bool) (s : List Char) :
    receivedText marked s = s ↔ ReturnsGuarded marked s := by
  induction s generalizing marked with
  | nil => simp [receivedText, ReturnsGuarded]
  | cons ch s ih =>
    rw [returnsGuarded_cons, ← ih]
    by_cases hch : ch = '\r'
    · subst hch
      rw [receivedText_return_eq_iff]
      simp [isMarked]
    · simp [receivedText_cons hch, hch]

instance (marked : Bool) (s : List Char) : Decidable (ReturnsGuarded marked s) :=
  decidable_of_iff _ (receivedText_eq_self_iff marked s)

/-! ## Content -/

def valueReceived (s : String) : String := String.ofList (receivedValue s.toList)

def textReceived (s : String) : String := String.ofList (receivedText false s.toList)

theorem ofList_eq_iff {cs : List Char} {s : String} : String.ofList cs = s ↔ cs = s.toList := by
  constructor
  · rintro rfl
    rw [String.toList_ofList]
  · rintro rfl
    rw [String.ofList_toList]

theorem textReceived_eq_empty {s : String} : textReceived s = "" ↔ s = "" := by
  rw [textReceived, ofList_eq_iff]
  constructor
  · intro h
    by_contra hne
    exact receivedText_ne_nil (mt String.toList_eq_nil_iff.1 hne) false h
  · rintro rfl
    rfl

mutual

def Content.received : Content → Content
  | .text s => .text (textReceived s)
  | .element tag attributes content =>
    .element tag (attributes.map fun a => (a.1, valueReceived a.2)) (receivedAll content)

def receivedAll : List Content → List Content
  | [] => []
  | c :: cs => c.received :: receivedAll cs

end

theorem receivedAll_eq_map (cs : List Content) : receivedAll cs = cs.map Content.received := by
  induction cs with
  | nil => rfl
  | cons c cs ih => rw [receivedAll, ih, List.map_cons]

theorem receivedAll_append (cs ds : List Content) :
    receivedAll (cs ++ ds) = receivedAll cs ++ receivedAll ds := by
  simp only [receivedAll_eq_map, List.map_append]

theorem Content.isElement_received (c : Content) : c.received.isElement = c.isElement := by
  cases c <;> rfl

theorem valueReceived_of_legal {s : String} (h : s.toList.all isValueChar = true) :
    valueReceived s = s := by
  rw [valueReceived, ofList_eq_iff, receivedValue_eq_self_iff]
  intro ch hch
  have := List.all_eq_true.1 h ch hch
  simp only [isValueChar, isTextChar, Bool.and_eq_true, bne_iff_ne] at this
  exact ⟨this.2, this.1.2, this.1.1.2⟩

theorem textReceived_of_legal {s : String} (h : s.toList.all isTextChar = true) :
    textReceived s = s := by
  rw [textReceived, ofList_eq_iff, receivedText_eq_self_iff]
  intro before after heq
  have := List.all_eq_true.1 h '\r' (by simp [heq])
  simp [isTextChar] at this

mutual

theorem Content.Legal.received_eq : ∀ {c : Content}, c.Legal → c.received = c
  | .text s, h => by rw [Content.received, textReceived_of_legal h.2]
  | .element tag attributes content, h => by
    obtain ⟨-, hattributes, -, hcontent⟩ := h
    have hvalues : attributes.map (fun a => (a.1, valueReceived a.2)) = attributes := by
      refine (List.map_congr_left fun a ha => ?_).trans (List.map_id attributes)
      rw [valueReceived_of_legal (hattributes a ha).2.2]
      rfl
    rw [Content.received, hvalues, receivedAll_eq_self hcontent]

theorem receivedAll_eq_self : ∀ {cs : List Content}, SpelledAll isValueChar isTextChar cs →
    receivedAll cs = cs
  | [], _ => rfl
  | c :: cs, h => by rw [receivedAll, Content.Legal.received_eq h.1, receivedAll_eq_self h.2.2]

end

end Bindery.Markup
