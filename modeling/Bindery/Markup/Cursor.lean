/-
  Reading a text from the front.

  A `Cursor` is what is left of a text together with its place.  Every
  operation of this module goes forward: what it leaves is what `Cursor.drop`
  leaves, and the lemmas `size_…` say that it is not longer than before (and
  shorter where something is required), which is what the loops of the lexer
  end by.
-/
import Bindery.Markup.Error

namespace Bindery.Markup

/-! ## Characters -/

def isSpace (c : Char) : Bool :=
  c == ' ' || c == '\t' || c == '\n' || c == '\r'

def isXmlChar (c : Char) : Bool :=
  if c.toNat < 0x20 then isSpace c else c.toNat != 0xfffe && c.toNat != 0xffff

def isNameStart (c : Char) : Bool :=
  let n := c.toNat
  if n < 128 then c.isAlpha || c == ':' || c == '_'
  else (0xc0 ≤ n && n ≤ 0xd6) || (0xd8 ≤ n && n ≤ 0xf6) || (0xf8 ≤ n && n ≤ 0x2ff)
    || (0x370 ≤ n && n ≤ 0x37d) || (0x37f ≤ n && n ≤ 0x1fff) || (0x200c ≤ n && n ≤ 0x200d)
    || (0x2070 ≤ n && n ≤ 0x218f) || (0x2c00 ≤ n && n ≤ 0x2fef) || (0x3001 ≤ n && n ≤ 0xd7ff)
    || (0xf900 ≤ n && n ≤ 0xfdcf) || (0xfdf0 ≤ n && n ≤ 0xfffd) || (0x10000 ≤ n && n ≤ 0xeffff)

def isNameChar (c : Char) : Bool :=
  let n := c.toNat
  isNameStart c || c.isDigit || c == '-' || c == '.'
    || n == 0xb7 || (0x300 ≤ n && n ≤ 0x36f) || (0x203f ≤ n && n ≤ 0x2040)

/-! ## Cursors -/

/-- What is left of a text, and its place. -/
structure Cursor where
  rest : List Char
  pos : Position := {}
deriving Repr

/-- A stretch of a text with the place it begins at. -/
abbrev Fragment := Cursor

namespace Cursor

def size (c : Cursor) : Nat := c.rest.length

def drop : Nat → Cursor → Cursor
  | 0, c => c
  | n + 1, ⟨[], p⟩ => drop n ⟨[], p⟩
  | n + 1, ⟨ch :: cs, p⟩ => drop n ⟨cs, p.after ch⟩

@[simp] theorem rest_drop (n : Nat) (c : Cursor) : (c.drop n).rest = c.rest.drop n := by
  induction n generalizing c with
  | zero => rfl
  | succ n ih =>
    obtain ⟨cs, p⟩ := c
    cases cs with
    | nil => simp [drop, ih]
    | cons ch cs => simp [drop, ih]

@[simp] theorem size_drop (n : Nat) (c : Cursor) : (c.drop n).size = c.size - n := by
  simp [size]

def startsWith (c : Cursor) (s : String) : Bool :=
  s.toList.isPrefixOf c.rest

def skipWhile (p : Char → Bool) (c : Cursor) : Cursor :=
  c.drop (c.rest.takeWhile p).length

theorem size_skipWhile (p : Char → Bool) (c : Cursor) : (c.skipWhile p).size ≤ c.size := by
  simp [skipWhile]

def skipSpaces (c : Cursor) : Cursor :=
  c.skipWhile isSpace

theorem size_skipSpaces (c : Cursor) : c.skipSpaces.size ≤ c.size :=
  c.size_skipWhile isSpace

def byte (c : Cursor) : Except Error Nat :=
  match c.rest with
  | [] => .error .endOfText
  | ch :: _ => .ok (leadByte ch)

def require (ch : Char) (c : Cursor) : Except Error Cursor :=
  match c.rest with
  | [] => .error .endOfText
  | x :: _ => if x = ch then .ok (c.drop 1) else .error (.requiredChar ch (leadByte x) c.pos)

theorem size_require {ch : Char} {c d : Cursor} (h : c.require ch = .ok d) : d.size < c.size := by
  obtain ⟨cs, p⟩ := c
  cases cs with
  | nil => simp [require] at h
  | cons x cs =>
    by_cases hx : x = ch
    · simp only [require, hx, ↓reduceIte, Except.ok.injEq] at h
      subst h
      simp [size]
    · simp [require, hx] at h

def requireText (s : String) (c : Cursor) : Except Error Cursor :=
  if c.startsWith s then .ok (c.drop s.length) else .error (.requiredText s c.pos)

theorem size_requireText {s : String} {c d : Cursor} (h : c.requireText s = .ok d) :
    d.size ≤ c.size := by
  by_cases hs : c.startsWith s
  · simp only [requireText, hs, ↓reduceIte, Except.ok.injEq] at h
    subst h
    simp
  · simp [requireText, hs] at h

def requireSpaces (c : Cursor) : Except Error Cursor :=
  match c.rest with
  | [] => .error .endOfText
  | x :: _ =>
    if isSpace x then .ok c.skipSpaces else .error (.required "a whitespace" (leadByte x) c.pos)

theorem size_requireSpaces {c d : Cursor} (h : c.requireSpaces = .ok d) : d.size ≤ c.size := by
  unfold requireSpaces at h
  split at h
  · cases h
  · split at h
    · cases h
      exact c.size_skipSpaces
    · cases h

def requireQuote (c : Cursor) : Except Error (Char × Cursor) :=
  match c.rest with
  | [] => .error .endOfText
  | x :: _ =>
    if x = '\'' || x = '"' then .ok (x, c.drop 1)
    else .error (.required "a quote" (leadByte x) c.pos)

theorem size_requireQuote {c d : Cursor} {q : Char} (h : c.requireQuote = .ok (q, d)) :
    d.size < c.size := by
  obtain ⟨cs, p⟩ := c
  cases cs with
  | nil => simp [requireQuote] at h
  | cons x cs =>
    simp only [requireQuote] at h
    split at h
    · simp only [Except.ok.injEq, Prod.mk.injEq] at h
      obtain ⟨-, rfl⟩ := h
      simp [size]
    · simp at h

/-- The number of characters before the first suffix that satisfies `stop`,
    or before the first character no document may hold, which is given too. -/
def scanLength (stop : List Char → Bool) : List Char → Nat × Option Char
  | [] => (0, none)
  | ch :: cs =>
    if !isXmlChar ch then (0, some ch)
    else if stop (ch :: cs) then (0, none)
    else
      let (n, bad) := scanLength stop cs
      (n + 1, bad)

/-- The characters before the first suffix that satisfies `stop`, and the
    cursor there.  All of them must be allowed in a document. -/
def scan (stop : List Char → Bool) (c : Cursor) : Except Error (List Char × Cursor) :=
  match scanLength stop c.rest with
  | (n, none) => .ok (c.rest.take n, c.drop n)
  | (n, some bad) => .error (.nonXmlChar bad (c.drop n).pos)

theorem size_scan {stop : List Char → Bool} {c d : Cursor} {cs : List Char}
    (h : c.scan stop = .ok (cs, d)) : d.size ≤ c.size := by
  unfold scan at h
  split at h
  · simp only [Except.ok.injEq, Prod.mk.injEq] at h
    obtain ⟨-, rfl⟩ := h
    simp
  · simp at h

def scanTo (s : String) (c : Cursor) : Except Error (List Char × Cursor) :=
  c.scan (s.toList.isPrefixOf ·)

/-! ## Names -/

/-- A name as it is written: what stands before the colon, if anything, and
    what stands behind it. -/
structure Label where
  qualifier : String
  name : String
deriving DecidableEq, Repr, Inhabited

def Label.text (l : Label) : String :=
  if l.qualifier = "" then l.name else l.qualifier ++ ":" ++ l.name

def name (c : Cursor) : Except Error (String × Cursor) :=
  match c.rest with
  | [] => .error (.invalidName c.pos)
  | x :: cs =>
    if isNameStart x then
      let tail := cs.takeWhile isNameChar
      .ok (String.ofList (x :: tail), c.drop (tail.length + 1))
    else .error (.invalidName c.pos)

theorem size_name {c d : Cursor} {s : String} (h : c.name = .ok (s, d)) : d.size < c.size := by
  unfold name at h
  split at h
  · cases h
  · next x cs hc =>
    split at h
    · cases h
      have : 0 < c.size := by simp [size, hc]
      simp only [size_drop]
      omega
    · cases h

def skipName (c : Cursor) : Except Error Cursor :=
  if c.rest = [] then .ok c else (·.2) <$> c.name

theorem size_skipName {c d : Cursor} (h : c.skipName = .ok d) : d.size ≤ c.size := by
  unfold skipName at h
  split at h
  · cases h
    exact Nat.le_refl _
  · cases hn : c.name with
    | error e => rw [hn] at h; cases h
    | ok r =>
      rw [hn] at h
      cases h
      exact Nat.le_of_lt (size_name hn)

def label (c : Cursor) : Except Error (Label × Cursor) :=
  let written := c.rest.takeWhile isNameChar
  let valid (part : List Char) : Bool := part.head?.any isNameStart
  let accept (qualifier name : List Char) : Except Error (Label × Cursor) :=
    .ok (⟨String.ofList qualifier, String.ofList name⟩, c.drop written.length)
  match written.splitOnP (· == ':') with
  | [name] => if valid name then accept [] name else .error (.invalidName c.pos)
  | [qualifier, name] =>
    if (qualifier.isEmpty || valid qualifier) && valid name then accept qualifier name
    else .error (.invalidName c.pos)
  | _ => .error (.invalidName c.pos)

theorem size_label {c d : Cursor} {l : Label} (h : c.label = .ok (l, d)) : d.size < c.size := by
  have key : ∀ cs : List Char, c.rest.takeWhile isNameChar = cs → cs ≠ [] →
      (c.drop cs.length).size < c.size := by
    intro cs hcs hne
    have hlen : cs.length ≤ c.size := by
      rw [← hcs]
      exact (List.takeWhile_prefix _).length_le
    have := List.length_pos_iff.2 hne
    simp only [size_drop]
    omega
  have hne : c.rest.takeWhile isNameChar ≠ [] := by
    intro hnil
    simp [label, hnil, List.splitOnP_nil] at h
  simp only [label] at h
  split at h
  · split at h
    · simp only [Except.ok.injEq, Prod.mk.injEq] at h
      rw [← h.2]
      exact key _ rfl hne
    · simp at h
  · split at h
    · simp only [Except.ok.injEq, Prod.mk.injEq] at h
      rw [← h.2]
      exact key _ rfl hne
    · simp at h
  · simp at h

end Cursor

end Bindery.Markup
