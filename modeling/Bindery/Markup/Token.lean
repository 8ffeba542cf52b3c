/-
  The tokens of a document.

  `tokens` cuts a text into tokens, which say what is written and not what it
  means: names carry their prefixes, values their references.  A text that is
  cut short by a fault still has the tokens before it, so a reader of the
  tokens finds its own faults first where they come first (`Lexed`).

  * `content` are the tokens between the tags of an element;
  * `document` are those of a whole document.
-/
import Bindery.Markup.Cursor

namespace Bindery.Markup

/-! ## Tokens -/

inductive TagEnd where
  /-- `>` of a start tag -/
  | opening
  /-- `/>` -/
  | empty
  /-- an end tag, whole -/
  | closing (label : Cursor.Label)
deriving Repr

/-- A token with the place it begins at, where it matters. -/
inductive Token where
  | instruction
  | comment (text : String)
  | entity (name : String) (value : Fragment)
  | tagStart (label : Cursor.Label) (pos : Position)
  | attribute (label : Cursor.Label) (value : Fragment) (pos : Position)
  | tagEnd (kind : TagEnd) (pos : Position)
  | text (content : Fragment)
  | cdata (content : String)
deriving Repr

/-- The tokens of a stretch of text, and what was found at its end. -/
structure Lexed (α : Type) where
  tokens : List Token := []
  result : Except Error α

namespace Lexed

variable {α β : Type}

protected def pure (a : α) : Lexed α := ⟨[], .ok a⟩

protected def bind (x : Lexed α) (f : α → Lexed β) : Lexed β :=
  match x.result with
  | .error e => ⟨x.tokens, .error e⟩
  | .ok a => ⟨x.tokens ++ (f a).tokens, (f a).result⟩

instance : Monad Lexed where
  pure := Lexed.pure
  bind := Lexed.bind

def lift (r : Except Error α) : Lexed α := ⟨[], r⟩

instance : MonadLift (Except Error) Lexed := ⟨lift⟩

def emit (t : Token) : Lexed Unit := ⟨[t], .ok ()⟩

def fault (e : Error) : Lexed α := ⟨[], .error e⟩

def cons (ts : List Token) (x : Lexed α) : Lexed α := ⟨ts ++ x.tokens, x.result⟩

end Lexed

open Cursor

/-- The result of the first of two steps, when both succeed. -/
theorem bind_eq_ok {α β : Type} {x : Except Error α} {f : α → Except Error β} {b : β}
    (h : (x >>= f) = .ok b) : ∃ a, x = .ok a ∧ f a = .ok b := by
  cases x with
  | error e => cases h
  | ok a => exact ⟨a, rfl, h⟩

theorem Lexed.bind_eq_ok {α β : Type} {x : Lexed α} {f : α → Lexed β} {b : β}
    (h : (x >>= f).result = .ok b) : ∃ a, x.result = .ok a ∧ (f a).result = .ok b := by
  obtain ⟨ts, r⟩ := x
  cases r with
  | error e => cases h
  | ok a => exact ⟨a, rfl, h⟩

/-- Whether `needle` stands somewhere in the characters. -/
def hasInfix (needle : List Char) : List Char → Bool
  | [] => needle.isEmpty
  | c :: cs => needle.isPrefixOf (c :: cs) || hasInfix needle cs

/-! ## Comments, instructions, sections and texts -/

/-- `<!-- … -->` -/
def comment (c : Cursor) : Except Error (Token × Cursor) := do
  let (text, d) ← (c.drop 4).scanTo "-->"
  let d ← d.requireText "-->"
  if hasInfix ['-', '-'] text || text.getLast? == some '-' then .error (.comment c.pos)
  else .ok (.comment (String.ofList text), d)

theorem size_comment {c d : Cursor} {t : Token} (hc : c.rest ≠ []) (h : comment c = .ok (t, d)) :
    d.size < c.size := by
  obtain ⟨⟨text, e⟩, h₁, h⟩ := bind_eq_ok h
  obtain ⟨e', h₂, h⟩ := bind_eq_ok h
  have hpos : 0 < c.size := List.length_pos_iff.2 hc
  have h₁ := size_scan h₁
  have h₂ := size_requireText h₂
  simp only [size_drop] at h₁
  split at h
  · cases h
  · cases h
    omega

/-- `<?target … ?>` -/
def instruction (c : Cursor) : Except Error (Token × Cursor) :=
  if c.startsWith "<?xml " then .error (.lateDeclaration c.pos)
  else do
    let (_, d) ← (c.drop 2).name
    let (_, d) ← d.skipSpaces.scanTo "?>"
    let d ← d.requireText "?>"
    .ok (.instruction, d)

theorem size_instruction {c d : Cursor} {t : Token} (h : instruction c = .ok (t, d)) :
    d.size < c.size := by
  unfold instruction at h
  split at h
  · cases h
  · obtain ⟨⟨_, e₁⟩, h₁, h⟩ := bind_eq_ok h
    obtain ⟨⟨_, e₂⟩, h₂, h⟩ := bind_eq_ok h
    obtain ⟨e₃, h₃, h⟩ := bind_eq_ok h
    cases h
    have h₁ := size_name h₁
    have h₂ := size_scan h₂
    have h₃ := size_requireText h₃
    have := size_skipSpaces e₁
    simp only [size_drop] at h₁
    omega

/-- `<![CDATA[ … ]]>` -/
def cdata (c : Cursor) : Except Error (Token × Cursor) := do
  let (text, d) ← (c.drop 9).scanTo "]]>"
  let d ← d.requireText "]]>"
  .ok (.cdata (String.ofList text), d)

theorem size_cdata {c d : Cursor} {t : Token} (hc : c.rest ≠ []) (h : cdata c = .ok (t, d)) :
    d.size < c.size := by
  obtain ⟨⟨text, e⟩, h₁, h⟩ := bind_eq_ok h
  obtain ⟨e', h₂, h⟩ := bind_eq_ok h
  cases h
  have hpos : 0 < c.size := List.length_pos_iff.2 hc
  have h₁ := size_scan h₁
  have h₂ := size_requireText h₂
  simp only [size_drop] at h₁
  omega

/-- The text up to the next tag, which must not hold the end of a section. -/
def text (c : Cursor) : Except Error (Token × Cursor) := do
  let (text, d) ← c.scanTo "<"
  if hasInfix "]]>".toList text then .error (.cdataEnd d.pos)
  else .ok (.text ⟨text, c.pos⟩, d)

theorem size_text {c d : Cursor} {t : Token} {x : Char} {cs : List Char} (hc : c.rest = x :: cs)
    (hx : x ≠ '<') (h : text c = .ok (t, d)) : d.size < c.size := by
  obtain ⟨⟨text, e⟩, h₁, h⟩ := bind_eq_ok h
  have hlt : e.size < c.size := by
    unfold scanTo scan at h₁
    rw [hc] at h₁
    have hs : ("<".toList.isPrefixOf (x :: cs)) = false := by
      simp [List.isPrefixOf, Ne.symm hx]
    by_cases hxml : isXmlChar x
    · simp only [scanLength, hxml, hs] at h₁
      split at h₁
      · next n heq =>
        cases h₁
        have : 0 < n := by
          simp only [Bool.not_true, Bool.false_eq_true, ↓reduceIte, Prod.mk.injEq] at heq
          omega
        have hpos : 0 < c.size := by simp [size, hc]
        simp only [size_drop]
        omega
      · cases h₁
    · simp [scanLength, hxml] at h₁
  dsimp only at h
  split at h
  · cases h
  · cases h
    exact hlt

/-! ## Tags -/

/-- `name = "value"`: the name, the value and the cursor behind it.  The value
    must not hold `<`. -/
def attr (c : Cursor) : Except Error (Label × Fragment × Cursor) := do
  let (label, d) ← c.label
  let d ← d.skipSpaces.require '='
  let (q, d) ← d.skipSpaces.requireQuote
  let (value, e) ← d.scan fun cs => cs.head? == some q || cs.head? == some '<'
  let f ← e.require q
  .ok (label, ⟨value, d.pos⟩, f)

theorem size_attr {c d : Cursor} {l : Label} {v : Fragment}
    (h : attr c = .ok (l, v, d)) : d.size < c.size := by
  obtain ⟨⟨_, e₁⟩, h₁, h⟩ := bind_eq_ok h
  obtain ⟨e₂, h₂, h⟩ := bind_eq_ok h
  obtain ⟨⟨_, e₃⟩, h₃, h⟩ := bind_eq_ok h
  obtain ⟨⟨_, e₄⟩, h₄, h⟩ := bind_eq_ok h
  obtain ⟨e₅, h₅, h⟩ := bind_eq_ok h
  cases h
  have h₁ := size_label h₁
  have h₂ := size_require h₂
  have h₃ := size_requireQuote h₃
  have h₄ := size_scan h₄
  have h₅ := size_require h₅
  have := size_skipSpaces e₁
  have := size_skipSpaces e₂
  omega

/-- The attributes and the end of a start tag.  The result says whether the
    tag opens an element; a text that ends between two attributes ends the
    tag without a token. -/
def tagRest (c : Cursor) : Lexed (Bool × Cursor) :=
  match c.rest with
  | [] => .pure (false, c)
  | first :: _ =>
    match c.skipSpaces.rest with
    | [] => .fault .endOfText
    | '/' :: _ => do
      let e ← (c.skipSpaces.drop 1).require '>'
      .emit (.tagEnd .empty c.skipSpaces.pos)
      .pure (false, e)
    | '>' :: _ => do
      .emit (.tagEnd .opening c.skipSpaces.pos)
      .pure (true, c.skipSpaces.drop 1)
    | x :: _ =>
      if isSpace first then
        match _h : attr c.skipSpaces with
        | .error e => .fault e
        | .ok (label, value, e) => (tagRest e).cons [.attribute label value c.skipSpaces.pos]
      else .fault (.required "a whitespace" (leadByte x) c.skipSpaces.pos)
termination_by c.size
decreasing_by exact Nat.lt_of_lt_of_le (size_attr _h) c.size_skipSpaces

theorem size_tagRest {c d : Cursor} {b : Bool} (h : (tagRest c).result = .ok (b, d)) :
    d.size ≤ c.size := by
  fun_induction tagRest c with
  | case1 c _ => cases h; exact Nat.le_refl _
  | case2 => cases h
  | case3 c _ _ _ _ _ =>
    have hs := size_skipSpaces c
    obtain ⟨f, h₁, h⟩ := Lexed.bind_eq_ok h
    obtain ⟨_, _, h⟩ := Lexed.bind_eq_ok h
    cases h
    have h₁ := size_require h₁
    simp only [size_drop] at h₁
    omega
  | case4 c _ _ _ _ _ =>
    have hs := size_skipSpaces c
    obtain ⟨_, _, h⟩ := Lexed.bind_eq_ok h
    cases h
    simp only [size_drop]
    omega
  | case5 => cases h
  | case6 c _ _ _ _ _ _ _ _ _ _ _ _ h' ih =>
    have hs := size_skipSpaces c
    have := ih h
    have := size_attr h'
    omega
  | case7 => cases h

def tag (c : Cursor) : Lexed (Bool × Cursor) := do
  let (label, d) ← (c.drop 1).label
  .emit (.tagStart label c.pos)
  tagRest d

theorem size_tag {c d : Cursor} {b : Bool} (h : (tag c).result = .ok (b, d)) :
    d.size < c.size := by
  obtain ⟨⟨_, e₁⟩, h₁, h⟩ := Lexed.bind_eq_ok h
  obtain ⟨_, _, h⟩ := Lexed.bind_eq_ok h
  have h₁ := size_label h₁
  have h := size_tagRest h
  simp only [size_drop] at h₁
  omega

def endTag (c : Cursor) : Except Error (Token × Cursor) := do
  let (label, d) ← (c.drop 2).label
  let d ← d.skipSpaces.require '>'
  .ok (.tagEnd (.closing label) c.pos, d)

theorem size_endTag {c d : Cursor} {t : Token} (h : endTag c = .ok (t, d)) : d.size < c.size := by
  obtain ⟨⟨_, e₁⟩, h₁, h⟩ := bind_eq_ok h
  obtain ⟨e₂, h₂, h⟩ := bind_eq_ok h
  cases h
  have h₁ := size_label h₁
  have h₂ := size_require h₂
  have := size_skipSpaces e₁
  simp only [size_drop] at h₁
  omega

/-! ## Content -/

/-- Where a token of the content leads. -/
inductive Step where
  | into
  | along
  | outOf
deriving DecidableEq, Repr

def single (step : Step) (r : Except Error (Token × Cursor)) : Lexed (Step × Cursor) :=
  match r with
  | .error e => .fault e
  | .ok (t, d) => ⟨[t], .ok (step, d)⟩

theorem single_eq_ok {step s : Step} {r : Except Error (Token × Cursor)} {d : Cursor}
    (h : (single step r).result = .ok (s, d)) : ∃ t, r = .ok (t, d) := by
  cases r with
  | error e => cases h
  | ok td =>
    obtain ⟨t, e⟩ := td
    cases h
    exact ⟨t, rfl⟩

/-- The next token of the content of an element, or the tokens of the next
    start tag. -/
def item (c : Cursor) : Lexed (Step × Cursor) :=
  match c.rest with
  | '<' :: '!' :: _ =>
    if c.startsWith "<!--" then single .along (comment c)
    else if c.startsWith "<![CDATA[" then single .along (cdata c)
    else .fault (.unknownToken c.pos)
  | '<' :: '?' :: _ => single .along (instruction c)
  | '<' :: '/' :: _ => single .outOf (endTag c)
  | '<' :: _ :: _ => do
    let (opens, d) ← tag c
    .pure (if opens then .into else .along, d)
  | ['<'] => .fault (.unknownToken c.pos)
  | _ => single .along (text c)

theorem size_item {c d : Cursor} {s : Step} (hc : c.rest ≠ [])
    (h : (item c).result = .ok (s, d)) : d.size < c.size := by
  unfold item at h
  split at h
  · split at h
    · obtain ⟨t, ht⟩ := single_eq_ok h
      exact size_comment hc ht
    · split at h
      · obtain ⟨t, ht⟩ := single_eq_ok h
        exact size_cdata hc ht
      · cases h
  · obtain ⟨t, ht⟩ := single_eq_ok h
    exact size_instruction ht
  · obtain ⟨t, ht⟩ := single_eq_ok h
    exact size_endTag ht
  · obtain ⟨⟨b, e⟩, h₁, h⟩ := Lexed.bind_eq_ok h
    cases h
    exact size_tag h₁
  · cases h
  · next h₁ h₂ h₃ h₄ h₅ =>
    obtain ⟨t, ht⟩ := single_eq_ok h
    obtain ⟨x, cs, hx⟩ : ∃ x cs, c.rest = x :: cs := List.exists_cons_of_ne_nil hc
    refine size_text hx ?_ ht
    rintro rfl
    cases cs with
    | nil => exact h₅ hx
    | cons y cs => exact h₄ y cs hx

/-- The tokens of the content of an element, inside `depth` further elements,
    up to the end tag that closes it or to the end of the text. -/
def content (depth : Nat) (c : Cursor) : Lexed Cursor :=
  if _hc : c.rest = [] then .pure c
  else
    let next := item c
    match _h : next.result with
    | .error e => ⟨next.tokens, .error e⟩
    | .ok (.along, d) => (content depth d).cons next.tokens
    | .ok (.into, d) => (content (depth + 1) d).cons next.tokens
    | .ok (.outOf, d) =>
      match depth with
      | 0 => ⟨next.tokens, .ok d⟩
      | depth + 1 => (content depth d).cons next.tokens
termination_by c.size
decreasing_by all_goals exact size_item _hc _h

def element (c : Cursor) : Lexed Cursor := do
  let (opens, d) ← tag c
  if opens then content 0 d else .pure d

/-! ## Prolog -/

/-- Comments and instructions, and the space around them. -/
def misc (c : Cursor) : Lexed Cursor :=
  let d := c.skipSpaces
  if _hd : d.rest = [] then .pure d
  else if d.startsWith "<!--" then
    match _h : comment d with
    | .error e => .fault e
    | .ok (t, e) => (misc e).cons [t]
  else if d.startsWith "<?" then
    match _h : instruction d with
    | .error e => .fault e
    | .ok (t, e) => (misc e).cons [t]
  else .pure d
termination_by c.size
decreasing_by
  · exact Nat.lt_of_lt_of_le (size_comment _hd _h) (size_skipSpaces c)
  · exact Nat.lt_of_lt_of_le (size_instruction _h) (size_skipSpaces c)

def declaration (c : Cursor) : Except Error Cursor := do
  let d ← spaces (c.drop 5)
  let d ← if d.startsWith "version" then field d else d.requireText "version"
  let d ← spaces d
  let d ← if d.startsWith "encoding" then field d >>= spaces else .ok d
  let d ← if d.startsWith "standalone" then field d else .ok d
  d.skipSpaces.requireText "?>"
where
  /-- Space, which may be missing before the end. -/
  spaces (c : Cursor) : Except Error Cursor :=
    match c.rest with
    | [] => .ok c
    | x :: _ =>
      if isSpace x then .ok c.skipSpaces
      else if c.startsWith "?>" then .ok c
      else .error (.required "a whitespace" (leadByte x) c.pos)
  field (c : Cursor) : Except Error Cursor := do
    let (_, _, d) ← attr c
    .ok d

def quoted (c : Cursor) : Except Error (Fragment × Cursor) := do
  let (q, d) ← c.requireQuote
  let e ← (d.skipWhile (· != q)).require q
  .ok (⟨d.rest.takeWhile (· != q), d.pos⟩, e)

theorem size_quoted {c d : Cursor} {v : Fragment} (h : quoted c = .ok (v, d)) :
    d.size ≤ c.size := by
  obtain ⟨⟨q, e₁⟩, h₁, h⟩ := bind_eq_ok h
  obtain ⟨e₂, h₂, h⟩ := bind_eq_ok h
  cases h
  have h₁ := size_requireQuote h₁
  have h₂ := size_require h₂
  have := size_skipWhile (· != q) e₁
  omega

def spacedQuoted (c : Cursor) : Except Error Cursor := do
  let d ← c.requireSpaces
  let (_, e) ← quoted d
  .ok e

theorem size_spacedQuoted {c d : Cursor} (h : spacedQuoted c = .ok d) : d.size ≤ c.size := by
  obtain ⟨e₁, h₁, h⟩ := bind_eq_ok h
  obtain ⟨⟨_, e₂⟩, h₂, h⟩ := bind_eq_ok h
  cases h
  exact Nat.le_trans (size_quoted h₂) (size_requireSpaces h₁)

def externalId (c : Cursor) : Except Error (Option Cursor) :=
  if c.startsWith "SYSTEM" then some <$> spacedQuoted (c.drop 6)
  else if c.startsWith "PUBLIC" then some <$> (spacedQuoted (c.drop 6) >>= spacedQuoted)
  else .ok none

theorem size_externalId {c d : Cursor} (h : externalId c = .ok (some d)) : d.size ≤ c.size := by
  have hdrop : (c.drop 6).size ≤ c.size := by simp
  have key : ∀ {r : Except Error Cursor}, some <$> r = .ok (some d) → r = .ok d := by
    intro r hr
    cases r with
    | error e => cases hr
    | ok e => cases hr; rfl
  unfold externalId at h
  split at h
  · exact Nat.le_trans (size_spacedQuoted (key h)) hdrop
  · split at h
    · obtain ⟨e, h₁, h₂⟩ := bind_eq_ok (key h)
      exact Nat.le_trans (size_spacedQuoted h₂) (Nat.le_trans (size_spacedQuoted h₁) hdrop)
    · cases h

/-- What an entity stands for: its token, if it is given by a text, and the
    cursor behind it. -/
def entityDefinition (name : String) (isParameter : Bool) (c : Cursor) :
    Except Error (List Token × Cursor) :=
  match c.rest with
  | [] => .error .endOfText
  | x :: _ =>
    if x = '"' || x = '\'' then do
      let (value, d) ← quoted c
      .ok ([.entity name value], d)
    else if x = 'S' || x = 'P' then do
      match ← externalId c with
      | none => .error (.externalId c.pos)
      | some d =>
        if !isParameter && d.skipSpaces.startsWith "NDATA" then
          let e ← (d.skipSpaces.drop 5).requireSpaces
          let f ← e.skipName
          .ok ([], f)
        else .ok ([], d)
    else .error (.required "a quote, SYSTEM or PUBLIC" (leadByte x) c.pos)

theorem size_entityDefinition {name : String} {isParameter : Bool} {c d : Cursor}
    {ts : List Token} (h : entityDefinition name isParameter c = .ok (ts, d)) :
    d.size ≤ c.size := by
  unfold entityDefinition at h
  split at h
  · cases h
  · split at h
    · obtain ⟨⟨_, e₁⟩, h₁, h⟩ := bind_eq_ok h
      cases h
      exact size_quoted h₁
    · split at h
      · obtain ⟨r, h₁, h⟩ := bind_eq_ok h
        cases r with
        | none => cases h
        | some e =>
          have h₁ := size_externalId h₁
          simp only at h
          split at h
          · obtain ⟨e₂, h₂, h⟩ := bind_eq_ok h
            obtain ⟨e₃, h₃, h⟩ := bind_eq_ok h
            cases h
            have h₂ := size_requireSpaces h₂
            have h₃ := size_skipName h₃
            have := size_skipSpaces e
            simp only [size_drop] at h₂
            omega
          · cases h
            exact h₁
      · cases h

/-- Whether a mark says that the entity is a parameter, and the cursor behind
    the mark and its space. -/
def parameterMark (c : Cursor) : Except Error (Bool × Cursor) :=
  if c.startsWith "%" then (true, ·) <$> (c.drop 1).requireSpaces else .ok (false, c)

theorem size_parameterMark {c d : Cursor} {b : Bool} (h : parameterMark c = .ok (b, d)) :
    d.size ≤ c.size := by
  unfold parameterMark at h
  split at h
  · cases hs : (c.drop 1).requireSpaces with
    | error e => rw [hs] at h; cases h
    | ok e =>
      rw [hs] at h
      cases h
      exact Nat.le_trans (size_requireSpaces hs) (by simp)
  · cases h
    exact Nat.le_refl _

/-- An entity declaration: its token, if the entity is given by a text, and
    the cursor behind it. -/
def entityDeclaration (c : Cursor) : Except Error (List Token × Cursor) := do
  let d ← (c.drop 8).requireSpaces
  let (isParameter, d) ← parameterMark d
  let (name, d) ← d.name
  let d ← d.requireSpaces
  let (ts, d) ← entityDefinition name isParameter d
  let d ← d.skipSpaces.require '>'
  .ok (ts, d)

theorem size_entityDeclaration {c d : Cursor} {ts : List Token}
    (h : entityDeclaration c = .ok (ts, d)) : d.size < c.size := by
  obtain ⟨e₁, h₁, h⟩ := bind_eq_ok h
  obtain ⟨⟨_, e₂⟩, h₂, h⟩ := bind_eq_ok h
  obtain ⟨⟨_, e₃⟩, h₃, h⟩ := bind_eq_ok h
  obtain ⟨e₄, h₄, h⟩ := bind_eq_ok h
  obtain ⟨⟨_, e₅⟩, h₅, h⟩ := bind_eq_ok h
  obtain ⟨e₆, h₆, h⟩ := bind_eq_ok h
  cases h
  have h₁ := size_requireSpaces h₁
  have h₂ := size_parameterMark h₂
  have h₃ := size_name h₃
  have h₄ := size_requireSpaces h₄
  have h₅ := size_entityDefinition h₅
  have h₆ := size_require h₆
  have := size_skipSpaces e₅
  simp only [size_drop] at h₁
  omega

/-- The next declaration inside a document type declaration that began at
    `start`: its tokens, or none when that declaration ends here. -/
def subsetItem (start : Position) (c : Cursor) : Except Error (Option (List Token) × Cursor) :=
  if c.startsWith "<!ENTITY" then do
    let (ts, d) ← entityDeclaration c
    .ok (some ts, d)
  else if c.startsWith "<!--" then do
    let (t, d) ← comment c
    .ok (some [t], d)
  else if c.startsWith "<?" then do
    let (t, d) ← instruction c
    .ok (some [t], d)
  else if c.startsWith "]" then
    let d := (c.drop 1).skipSpaces
    match d.rest with
    | [] => .error .endOfText
    | '>' :: _ => .ok (none, d.drop 1)
    | x :: _ => .error (.required "'>'" (leadByte x) d.pos)
  else if c.startsWith "<!ELEMENT" || c.startsWith "<!ATTLIST" || c.startsWith "<!NOTATION" then
    match (c.skipWhile (· != '>')).require '>' with
    | .error _ => .error (.unknownToken start)
    | .ok d => .ok (some [], d)
  else .error (.unknownToken c.pos)

theorem size_subsetItem {start : Position} {c d : Cursor} {ts : List Token} (hc : c.rest ≠ [])
    (h : subsetItem start c = .ok (some ts, d)) : d.size < c.size := by
  unfold subsetItem at h
  split at h
  · obtain ⟨⟨_, e⟩, h₁, h⟩ := bind_eq_ok h
    cases h
    exact size_entityDeclaration h₁
  · split at h
    · obtain ⟨⟨_, e⟩, h₁, h⟩ := bind_eq_ok h
      cases h
      exact size_comment hc h₁
    · split at h
      · obtain ⟨⟨_, e⟩, h₁, h⟩ := bind_eq_ok h
        cases h
        exact size_instruction h₁
      · split at h
        · simp only at h
          split at h <;> cases h
        · split at h
          · split at h
            · cases h
            · next e he =>
              cases h
              exact Nat.lt_of_lt_of_le (size_require he) (size_skipWhile _ c)
          · cases h

theorem subsetItem_nil (start : Position) {c : Cursor} (hc : c.rest = []) :
    subsetItem start c = .error (.unknownToken c.pos) := by
  simp [subsetItem, startsWith, hc]

def subset (start : Position) (c : Cursor) : Lexed Cursor :=
  if c.rest = [] then .pure c
  else
    match _h : subsetItem start c.skipSpaces with
    | .error e => .fault e
    | .ok (none, d) => .pure d
    | .ok (some ts, d) => (subset start d).cons ts
termination_by c.size
decreasing_by
  refine Nat.lt_of_lt_of_le (size_subsetItem (fun hd => ?_) _h) c.size_skipSpaces
  rw [subsetItem_nil start hd] at _h
  cases _h

def doctype (c : Cursor) : Lexed Cursor := do
  let d ← (c.drop 9).requireSpaces
  let d ← d.skipName
  let d := d.skipSpaces
  let d := ((← externalId d).getD d).skipSpaces
  match d.rest with
  | [] => .fault .endOfText
  | '[' :: _ => subset c.pos (d.drop 1)
  | '>' :: _ => .pure (d.drop 1)
  | x :: _ => .fault (.required "'[' or '>'" (leadByte x) d.pos)

def document (allowDtd : Bool) (c : Cursor) : Lexed Unit := do
  let c := if c.rest.head? = some '\ufeff' then c.drop 1 else c
  let c ← if c.startsWith "<?xml " then Lexed.lift (declaration c) else .pure c
  let c ← misc c
  let c ←
    if c.startsWith "<!DOCTYPE" then
      if allowDtd then doctype c >>= misc else .fault .dtd
    else .pure c
  let c ← if c.startsWith "<" then element c else .pure c
  let c ← misc c
  if c.rest = [] then .pure () else .fault (.unknownToken c.pos)

end Bindery.Markup
