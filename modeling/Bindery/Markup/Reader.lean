/-
  Reading a document into a tree.

  The tokens of a text are put together by `Assembly.token`: namespaces are
  resolved, references replaced, and start tags matched with end tags.  An
  entity is replaced by its text, read as content in its place; entities nest
  `maxDepth` deep at most and one use of an entity may hold `maxReferences`
  references in all, so no entity is expanded without end (`expandText`).

  `Markup.read` is the whole reader.
-/
import Bindery.Markup.Node
import Bindery.Markup.Token

namespace Bindery.Markup

open Cursor

/-! ## References -/

inductive Reference where
  | char (c : Char)
  | entity (name : String)
deriving Repr

def codeOfDigits (base : Nat) (digits : List Char) : Option Nat :=
  let value (c : Char) : Nat :=
    if c.isDigit then c.toNat - 48 else if c.isUpper then c.toNat - 55 else c.toNat - 87
  let n := digits.foldl (fun n c => n * base + value c) 0
  if digits.isEmpty || n ≥ Nat.pow 2 32 then none else some n

/-- The character with the code point `n`, or the replacement character if
    there is none. -/
def charOfCode (n : Nat) : Char :=
  if Nat.isValidChar n then Char.ofNat n else Char.ofNat 0xfffd

def isHexDigit (c : Char) : Bool :=
  c.isDigit || ('a' ≤ c && c ≤ 'f') || ('A' ≤ c && c ≤ 'F')

def reference (c : Cursor) : Option (Reference × Cursor) := do
  let (r, d) ← body (c.drop 1)
  let d ← (d.require ';').toOption
  return (r, d)
where
  body (c : Cursor) : Option (Reference × Cursor) :=
    if c.startsWith "#x" then digits 16 isHexDigit (c.drop 2)
    else if c.startsWith "#" then digits 10 Char.isDigit (c.drop 1)
    else do
      let (name, d) ← c.name.toOption
      return (named name, d)
  digits (base : Nat) (isDigit : Char → Bool) (c : Cursor) : Option (Reference × Cursor) := do
    let ch := charOfCode (← codeOfDigits base (c.rest.takeWhile isDigit))
    if isXmlChar ch then return (.char ch, c.skipWhile isDigit) else none
  named : String → Reference
    | "quot" => .char '"'
    | "amp" => .char '&'
    | "apos" => .char '\''
    | "lt" => .char '<'
    | "gt" => .char '>'
    | name => .entity name

/-- A step through a text with references. -/
inductive Chunk where
  /-- a character as it is written -/
  | plain (c : Char)
  /-- a character written as a reference -/
  | char (c : Char)
  /-- an entity, and its text -/
  | entity (value : Fragment)

abbrev Entities := List (String × Fragment)

/-- The next step through a text, and the cursor behind it; none at the end. -/
def chunk (entities : Entities) (c : Cursor) : Except Error (Option (Chunk × Cursor)) :=
  match c.rest with
  | [] => .ok none
  | '&' :: _ =>
    match reference c with
    | none => .error (.malformedReference c.pos)
    | some (.char ch, d) => .ok (some (.char ch, d))
    | some (.entity name, d) =>
      match entities.lookup name with
      | none => .error (.unknownEntity name c.pos)
      | some value => .ok (some (.entity value, d))
  | ch :: _ => .ok (some (.plain ch, c.drop 1))

theorem size_digits {base : Nat} {isDigit : Char → Bool} {c d : Cursor} {r : Reference}
    (h : reference.digits base isDigit c = some (r, d)) : d.size ≤ c.size := by
  simp only [reference.digits, Option.bind_eq_bind, Option.bind_eq_some_iff] at h
  obtain ⟨n, -, h⟩ := h
  split at h
  · cases h
    exact size_skipWhile _ _
  · cases h

theorem size_reference {c d : Cursor} {r : Reference} (h : reference c = some (r, d)) :
    d.size < c.size := by
  simp only [reference, Option.bind_eq_bind, Option.bind_eq_some_iff] at h
  obtain ⟨⟨r', e⟩, hb, f, hr, hd⟩ := h
  have he : e.size ≤ c.size := by
    simp only [reference.body] at hb
    split at hb
    · exact Nat.le_trans (size_digits hb) (by simp only [size_drop]; omega)
    · split at hb
      · exact Nat.le_trans (size_digits hb) (by simp only [size_drop]; omega)
      · simp only [Option.bind_eq_bind, Option.bind_eq_some_iff] at hb
        obtain ⟨⟨s, e'⟩, hn, hb⟩ := hb
        cases hb
        cases hname : (c.drop 1).name with
        | error err => rw [hname] at hn; cases hn
        | ok r =>
          rw [hname] at hn
          cases hn
          have hlt : e'.size < (c.drop 1).size := size_name hname
          simp only [size_drop] at hlt
          show e'.size ≤ c.size
          omega
  cases hreq : e.require ';' with
  | error err => rw [hreq] at hr; cases hr
  | ok g =>
    rw [hreq] at hr
    cases hr
    cases hd
    exact Nat.lt_of_lt_of_le (size_require hreq) he

theorem size_chunk {entities : Entities} {c d : Cursor} {k : Chunk}
    (h : chunk entities c = .ok (some (k, d))) : d.size < c.size := by
  unfold chunk at h
  split at h
  · cases h
  · split at h
    · cases h
    · next hr =>
      cases h
      exact size_reference hr
    · next hr =>
      split at h
      · cases h
      · cases h
        exact size_reference hr
  · next hc =>
    cases h
    have : 0 < c.size := by rw [size, hc]; simp
    simp only [size_drop]
    omega

/-! ## Entities in values -/

/-- How deep entities may nest. -/
def maxDepth : Nat := 10

/-- How many references may be replaced inside one entity. -/
def maxReferences : Nat := 255

/-- The number of references counted so far, with the one at `pos`.  Only
    references inside entities count. -/
def countReference (nested : Bool) (count : Nat) (pos : Position) : Except Error Nat :=
  if !nested then .ok count
  else if count = maxReferences then .error (.entityLoop pos)
  else .ok (count + 1)

/-- The characters that a plain character of a value stands for, before
    `next`: a line end and a tabulator are a space. -/
def valueChar (ch : Char) (next : Option Char) : List Char :=
  if ch = '\r' && next = some '\n' then []
  else if ch = '\n' || ch = '\t' || ch = '\r' then [' ']
  else [ch]

/-- The characters of a value, with `expand` for the entities in it, and the
    number of references counted. -/
def valueChars (entities : Entities)
    (expand : Position → Fragment → Nat → Except Error (List Char × Nat)) (nested : Bool)
    (count : Nat) (c : Cursor) : Except Error (List Char × Nat) :=
  match _h : chunk entities c with
  | .error e => .error e
  | .ok none => .ok ([], count)
  | .ok (some (.plain ch, d)) => do
    let (rest, count) ← valueChars entities expand nested count d
    .ok (valueChar ch d.rest.head? ++ rest, count)
  | .ok (some (.char ch, d)) =>
    if nested && ch = '<' then .error (.angleInValue c.pos)
    else do
      let (rest, count) ← valueChars entities expand nested count d
      .ok ((if nested then valueChar ch none else [ch]) ++ rest, count)
  | .ok (some (.entity value, d)) => do
    let count ← countReference nested count d.pos
    let (inner, count) ← expand d.pos value count
    let (rest, count) ← valueChars entities expand nested (if nested then count else 0) d
    .ok (inner ++ rest, count)
termination_by c.size
decreasing_by all_goals exact size_chunk _h

def expandValue (entities : Entities) :
    Nat → Position → Fragment → Nat → Except Error (List Char × Nat)
  | 0, pos, _, _ => .error (.entityLoop pos)
  | level + 1, _, value, count =>
    valueChars entities (expandValue entities level) true count value

/-! ## Putting the tokens together -/

/-- An element whose end tag has not been read. -/
structure Open where
  label : Label
  head : Head
  /-- The children so far, the latest first. -/
  children : List Node := []

/-- What has been read of a document. -/
structure Assembly where
  entities : Entities := []
  /-- The start tag being read or read last. -/
  label : Option (Label × Position) := none
  /-- The namespaces that tag declares. -/
  declared : List Binding := []
  /-- The other attributes of that tag. -/
  pending : List (Label × String × Position) := []
  /-- The open elements, the innermost first. -/
  opened : List Open := []
  /-- The nodes outside all elements, the latest first. -/
  top : List Node := []
  /-- Whether a text came last, with no tag, comment or instruction since. -/
  afterText : Bool := false
  /-- The references counted inside the entity being replaced. -/
  count : Nat := 0

namespace Assembly

def append (st : Assembly) (n : Node) : Assembly :=
  match st.opened with
  | [] => { st with top := n :: st.top, afterText := false }
  | o :: os => { st with opened := { o with children := n :: o.children } :: os, afterText := false }

/-- Adds a text, which joins a text right before it. -/
def appendText (st : Assembly) (s : String) : Assembly :=
  match st.afterText, st.opened with
  | true, { label, head, children := .text before :: older } :: os =>
    { st with opened := { label, head, children := .text (before ++ s) :: older } :: os }
  | _, _ => { st.append (.text s) with afterText := true }

/-- Adds the text collected in `buffer`, the latest character first. -/
def flush (st : Assembly) (buffer : List Char) : Assembly :=
  if buffer.isEmpty then st else st.appendText (String.ofList buffer.reverse)

def scope (st : Assembly) : List Binding :=
  match st.opened with
  | [] => st.declared
  | o :: _ =>
    st.declared ++ o.head.scope.filter fun b => !st.declared.any (·.label == b.label)

end Assembly

/-- The namespace of a label whose prefix stands at `pos`. -/
def resolve (scope : List Binding) (qualifier : String) (pos : Position) :
    Except Error (Option String) :=
  let label := if qualifier = "" then none else some qualifier
  match scope.find? (·.label == label) with
  | some b => .ok (some b.uri)
  | none => if qualifier = "" then .ok none else .error (.unknownNamespace qualifier pos)

def xmlUri : String := "http://www.w3.org/XML/1998/namespace"

def xmlnsUri : String := "http://www.w3.org/2000/xmlns/"

/-- The attributes of a tag with their namespaces.  No two may have the same
    expanded name. -/
def resolveAttributes (scope : List Binding) (done : List Attribute) :
    List (Label × String × Position) → Except Error (List Attribute)
  | [] => .ok done
  | (label, value, pos) :: rest => do
    let space ←
      if label.qualifier = "xml" then .ok (some xmlUri)
      else if label.qualifier = "" then .ok none
      else resolve scope label.qualifier pos
    if done.any fun a => a.space = space ∧ a.name = label.name then
      .error (.duplicateAttribute label.name pos)
    else resolveAttributes scope (done ++ [⟨space, label.name, value⟩]) rest

namespace Assembly

/-- Adds an attribute, or the namespace it declares, to the tag being read. -/
def declare (st : Assembly) (label : Label) (value : String) (pos : Position) :
    Except Error Assembly :=
  if label.qualifier = "xmlns" then
    if value = xmlnsUri then .error (.xmlnsUri pos)
    else if label.name = "xml" && value != xmlUri then .error (.xmlPrefixUri pos)
    else if label.name != "xml" && value = xmlUri then .error (.xmlUri pos)
    else if st.declared.any (·.label == some label.name) then
      .error (.duplicateNamespace label.name pos)
    else if value = xmlUri then .ok st
    else .ok { st with declared := st.declared ++ [⟨some label.name, value⟩] }
  else if label.name = "xmlns" then
    if value = xmlUri then .error (.xmlUri pos)
    else if value = xmlnsUri then .error (.xmlnsUri pos)
    else .ok { st with declared := st.declared ++ [⟨none, value⟩] }
  else .ok { st with pending := st.pending ++ [(label, value, pos)] }

def head (st : Assembly) (label : Label) (pos : Position) : Except Error Head := do
  let attributes ← resolveAttributes st.scope [] st.pending
  let space ← resolve st.scope label.qualifier (pos.after '<')
  .ok { space, name := label.name, attributes, scope := st.scope, pos }

/-- Ends the tag being read.  Whatever the kind of the tag, the attributes and
    namespaces noted since the last one are its own: an entity may hold a start
    tag without its end. -/
def tagEnd (st : Assembly) (kind : TagEnd) (pos : Position) : Except Error Assembly :=
  match st.label, kind with
  | none, _ => .error (.strayEndTag pos)
  | some (label, start), .opening => do
    let head ← st.head label start
    .ok { st with declared := [], pending := [], opened := { label, head } :: st.opened,
                  afterText := false }
  | some (label, start), .empty => do
    let head ← st.head label start
    .ok { st.append (.element head []) with declared := [], pending := [] }
  | some _, .closing found => do
    let _ ← resolveAttributes st.scope [] st.pending
    match st.opened with
    | [] => .error (.surplusEndTag pos)
    | o :: os =>
      if found = o.label then
        .ok ({ st with declared := [], pending := [], opened := os }.append
          (.element o.head o.children.reverse))
      else .error (.mismatchedTag o.label.text found.text pos)

end Assembly

/-- The buffer with a plain character of a text, the latest character first:
    a carriage return, and the line feed after it, are one line feed. -/
def pushText (buffer : List Char) (ch : Char) (atEnd : Bool) : List Char :=
  match buffer with
  | '\r' :: buffer =>
    if atEnd && ch = '\r' then '\n' :: '\n' :: buffer
    else if ch = '\n' then '\n' :: buffer
    else ch :: '\n' :: buffer
  | buffer => if atEnd && ch = '\r' then '\n' :: buffer else ch :: buffer

/-- Adds a text, with `expand` for the entities in it.  `buffer` is the text
    collected so far, and `verbatim` says that its latest character was
    written as a reference. -/
def assembleText (expand : Position → Fragment → Assembly → Except Error Assembly)
    (nested : Bool) (st : Assembly) (buffer : List Char) (verbatim : Bool) (c : Cursor) :
    Except Error Assembly :=
  match _h : chunk st.entities c with
  | .error e => .error e
  | .ok none => .ok (st.flush buffer)
  | .ok (some (.plain ch, d)) =>
    let buffer := if verbatim then ch :: buffer else pushText buffer ch d.rest.isEmpty
    assembleText expand nested st buffer false d
  | .ok (some (.char ch, d)) =>
    if nested then assembleText expand nested st (pushText buffer ch d.rest.isEmpty) verbatim d
    else assembleText expand nested st (ch :: buffer) true d
  | .ok (some (.entity value, d)) => do
    let count ← countReference nested st.count d.pos
    let inner ← expand d.pos value { st.flush buffer with count, label := none }
    let st := { inner with label := st.label, count := if nested then inner.count else 0 }
    assembleText expand nested st [] false d
termination_by c.size
decreasing_by all_goals exact size_chunk _h

/-- Adds a token, inside entities that may nest `level` further ones. -/
def Assembly.token (level : Nat) (expand : Position → Fragment → Assembly → Except Error Assembly)
    (st : Assembly) : Token → Except Error Assembly
  | .instruction => .ok (st.append .instruction)
  | .comment s => .ok (st.append (.comment s))
  | .entity name value => .ok { st with entities := st.entities ++ [(name, value)] }
  | .tagStart label pos =>
    if label.qualifier = "xmlns" then .error (.xmlnsElement (pos.after '<'))
    else .ok { st with label := some (label, pos), afterText := false }
  | .attribute label value pos => do
    let nested := level < maxDepth
    let (chars, count) ←
      valueChars st.entities (expandValue st.entities level) nested st.count value
    { st with count }.declare label (String.ofList chars) pos
  | .tagEnd kind pos => st.tagEnd kind pos
  | .text content => assembleText expand (level < maxDepth) st [] false content
  | .cdata s => .ok (st.appendText (String.ofList (lineEnds s.toList)))
where
  /-- Every carriage return, with a line feed after it or without, is one line
      feed. -/
  lineEnds : List Char → List Char
    | '\r' :: '\n' :: cs => '\n' :: lineEnds cs
    | '\r' :: cs => '\n' :: lineEnds cs
    | c :: cs => c :: lineEnds cs
    | [] => []

/-- Adds the tokens of a stretch of text, and then its fault. -/
def Assembly.tokens {α : Type} (level : Nat)
    (expand : Position → Fragment → Assembly → Except Error Assembly) (st : Assembly)
    (lexed : Lexed α) : Except Error Assembly := do
  let st ← lexed.tokens.foldlM (Assembly.token level expand) st
  let _ ← lexed.result
  .ok st

def expandText : Nat → Position → Fragment → Assembly → Except Error Assembly
  | 0, pos, _, _ => .error (.entityLoop pos)
  | level + 1, _, value, st => st.tokens level (expandText level) (content 0 value)

def read (allowDtd : Bool) (text : String) : Except Error Node := do
  let lexed := document allowDtd { rest := text.toList }
  let st ← ({} : Assembly).tokens maxDepth (expandText maxDepth) lexed
  if st.opened.isEmpty then
    match st.top.reverse.find? Node.isElement with
    | some root => .ok root
    | none => .error .noRoot
  else .error .unclosedRoot

end Bindery.Markup
