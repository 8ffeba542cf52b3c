/-
  Places in a text, and the faults that make a text no document.

  A fault carries the place it was found at, where there is one.
  `Error.message` is its wording.
-/
import Bindery.Text.Quoted

namespace Bindery.Markup

/-- A place in a text: the line and the character in it, both counted from
    one.  Lines end at a line feed. -/
structure Position where
  row : Nat := 1
  col : Nat := 1
deriving DecidableEq, Repr, Inhabited

def Position.after (p : Position) (c : Char) : Position :=
  if c = '\n' then ⟨p.row + 1, 1⟩ else ⟨p.row, p.col + 1⟩

def Position.text (p : Position) : String :=
  toString p.row ++ ":" ++ toString p.col

inductive Error where
  /-- The prefix `xml` is bound to a foreign namespace. -/
  | xmlPrefixUri (pos : Position)
  /-- The namespace of `xml` is bound to another prefix. -/
  | xmlUri (pos : Position)
  /-- The namespace of `xmlns` is declared. -/
  | xmlnsUri (pos : Position)
  /-- An element name has the prefix `xmlns`. -/
  | xmlnsElement (pos : Position)
  | duplicateNamespace (label : String) (pos : Position)
  | unknownNamespace (label : String) (pos : Position)
  | mismatchedTag (expected found : String) (pos : Position)
  /-- An end tag inside an entity that closes nothing opened there. -/
  | strayEndTag (pos : Position)
  /-- An end tag where every element has been closed: no document can be made
      of it at all. -/
  | surplusEndTag (pos : Position)
  | unknownEntity (name : String) (pos : Position)
  | malformedReference (pos : Position)
  | entityLoop (pos : Position)
  /-- A reference inside an entity brings `<` into an attribute value. -/
  | angleInValue (pos : Position)
  | duplicateAttribute (name : String) (pos : Position)
  | noRoot
  | unclosedRoot
  /-- An XML declaration that does not stand first. -/
  | lateDeclaration (pos : Position)
  /-- A document type declaration where none is allowed. -/
  | dtd
  | invalidName (pos : Position)
  | nonXmlChar (char : Char) (pos : Position)
  /-- `char` was required, and a character whose encoding begins with the
      byte `found` was met. -/
  | requiredChar (char : Char) (found : Nat) (pos : Position)
  /-- Something described by `what` was required. -/
  | required (what : String) (found : Nat) (pos : Position)
  | requiredText (text : String) (pos : Position)
  | externalId (pos : Position)
  | comment (pos : Position)
  /-- The end of a CDATA section inside a text. -/
  | cdataEnd (pos : Position)
  | unknownToken (pos : Position)
  | endOfText
deriving DecidableEq, Repr, Inhabited

def leadByte (c : Char) : Nat :=
  let n := c.toNat
  if n < 0x80 then n
  else if n < 0x800 then 0xc0 + n / 0x40
  else if n < 0x10000 then 0xe0 + n / 0x1000
  else 0xf0 + n / 0x40000

def Error.message : Error → String
  | xmlPrefixUri p => s!"'xml' namespace prefix mapped to wrong URI at {p.text}"
  | xmlUri p => s!"the 'xml' namespace URI is used for not 'xml' prefix at {p.text}"
  | xmlnsUri p => s!"the 'xmlns' URI is used at {p.text}, but it must not be declared"
  | xmlnsElement p => s!"the 'xmlns' prefix is used at {p.text}, but it must not be"
  | duplicateNamespace label p => s!"namespace '{label}' at {p.text} is already defined"
  | unknownNamespace label p => s!"an unknown namespace prefix '{label}' at {p.text}"
  | mismatchedTag expected found p => s!"expected '{expected}' tag, not '{found}' at {p.text}"
  | strayEndTag p | surplusEndTag p => s!"unexpected close tag at {p.text}"
  | unknownEntity name p => s!"unknown entity reference '{name}' at {p.text}"
  | malformedReference p => s!"malformed entity reference at {p.text}"
  | entityLoop p => s!"a possible entity reference loop is detected at {p.text}"
  | angleInValue p => s!"unescaped '<' found at {p.text}"
  | duplicateAttribute name p => s!"attribute '{name}' at {p.text} is already defined"
  | noRoot => "the document does not have a root node"
  | unclosedRoot => "the root node was opened but never closed"
  | lateDeclaration p => s!"unexpected XML declaration at {p.text}"
  | dtd => "XML with DTD detected"
  | invalidName p => s!"invalid name token at {p.text}"
  | nonXmlChar c p => s!"a non-XML character {Text.quoteChar c} found at {p.text}"
  | requiredChar c found p => s!"expected '{c}' not '{Char.ofNat found}' at {p.text}"
  | required what found p => s!"expected {what} not '{Char.ofNat found}' at {p.text}"
  | requiredText text p => s!"expected '{text}' at {p.text}"
  | externalId p => s!"invalid ExternalID at {p.text}"
  | comment p => s!"comment at {p.text} contains '--'"
  | cdataEnd p => s!"']]>' at {p.text} is not allowed inside a character data"
  | unknownToken p => s!"unknown token at {p.text}"
  | endOfText => "unexpected end of stream"

/-- Whether the fault ends the work at once, with nothing to report. -/
def Error.isAbrupt : Error → Bool
  | surplusEndTag _ => true
  | _ => false

end Bindery.Markup
