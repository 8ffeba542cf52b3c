/-
  Writing documents.

  Text and attribute values have the five characters that markup uses written
  as references; names are written as they are.
-/

namespace Bindery.Markup

def escapeMarkup (c : Char) : List Char :=
  match c with
  | '<' => "&lt;".toList
  | '>' => "&gt;".toList
  | '&' => "&amp;".toList
  | '\'' => "&apos;".toList
  | '"' => "&quot;".toList
  | c => [c]

def escaped (s : String) : String := String.ofList (s.toList.flatMap escapeMarkup)

def declarationText : String := "<?xml version=\"1.0\" encoding=\"UTF-8\"?>"

def openTag (tag : String) (attributes : List (String × String)) : String :=
  "<" ++ tag ++ String.join (attributes.map fun (name, value) =>
    " " ++ name ++ "=\"" ++ escaped value ++ "\"") ++ ">"

def closeTag (tag : String) : String := "</" ++ tag ++ ">"

def textElement (tag text : String) : String := openTag tag [] ++ escaped text ++ closeTag tag

inductive Content where
  | text (s : String)
  | element (tag : String) (attributes : List (String × String)) (content : List Content)
deriving Repr, Inhabited

mutual

def Content.written : Content → String
  | .text s => escaped s
  | .element tag attributes content => openTag tag attributes ++ writtenAll content ++ closeTag tag

def writtenAll : List Content → String
  | [] => ""
  | c :: cs => c.written ++ writtenAll cs

end

end Bindery.Markup
