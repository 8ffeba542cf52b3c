/-
  Putting together parameters, bounds and items whose parts are set.
-/
import Bindery.Source.Layout.Expr

namespace Bindery.Source

/-! ## Parameters and bounds -/

def parameterDocs (ts : List Tree) (ds : List (List Doc)) : List Doc :=
  if ts.isEmpty then []
  else .text "<" :: cbox 0 (shiftLast (-step) (softBreak :: commas (lifetimesFirst ts ds))) ++ txt ">"

def boundDocs (bounds : List (List Doc)) : List Doc :=
  if bounds.isEmpty then [] else .text ": " :: broken "+ " bounds

def typeParameterDocs (name : String) (bounds : List (List Doc)) (default : Option (List Doc)) :
    List Doc :=
  .text name :: ibox step (boundDocs bounds ++ match default with
    | some d => blankBreak :: .text "= " :: d
    | none => [])

def predicateDocs (offset : Int) (bounds : List (List Doc)) : List Doc :=
  .text ":" :: ibox offset ((if bounds.isEmpty then [] else txt " ") ++ broken "+ " bounds)

def lifetimesText (names : List String) : List (List Doc) := names.map fun name => txt ("'" ++ name)

def whereDocs (ds : List (List Doc)) : List Doc :=
  if ds.isEmpty then txt " "
  else .brk { blank := boundless, offset := -step } :: .text "where" :: hardBreak ::
    shiftLast (-step) (ds.flatMap (· ++ [.text ",", hardBreak]))

/-- Predicates at the end of an item, each on its line, and a semicolon. -/
def whereEnd (ds : List (List Doc)) : List Doc :=
  if ds.isEmpty then txt ";"
  else .brk { blank := boundless, offset := -step } :: .text "where" :: hardBreak ::
    [.text ",", hardBreak].intercalate ds ++ txt ";"

/-- Predicates with commas between them, after a break of their own. -/
def whereLine (ds : List (List Doc)) (last : List Doc) : List Doc :=
  .brk { blank := 1, offset := -step } :: .text "where" :: blankBreak ::
    [.text ",", blankBreak].intercalate ds ++ last

/-- Predicates on the line of a type, before what it is. -/
def whereInline (ds : List (List Doc)) : List Doc :=
  if ds.isEmpty then txt " " else shiftLast (-step) (whereLine ds [endCommaOrBlank])

def whereInlineEnd (ds : List (List Doc)) : List Doc :=
  if ds.isEmpty then txt ";" else whereLine ds (txt ";")

/-! ## Items -/

def braced (head : List Doc) (body : List Doc) : List Doc :=
  cbox step (shiftLast (-step) (head ++ .text "\x7b" :: hardBreakIfNonempty :: body)) ++
    [.text "\x7d", hardBreak]

/-- An item that ends with a semicolon, which it has. -/
def ended (offset : Int) (body : List Doc) : List Doc := cbox offset body ++ [hardBreak]

def commaLines (ds : List (List Doc)) : List Doc := ds.flatMap (· ++ [.text ",", hardBreak])

def signatureDocs (front : List Doc) (inputs : List Doc) (output : Option (List Doc)) : List Doc :=
  front ++ .text "(" :: noBreak :: cbox 0 (shiftLast (-step) (softBreak :: inputs)) ++ .text ")" ::
    cbox (-step) (outputDocs output)

def unnamedDocs (ds : List (List Doc)) : List Doc :=
  shiftLast (-step) (.text "(" :: softBreak :: commas ds) ++ txt ")"

def namedDocs (ds : List (List Doc)) : List Doc :=
  let set := match ds.reverse with
    | [] => []
    | last :: before => (before.reverse.flatMap (· ++ [.text ",", blankBreak])) ++ last ++ [endCommaOrBlank]
  .text " \x7b" :: cbox step (shiftLast (-step) (blankBreak :: set)) ++ txt "\x7d"

def importDocs (ts : List Tree) (ds : List (List Doc)) : List Doc :=
  .text "\x7b" :: cbox step (shiftLast (-step) (softBreak :: ibox 0 (items ts ds) ++ [endComma])) ++
    txt "\x7d"
where
  items : List Tree → List (List Doc) → List Doc
    | t :: ts, d :: ds =>
      if ts.isEmpty then d
      else d ++ .text "," :: (if endsInGroup t then hardBreak else blankBreak) :: items ts ds
    | _, _ => []

def implementationHead (front : List Doc) (trait : Option (List Doc)) (type : List Doc) : List Doc :=
  ibox (-step) (cbox step front ++ .text " " :: (match trait with
    | some d => d ++ [blankBreak, .text "for "]
    | none => []) ++ type)

end Bindery.Source
