/-
  Laying out text on lines.

  A `Doc` is text with breaks, some of it in boxes.  A box that fits on the
  rest of the line is set on it, up to the next break after it.  In a box that
  does not, a consistent one starts a new line at each of its breaks, an
  inconsistent one only where what follows up to its next break does not fit.
  A break can leave a character behind at the end of the line, begin the next
  one with a text, or set a character when the line goes on.
-/

namespace Bindery.Source

/-- A place where the line may end. -/
structure Break where
  /-- The indentation of the next line, relative to that of the box. -/
  offset : Int := 0
  /-- The blanks that are set when the line goes on. -/
  blank : Nat := 0
  /-- The character left at the end of the line. -/
  before : Option Char := none
  /-- The text that begins the next line. -/
  after : String := ""
  /-- The character that is set when the line goes on. -/
  otherwise : Option Char := none
  /-- Whether the break goes away at the end of its box. -/
  ifNonempty : Bool := false
  /-- Whether the line always goes on. -/
  never : Bool := false
deriving Repr, Inhabited

inductive Doc where
  | text (s : String)
  | brk (b : Break)
  | box (offset : Int) (consistent : Bool) (body : List Doc)
  /-- Nothing, which is as wide as `width` when it is asked what fits. -/
  | strut (width : Nat)
  /-- Something that has no layout. -/
  | gap
deriving Repr, Inhabited

/-- The width of a line. -/
def margin : Int := 89

/-- The width that every line has after its indentation. -/
def leastWidth : Int := 60

/-- A width that fits on no line. -/
def boundless : Nat := 0xffff

mutual

def width : Doc → Nat
  | .text s => s.utf8ByteSize
  | .brk b => b.blank
  | .box _ _ body => widths body
  | .strut n => n
  | .gap => 0

def widths : List Doc → Nat
  | [] => 0
  | d :: ds => width d + widths ds

end

/-- The width up to the next break, when `follow` is that of what comes after
    up to the next break there. -/
def lead : List Doc → Nat → Nat
  | [], follow => follow
  | .brk _ :: _, _ => 0
  | d :: ds, follow => width d + lead ds follow

/-- What has been set. -/
structure Page where
  out : String := ""
  space : Int := margin
  /-- The blanks to be set before the next text. -/
  pending : Nat := 0

namespace Page

def indented (p : Page) : Page :=
  { p with out := p.out ++ String.ofList (List.replicate p.pending ' '), pending := 0 }

def put (p : Page) (s : String) : Page :=
  let p := p.indented
  { p with out := p.out ++ s, space := p.space - s.utf8ByteSize }

def goOn (p : Page) (b : Break) : Page :=
  let p := { p with pending := p.pending + b.blank, space := p.space - b.blank }
  match b.otherwise with
  | some c => { p with out := p.out.push c, space := p.space - c.utf8Size }
  | none => p

def newLine (p : Page) (indent : Int) (b : Break) : Page :=
  let out := match b.before with
    | some c => p.indented.out.push c
    | none => p.out
  let column := indent + b.offset
  let p : Page := {
    out := out.push '\n', space := max (margin - column) leastWidth, pending := column.toNat }
  if b.after.isEmpty then p else p.put b.after

end Page

/-- How a box is set. -/
inductive Frame where
  | fits
  | broken (consistent : Bool)
deriving DecidableEq, Repr

mutual

/-- Sets a text in a box that is set as `frame` says. -/
def place (frame : Frame) (indent : Int) (follow : Nat) : Doc → Page → Page
  | .text s, p => p.put s
  | .brk b, p =>
    let stays := b.never || match frame with
      | .fits => true
      | .broken consistent => !consistent && decide ((b.blank + follow : Nat) ≤ p.space)
    if stays then p.goOn b else p.newLine indent b
  | .box offset consistent body, p =>
    if ((widths body + follow : Nat) : Int) > p.space then
      placeAll (.broken consistent) (indent + offset) follow body p
    else
      placeAll .fits indent follow body p
  | .strut _, p | .gap, p => p

def placeAll (frame : Frame) (indent : Int) (follow : Nat) : List Doc → Page → Page
  | [], p => p
  | d :: ds, p => placeAll frame indent follow ds (place frame indent (lead ds follow) d p)

end

def pretty (ds : List Doc) : String := (placeAll (.broken false) 0 0 ds {}).out

mutual

def Doc.isGap : Doc → Bool
  | .gap => true
  | .box _ _ body => hasGap body
  | _ => false

def hasGap : List Doc → Bool
  | [] => false
  | d :: ds => d.isGap || hasGap ds

end

/-! ## Building -/

def step : Int := 4

/-- A box.  A break that is all it holds, or that goes away at its end, is
    left out. -/
def boxed (offset : Int) (consistent : Bool) (body : List Doc) : List Doc :=
  match body with
  | [.brk _] => []
  | _ =>
    match body.getLast? with
    | some (.brk b) => [.box offset consistent (if b.ifNonempty then body.dropLast else body)]
    | _ => [.box offset consistent body]

def cbox (offset : Int) (body : List Doc) : List Doc := boxed offset true body

def ibox (offset : Int) (body : List Doc) : List Doc := boxed offset false body

def txt (s : String) : List Doc := [.text s]

/-- A break without a blank. -/
def softBreak : Doc := .brk {}

def blankBreak : Doc := .brk { blank := 1 }

def hardBreak : Doc := .brk { blank := boundless }

/-- A break at which the line ends, unless nothing follows in its box. -/
def hardBreakIfNonempty : Doc := .brk { blank := boundless, ifNonempty := true }

/-- A break at which the line goes on. -/
def noBreak : Doc := .brk { never := true }

/-- The texts with the next line after the last break shifted. -/
def shiftLast (n : Int) (ds : List Doc) : List Doc :=
  match ds.getLast? with
  | some (.brk b) => ds.dropLast ++ [.brk { b with offset := b.offset + n }]
  | _ => ds

def endComma : Doc := .brk { before := some ',' }

def endCommaOrBlank : Doc := .brk { blank := 1, before := some ',' }

/-- Items with commas between them, and after the last one where the line
    ends. -/
def commas : List (List Doc) → List Doc
  | [] => []
  | [d] => d ++ [endComma]
  | d :: ds => d ++ .text "," :: blankBreak :: commas ds

/-- Items in a box of their own, each on its line if the box does not fit. -/
def listed (items : List (List Doc)) : List Doc :=
  cbox step (shiftLast (-step) (softBreak :: commas items))

end Bindery.Source
