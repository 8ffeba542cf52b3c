/-
  White space, and the texts between it.

  `isBlank` is the property White_Space of the Unicode standard.  `trim`
  removes it from both ends of a text and `words` cuts a text at it.
-/

namespace Bindery.Text

def isBlank (c : Char) : Bool :=
  let n := c.toNat
  (9 ≤ n && n ≤ 13) || n == 0x20 || n == 0x85 || n == 0xa0 || n == 0x1680
    || (0x2000 ≤ n && n ≤ 0x200a) || n == 0x2028 || n == 0x2029 || n == 0x202f || n == 0x205f
    || n == 0x3000

def trimChars (cs : List Char) : List Char :=
  ((cs.dropWhile isBlank).reverse.dropWhile isBlank).reverse

def trim (s : String) : String :=
  String.ofList (trimChars s.toList)

/-- The maximal pieces of `cs` free of characters that satisfy `cut`, in
    order and without the empty ones. -/
def pieces (cut : Char → Bool) (cs : List Char) : List (List Char) :=
  (cs.splitOnP cut).filter (!·.isEmpty)

/-- The words of a text: its maximal pieces without white space. -/
def words (s : String) : List String :=
  (pieces isBlank s.toList).map String.ofList

end Bindery.Text
