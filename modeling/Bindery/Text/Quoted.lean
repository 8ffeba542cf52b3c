/-
  Quoted texts in messages.

  A text is quoted so that it can be read in one line: quotes, backslashes and
  line breaks are escaped by a backslash, and characters that would not show on
  their own are written as their code point.
-/
import Bindery.Text.Identifier

namespace Bindery.Text

/-- The characters that either show on their own or may begin an identifier, but
    not both.  Control, format, unassigned and private characters do not show, nor
    do separators but the space, and what extends the character before does not
    show on its own. -/
def shownExceptions : CharClass := .ofLengths [
  161, 9, 1, 2, 1, 7, 1, 4, 1, 5, 23, 1, 31, 1, 458, 4, 12, 14, 5, 7, 1, 1, 1, 17, 117, 1, 4, 1, 3,
  1, 5, 2, 1, 1, 110, 1, 139, 1, 213, 1, 1, 6, 41, 2, 2, 3, 46, 1, 1, 1, 2, 1, 2, 1, 44, 2, 17, 10,
  11, 1, 1, 3, 64, 14, 102, 1, 9, 1, 10, 1, 6, 10, 3, 2, 1, 14, 178, 10, 44, 4, 4, 2, 48, 15, 31, 1,
  41, 1, 122, 1, 55, 1, 2, 3, 8, 4, 1, 2, 20, 13, 17, 2, 59, 2, 6, 2, 2, 2, 25, 10, 2, 10, 1, 1, 5,
  1, 58, 3, 37, 10, 6, 1, 12, 1, 58, 3, 8, 1, 1, 2, 25, 12, 16, 2, 60, 1, 6, 2, 2, 2, 25, 11, 1, 6,
  71, 1, 1, 2, 3, 3, 1, 3, 25, 21, 6, 3, 61, 4, 33, 10, 7, 9, 2, 3, 57, 1, 2, 1, 1, 2, 33, 10, 3, 1,
  14, 2, 59, 2, 5, 3, 1, 3, 2, 1, 8, 7, 7, 20, 8, 2, 76, 2, 6, 7, 7, 10, 2, 3, 62, 1, 11, 1, 15, 13,
  87, 1, 28, 10, 39, 23, 2, 27, 1, 1, 1, 1, 1, 6, 63, 1, 5, 1, 56, 8, 1, 6, 1, 13, 80, 2, 4, 1, 6,
  1, 2, 2, 3, 16, 6, 2, 10, 3, 2, 7, 21, 2, 2, 6, 2, 14, 1, 2, 91, 1, 99, 2, 511, 29, 19, 10, 102,
  1, 620, 2, 44, 2, 78, 3, 71, 2, 127, 1, 7, 8, 1, 2, 11, 3, 1, 4, 4, 10, 6, 10, 6, 11, 5, 10, 107,
  2, 156, 4, 2, 3, 4, 2, 1, 6, 7, 1, 3, 12, 128, 11, 3, 34, 25, 2, 3, 2, 53, 1, 1, 1, 9, 1, 1, 2, 8,
  6, 13, 10, 6, 10, 6, 7, 1, 6, 86, 1, 57, 4, 12, 29, 9, 12, 2, 1, 30, 1, 4, 2, 8, 10, 45, 1, 2, 3,
  1, 1, 13, 4, 36, 8, 8, 2, 5, 15, 6, 10, 36, 2, 64, 8, 11, 1, 13, 1, 21, 1, 709, 1, 1, 3, 11, 3,
  13, 3, 13, 3, 13, 2, 17, 24, 8, 47, 17, 1, 3, 11, 1, 15, 17, 34, 62, 2, 1, 4, 1, 2, 10, 1, 1, 2,
  6, 6, 1, 1, 1, 1, 1, 1, 16, 2, 4, 5, 5, 4, 1, 17, 41, 3, 4, 666, 22, 11, 21, 1812, 2, 138, 229, 6,
  14, 7, 112, 1, 143, 94, 34, 26, 1, 89, 12, 214, 26, 16, 1, 4, 3, 25, 15, 1, 5, 2, 5, 3, 91, 2, 3,
  1, 90, 1, 104, 1, 43, 16, 32, 38, 9, 1, 16, 31, 1, 480, 6592, 64, 22160, 55, 55, 2, 269, 3, 16,
  10, 73, 1, 10, 1, 115, 6, 8, 23, 9, 2, 103, 2, 152, 2, 2, 5, 4, 10, 58, 4, 8, 2, 50, 16, 10, 12,
  30, 3, 1, 1, 3, 10, 36, 2, 34, 1, 12, 1, 35, 1, 48, 2, 4, 2, 2, 2, 1, 13, 2, 10, 4, 2, 16, 10, 53,
  2, 2, 2, 24, 1, 2, 10, 2, 4, 23, 3, 1, 1, 1, 1, 96, 2, 11, 1, 2, 4, 3, 1, 101, 1, 14, 2, 119, 2,
  1, 2, 1, 4, 3, 10, 20271, 1, 136, 33, 139, 6, 218, 18, 64, 2, 54, 8, 42, 6, 16, 10, 22, 35, 1, 19,
  1, 4, 4, 1, 1, 1, 1, 1, 1, 1, 1, 1, 1, 1, 1, 1, 1, 1, 130, 32, 26, 6, 26, 11, 56, 3, 63, 7, 1, 7,
  13, 2, 258, 3, 4, 45, 3, 9, 53, 26, 1, 13, 3, 1, 47, 45, 228, 27, 36, 4, 123, 1, 48, 1, 207, 10,
  197, 1, 743, 9, 23, 9, 39, 9, 75, 5, 22, 6, 3, 1, 31, 1, 124, 2, 2, 16, 2, 46, 64, 9, 7, 9, 36, 3,
  29, 3, 40, 1, 34, 12, 66, 7, 24, 8, 24, 8, 25, 4, 12, 7, 330, 6, 48, 10, 6, 10, 36, 1, 31, 2, 208,
  31, 46, 1, 34, 9, 68, 10, 42, 9, 44, 4, 59, 7, 52, 1, 1, 1, 68, 7, 4, 30, 18, 1, 45, 3, 4, 2, 2,
  2, 1, 4, 46, 10, 50, 1, 9, 14, 1, 2, 45, 2, 12, 1, 48, 3, 9, 1, 5, 4, 4, 2, 1, 10, 1, 1, 1, 3, 1,
  20, 55, 3, 3, 2, 4, 6, 107, 1, 54, 3, 13, 10, 8, 2, 59, 1, 1, 4, 2, 2, 2, 2, 21, 2, 85, 2, 15, 1,
  1, 2, 6, 2, 1, 2, 92, 3, 8, 2, 3, 1, 5, 17, 1, 1, 83, 2, 6, 1, 1, 2, 1, 1, 2, 1, 4, 1, 9, 10, 214,
  2, 6, 4, 2, 1, 2, 23, 88, 3, 8, 2, 1, 1, 2, 3, 12, 10, 6, 13, 63, 1, 1, 2, 9, 1, 6, 10, 6, 20, 60,
  2, 4, 1, 9, 16, 236, 3, 9, 1, 2, 1, 164, 19, 62, 5, 1, 2, 7, 1, 1, 1, 1, 3, 9, 10, 119, 3, 8, 4,
  2, 1, 1, 1, 84, 1, 5, 8, 16, 2, 62, 1, 2, 3, 1, 5, 93, 10, 87, 1, 3, 1, 1, 1, 121, 1, 14, 10, 53,
  1, 14, 1, 2, 5, 10, 29, 3, 2, 55, 1, 7, 1, 2, 1, 155, 10, 48, 5, 4, 2, 1, 1, 9, 10, 54, 10, 267,
  4, 10, 1, 48, 2, 8, 2, 3, 23, 102, 50, 13, 1, 1136, 5, 2940, 2, 12599, 3, 3, 10, 2342, 10, 4, 2,
  80, 10, 43, 1, 65, 9, 4, 2, 10, 10, 1, 7, 523, 13, 262, 27, 182, 55, 90, 1, 19641, 1, 2, 1, 3936,
  253, 3, 436, 6, 23, 15, 17, 95, 116, 60, 246, 10, 39, 2, 60, 5, 3, 22, 2, 7, 30, 4, 61, 21, 66, 3,
  1, 122, 20, 12, 20, 12, 87, 9, 25, 840, 1, 25, 1, 31, 1, 25, 1, 31, 1, 25, 1, 31, 1, 25, 1, 31, 1,
  25, 1, 10, 562, 55, 4, 50, 8, 1, 14, 1, 7, 1716, 10, 5, 1, 416, 10, 5, 1, 496, 10, 247, 10, 4, 1,
  711, 9, 128, 10, 4, 2, 785, 68, 76, 61, 434, 2, 270, 44, 4, 100, 12, 15, 2, 15, 1, 15, 1, 37, 10,
  174, 56, 29, 13, 44, 4, 9, 7, 2, 14, 6, 154, 985, 3, 17, 3, 13, 3, 218, 6, 12, 4, 1, 15, 12, 4,
  56, 8, 10, 6, 40, 8, 30, 2, 12, 4, 2, 14, 9, 39, 344, 8, 14, 2, 13, 3, 11, 3, 57, 1, 1, 4, 16, 2,
  12, 4, 10, 7, 147, 1, 103]

/-- Whether `c` is written as it is. -/
def isShown (c : Char) : Bool :=
  if c.toNat < 128 then 32 ≤ c.toNat && c.toNat < 127
  else identStartClass.contains c != shownExceptions.contains c

/-- The code point escape of `c`: `\u`, and the lower case hexadecimal digits
    in braces. -/
def escapeCodePoint (c : Char) : List Char :=
  "\\u\x7b".toList ++ Nat.toDigits 16 c.toNat ++ ['\x7d']

def escapeChar (c : Char) : List Char :=
  match c with
  | '"' => ['\\', '"']
  | '\\' => ['\\', '\\']
  | '\n' => ['\\', 'n']
  | '\r' => ['\\', 'r']
  | '\t' => ['\\', 't']
  | '\x00' => ['\\', '0']
  | c => if isShown c then [c] else escapeCodePoint c

def quote (s : String) : String :=
  String.ofList ('"' :: s.toList.flatMap escapeChar ++ ['"'])

def quoteChar (c : Char) : String :=
  let shown := match c with
    | '\'' => ['\\', '\'']
    | '"' => ['"']
    | c => escapeChar c
  String.ofList ('\'' :: shown ++ ['\''])

end Bindery.Text
