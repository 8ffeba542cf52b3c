/-
  Letters and numbers of the Unicode standard.

  `isAlphabetic` is the property Alphabetic, `isNumeric` the general category
  N (decimal digits, letter numbers and other numbers).  ASCII characters are
  decided by their ranges, all others by the tables `numericClass` and, for what
  sets letters apart from the beginnings of identifiers, `alphabeticExceptions`.
-/
import Bindery.Text.Identifier

namespace Bindery.Text

/-- The characters that either have the property Alphabetic or may begin an
    identifier, but not both. -/
def alphabeticExceptions : CharClass := .ofLengths [
  837, 1, 29, 13, 10, 1, 477, 1, 87, 14, 1, 1, 1, 2, 1, 2, 1, 1, 72, 11, 48, 13, 1, 7, 16, 1, 101,
  7, 4, 4, 2, 2, 4, 1, 35, 1, 30, 16, 102, 11, 101, 2, 3, 9, 1, 3, 1, 4, 106, 1, 60, 12, 3, 7, 6,
  20, 54, 2, 2, 15, 1, 2, 5, 3, 10, 2, 29, 3, 58, 7, 2, 2, 2, 2, 10, 1, 10, 2, 29, 3, 58, 5, 4, 2,
  2, 2, 4, 1, 30, 2, 3, 1, 11, 3, 58, 8, 1, 3, 1, 2, 21, 2, 22, 3, 4, 3, 58, 7, 2, 2, 2, 2, 9, 2,
  10, 2, 30, 1, 59, 5, 3, 3, 1, 3, 10, 1, 40, 5, 57, 7, 1, 3, 1, 3, 8, 2, 11, 2, 29, 3, 58, 7, 1, 3,
  1, 3, 8, 2, 11, 2, 15, 1, 12, 4, 58, 7, 1, 3, 1, 3, 10, 1, 10, 2, 29, 3, 75, 6, 1, 1, 1, 8, 18, 2,
  61, 1, 1, 8, 18, 1, 99, 1, 1, 7, 1, 2, 16, 1, 163, 19, 9, 11, 1, 36, 110, 12, 1, 1, 2, 4, 23, 4,
  4, 3, 1, 3, 2, 7, 3, 4, 13, 12, 1, 1, 10, 4, 1652, 2, 30, 2, 30, 2, 30, 2, 66, 19, 224, 1, 118,
  12, 4, 9, 222, 5, 57, 10, 2, 20, 74, 2, 11, 3, 49, 5, 48, 15, 60, 3, 30, 9, 2, 2, 57, 11, 50, 19,
  412, 34, 803, 1, 21, 1, 903, 52, 2294, 32, 47, 1, 30788, 8, 34, 2, 354, 1, 8, 1, 23, 5, 88, 2, 50,
  16, 1, 1, 57, 1, 38, 5, 28, 12, 45, 4, 48, 12, 37, 1, 67, 14, 12, 1, 8, 2, 45, 3, 50, 1, 1, 3, 2,
  2, 5, 1, 44, 5, 5, 1, 237, 8, 20275, 1, 319, 6, 406, 2, 116, 1, 1, 1, 1, 1, 1, 1, 1, 1, 1, 1, 1,
  1, 1, 1, 287, 2, 982, 5, 1670, 3, 1, 2, 5, 4, 788, 4, 65, 1, 321, 2, 77, 3, 259, 3, 53, 14, 45, 2,
  11, 3, 45, 9, 9, 1, 61, 3, 36, 12, 18, 2, 57, 3, 48, 13, 14, 2, 92, 9, 2, 1, 6, 1, 2, 1, 157, 10,
  23, 4, 58, 7, 2, 2, 2, 2, 10, 1, 10, 2, 84, 9, 1, 1, 2, 1, 1, 4, 1, 2, 103, 13, 1, 3, 106, 18,
  237, 7, 2, 7, 29, 2, 82, 15, 1, 1, 106, 11, 103, 14, 257, 13, 247, 6, 1, 2, 2, 2, 3, 1, 1, 1, 142,
  7, 2, 6, 4, 1, 28, 10, 42, 5, 1, 4, 18, 11, 46, 14, 200, 8, 199, 8, 1, 7, 83, 22, 1, 14, 122, 6,
  3, 1, 1, 2, 1, 3, 1, 1, 3, 1, 66, 5, 1, 2, 1, 4, 348, 4, 9, 2, 1, 1, 48, 7, 3, 3, 16861, 17, 3616,
  1, 1, 55, 7, 4, 93, 2, 19628, 1, 9057, 7, 1, 17, 2, 7, 1, 2, 1, 5, 100, 1, 1619, 1, 2, 1, 7, 2, 5,
  1, 593, 1, 2024, 26, 6, 26, 6, 26]

/-- The characters of the general category N. -/
def numericClass : CharClass := .ofLengths [
  48, 10, 120, 2, 5, 1, 2, 3, 1441, 10, 134, 10, 198, 10, 412, 10, 118, 10, 4, 6, 108, 10, 118, 10,
  118, 10, 2, 6, 110, 13, 115, 10, 8, 7, 103, 10, 104, 7, 7, 19, 109, 10, 96, 10, 118, 10, 70, 20,
  268, 10, 70, 10, 719, 20, 881, 3, 239, 10, 6, 10, 22, 10, 300, 10, 128, 11, 165, 10, 6, 10, 182,
  10, 86, 10, 134, 10, 6, 10, 1046, 1, 3, 6, 6, 10, 198, 51, 2, 5, 726, 60, 78, 22, 630, 30, 1385,
  1, 777, 1, 25, 9, 14, 3, 343, 4, 138, 10, 30, 8, 1, 15, 32, 10, 39, 15, 29536, 10, 188, 10, 320,
  6, 154, 10, 38, 10, 198, 10, 22, 10, 86, 10, 406, 10, 21270, 10, 493, 45, 12, 57, 17, 2, 341, 27,
  36, 4, 29, 1, 8, 1, 134, 5, 202, 10, 942, 8, 25, 7, 39, 9, 75, 5, 22, 6, 160, 2, 2, 16, 2, 46, 64,
  9, 52, 2, 30, 3, 75, 5, 104, 8, 24, 8, 41, 7, 330, 6, 48, 10, 6, 10, 278, 31, 158, 10, 42, 4, 112,
  7, 134, 30, 128, 10, 60, 10, 144, 10, 7, 20, 251, 10, 342, 10, 118, 10, 374, 10, 102, 10, 6, 20,
  76, 12, 420, 19, 93, 10, 662, 10, 86, 29, 227, 10, 70, 10, 54, 10, 358, 10, 102, 21, 1067, 111,
  15553, 10, 2342, 10, 86, 10, 134, 10, 1, 7, 526, 10, 262, 23, 349, 3, 23801, 10, 1478, 20, 12, 20,
  108, 25, 1109, 50, 2368, 10, 422, 10, 502, 10, 247, 10, 716, 9, 128, 10, 791, 59, 1, 3, 1, 4, 76,
  45, 1, 15, 962, 13, 2787, 10]

def isAlphabetic (c : Char) : Bool :=
  if c.toNat < 128 then c.isAlpha
  else identStartClass.contains c != alphabeticExceptions.contains c

def isNumeric (c : Char) : Bool :=
  if c.toNat < 128 then c.isDigit else numericClass.contains c

def isAlphanumeric (c : Char) : Bool :=
  isAlphabetic c || isNumeric c

end Bindery.Text
