/-
  Words of a name, and the names spelt with them.

  A name is cut at the characters that are neither letters nor digits, and
  inside the pieces by case: before a capital that follows small letters, and
  before the last capital of a run when a small letter follows it, so that
  `XMLHttpRequest` has the words `XML`, `Http` and `Request`.  `snake` joins the
  words in lower case by `_`; `pascal` capitalises each and joins them.
-/
import Bindery.Text.Blank
import Bindery.Text.Case
import Bindery.Text.Letter

namespace Bindery.Text

/-- The case of the letters of a word so far. -/
inductive WordCase where
  | none
  | lower
  | upper
deriving DecidableEq, Repr

/-- The case after `c`.  Characters without case keep it. -/
def WordCase.after (k : WordCase) (c : Char) : WordCase :=
  if isLower c then .lower else if isUpper c then .upper else k

/-- The words of a piece of letters and digits.  `word` holds the characters
    of the current word, the last one first. -/
def cutByCase (k : WordCase) (word : List Char) : List Char → List (List Char)
  | [] => []
  | [c] => [(c :: word).reverse]
  | c :: next :: rest =>
    if k.after c = .lower && isUpper next then
      (c :: word).reverse :: cutByCase .none [] (next :: rest)
    else if k = .upper && isUpper c && isLower next then
      word.reverse :: cutByCase .none [c] (next :: rest)
    else
      cutByCase (k.after c) (c :: word) (next :: rest)

def caseWords (s : String) : List (List Char) :=
  (pieces (!isAlphanumeric ·) s.toList).flatMap (cutByCase .none [])

/-- A word in lower case.  A sigma at its end takes the final form. -/
def lowerWord : List Char → List Char
  | [] => []
  | ['Σ'] => ['ς']
  | c :: rest => toLower c ++ lowerWord rest

/-- A word with its first letter in upper case and the others in lower case. -/
def capitalWord : List Char → List Char
  | [] => []
  | c :: rest => toUpper c ++ lowerWord rest

/-- The words of a name in lower case, joined by `_`. -/
def snake (s : String) : String :=
  String.ofList (['_'].intercalate ((caseWords s).map lowerWord))

/-- The words of a name capitalised, and joined. -/
def pascal (s : String) : String :=
  String.ofList ((caseWords s).flatMap capitalWord)

end Bindery.Text
