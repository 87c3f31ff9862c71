/-! Texts cut at line ends. A text that ends in a line end has no empty last line. -/

namespace DataParallel.Text

def consFirst (c : Char) : List (List Char) → List (List Char)
  | [] => [[c]]
  | line :: rest => (c :: line) :: rest

/-- Cuts at every `'\n'` and `'\r'`, `'\n'`; what follows the last one is a line only if it is not
empty. -/
def lines : List Char → List (List Char)
  | [] => []
  | '\n' :: cs => [] :: lines cs
  | '\r' :: '\n' :: cs => [] :: lines cs
  | c :: cs => consFirst c (lines cs)

def lineTexts (text : String) : List String :=
  (lines text.toList).map String.ofList

end DataParallel.Text
