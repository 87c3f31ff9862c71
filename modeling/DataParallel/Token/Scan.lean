import DataParallel.Source.Position
import DataParallel.Text.Blank
import DataParallel.Token.Basic

/-! Cutting a source text into tokens.

`munch` takes the longest token at the head of a text and `scan` repeats it, skipping white space
and comments. Every character starts some token, so scanning never fails. -/

namespace DataParallel.Token

def isWordStart (c : Char) : Bool := c.isAlpha || c == '_'

def isWordPart (c : Char) : Bool := c.isAlphanum || c == '_'

def wordKind (word : String) : Kind :=
  match Keyword.ofWord? word with
  | some keyword => .keyword keyword
  | none => if word = "true" || word = "false" then .booleanLiteral else .identifier

def pairKind? : Char → Char → Option Kind
  | '-', '>' => some .arrow
  | '=', '=' => some .doubleEquals
  | '!', '=' => some .notEquals
  | '<', '=' => some .lessThanOrEqualTo
  | '>', '=' => some .greaterThanOrEqualTo
  | '&', '&' => some .logicalAnd
  | '|', '|' => some .logicalOr
  | _, _ => none

def signKind : Char → Kind
  | '(' => .openParen
  | ')' => .closeParen
  | '[' => .openBracket
  | ']' => .closeBracket
  | '{' => .openBrace
  | '}' => .closeBrace
  | ';' => .semicolon
  | ',' => .comma
  | ':' => .colon
  | '.' => .dot
  | '=' => .equals
  | '!' => .bang
  | '+' => .plus
  | '-' => .minus
  | '*' => .asterisk
  | '/' => .divide
  | '%' => .modulus
  | '<' => .lessThan
  | '>' => .greaterThan
  | _ => .unknown

/-- A decimal point with a digit behind it, and all digits that follow. -/
def fraction? : List Char → Option (List Char × List Char)
  | '.' :: cs =>
    match cs.takeWhile Char.isDigit with
    | [] => none
    | digits => some ('.' :: digits, cs.dropWhile Char.isDigit)
  | _ => none

/-- What `munch` takes from a text: a kind, the characters after the first, and the rest. -/
structure Bite where
  kind : Kind
  more : List Char
  rest : List Char
deriving DecidableEq, Repr

/-- The longest token that starts with `c` and goes on in `cs`. -/
def munch (c : Char) (cs : List Char) : Bite :=
  if c.isDigit then
    let digits := cs.takeWhile Char.isDigit
    let rest := cs.dropWhile Char.isDigit
    match fraction? rest with
    | some (fraction, rest) => ⟨.floatLiteral, digits ++ fraction, rest⟩
    | none => ⟨.integerLiteral, digits, rest⟩
  else if isWordStart c then
    let more := cs.takeWhile isWordPart
    ⟨wordKind (String.ofList (c :: more)), more, cs.dropWhile isWordPart⟩
  else
    match fraction? (c :: cs) with
    | some (fraction, rest) => ⟨.floatLiteral, fraction.tail, rest⟩
    | none =>
      match cs with
      | [] => ⟨signKind c, [], []⟩
      | d :: rest =>
        match pairKind? c d with
        | some kind => ⟨kind, [d], rest⟩
        | none => ⟨signKind c, [], d :: rest⟩

theorem fraction?_eq_some {cs fraction rest : List Char}
    (h : fraction? cs = some (fraction, rest)) : fraction ++ rest = cs ∧ fraction ≠ [] := by
  unfold fraction? at h
  split at h
  · split at h
    · cases h
    · simp only [Option.some.injEq, Prod.mk.injEq] at h
      obtain ⟨rfl, rfl⟩ := h
      simp [List.takeWhile_append_dropWhile]
  · cases h

/-- Nothing is lost: a bite and the rest make up the text. -/
theorem munch_more_append_rest (c : Char) (cs : List Char) :
    (munch c cs).more ++ (munch c cs).rest = cs := by
  unfold munch
  split
  · dsimp only
    split
    · next fraction rest h =>
      have := (fraction?_eq_some h).1
      simp only [List.append_assoc, this, List.takeWhile_append_dropWhile]
    · simp only [List.takeWhile_append_dropWhile]
  · split
    · simp only [List.takeWhile_append_dropWhile]
    · split
      · next fraction rest h =>
        obtain ⟨h, hne⟩ := fraction?_eq_some h
        cases fraction with
        | nil => exact absurd rfl hne
        | cons d ds => simpa using (List.cons.inj h).2
      · split
        · rfl
        · split <;> rfl

theorem length_munch_rest_le (c : Char) (cs : List Char) :
    (munch c cs).rest.length ≤ cs.length := by
  have h := congrArg List.length (munch_more_append_rest c cs)
  simp only [List.length_append] at h
  omega

def startsComment (c : Char) (cs : List Char) : Bool := c == '/' && cs.head? == some '/'

/-- A place in a source text: its byte offset and the text behind it. -/
structure Cursor where
  offset : Nat
  text : List Char
deriving DecidableEq, Repr

/-- Skips white space and comments. A comment ends in front of its line end. -/
def skip (offset : Nat) : List Char → Cursor
  | [] => ⟨offset, []⟩
  | c :: cs =>
    if Text.isBlank c then skip (offset + c.utf8Size) cs
    else if startsComment c cs then
      skip (offset + c.utf8Size + Source.size (cs.takeWhile (· ≠ '\n'))) (cs.dropWhile (· ≠ '\n'))
    else ⟨offset, c :: cs⟩
termination_by cs => cs.length
decreasing_by
  · simp
  · simp only [List.length_cons]
    exact Nat.lt_succ_of_le (List.dropWhile_suffix _).length_le

theorem length_skip_le (offset : Nat) (cs : List Char) :
    (skip offset cs).text.length ≤ cs.length := by
  fun_induction skip offset cs with
  | case1 => simp
  | case2 offset c cs _ ih => exact Nat.le_succ_of_le ih
  | case3 offset c cs _ _ ih =>
    have := (List.dropWhile_suffix (l := cs) (· ≠ '\n')).length_le
    simp only [List.length_cons]
    omega
  | case4 => simp

def first? (cursor : Cursor) : Option (Token × Cursor) :=
  match skip cursor.offset cursor.text with
  | ⟨_, []⟩ => none
  | ⟨offset, c :: cs⟩ =>
    let bite := munch c cs
    let stop := offset + Source.size (c :: bite.more)
    some (⟨bite.kind, String.ofList (c :: bite.more), ⟨offset, stop⟩⟩, ⟨stop, bite.rest⟩)

theorem length_lt_of_first? {cursor after : Cursor} {token : Token}
    (h : first? cursor = some (token, after)) : after.text.length < cursor.text.length := by
  have hs := length_skip_le cursor.offset cursor.text
  unfold first? at h
  split at h
  · cases h
  · next offset c cs hc =>
    rw [hc] at hs
    simp only [Option.some.injEq, Prod.mk.injEq] at h
    obtain ⟨_, rfl⟩ := h
    exact Nat.lt_of_lt_of_le (Nat.lt_succ_of_le (length_munch_rest_le c cs)) hs

def scan (cursor : Cursor) : List Token :=
  match _h : first? cursor with
  | none => []
  | some (token, after) => token :: scan after
termination_by cursor.text.length
decreasing_by exact length_lt_of_first? ‹_›

def ofText (text : List Char) : List Token := scan ⟨0, text⟩

end DataParallel.Token
