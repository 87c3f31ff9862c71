import DataParallel.Source.Span
import DataParallel.Text.Ink
import DataParallel.Text.Lines

/-! Rows, columns and excerpts of a source text.

Offsets count bytes of the UTF-8 form. An offset inside a character has no row, no column and no
excerpt, which is what the results `none` say. -/

namespace DataParallel.Source

def size : List Char → Nat
  | [] => 0
  | c :: cs => c.utf8Size + size cs

/-- Cuts a text after the given number of bytes, if a character ends there. -/
def cut? : Nat → List Char → Option (List Char × List Char)
  | 0, cs => some ([], cs)
  | _ + 1, [] => none
  | n + 1, c :: cs =>
    if c.utf8Size ≤ n + 1 then (cut? (n + 1 - c.utf8Size) cs).map fun (a, b) => (c :: a, b)
    else none

/-- The text in front of an offset; offsets past the end stand for the end. -/
def before? (text : List Char) (offset : Nat) : Option (List Char) :=
  (cut? (min offset (size text)) text).map Prod.fst

def slice? (text : List Char) (span : Span) : Option (List Char) :=
  if span.start ≤ span.stop then do
    let (_, rest) ← cut? span.start text
    let (inside, _) ← cut? (span.stop - span.start) rest
    pure inside
  else none

/-- The row of an offset, counted from one. -/
def row? (text : List Char) (offset : Nat) : Option Nat :=
  (before? text offset).map fun front => front.count '\n' + 1

/-- The column of an offset, counted in bytes from one. -/
def column? (text : List Char) (offset : Nat) : Option Nat :=
  (before? text offset).map fun front => size (front.reverse.takeWhile (· ≠ '\n')) + 1

/-- The number of marks under a line of `length` bytes for a span of `width` bytes that starts in
`column`: at least one, and none past the end of the line. -/
def markWidth (width length column : Nat) : Nat :=
  max 1 (min width (max (length - (column - 1)) 1))

/-- The line in which a span starts, and below it marks where the span falls. -/
def highlight? (ink : Ink) (text : List Char) (span : Span) : Option String := do
  let row ← row? text span.start
  let column ← column? text span.start
  let line := (Text.lines text).getD (row - 1) []
  let gutter := toString row ++ " | "
  let width := markWidth (span.stop - span.start) (size line) column
  pure <|
    ink.paint .blue gutter ++ String.ofList line ++ "\n" ++
    String.ofList (List.replicate (gutter.length + column - 1) ' ') ++
    ink.paint .alarm (String.ofList (List.replicate width '^'))

end DataParallel.Source
