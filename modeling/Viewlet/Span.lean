import Viewlet.Text.Lines

/-!
Places in a text, and the excerpt that shows a place to a reader.
-/

namespace Viewlet

/-- A stretch of one line of a text. Lines and columns count from zero, columns in bytes,
and the end column is the first one after the stretch. -/
structure Span where
  source : String
  line : Nat
  startColumn : Nat
  endColumn : Nat
  deriving DecidableEq, Repr

namespace Span

private def blanks (count : Nat) : String :=
  String.ofList (List.replicate count ' ')

/-- Makes the text after it red on a terminal. -/
def red : List Char := "\x1b[31m".toList

/-- Makes the text after it plain again on a terminal. -/
def plain : List Char := "\x1b[0m".toList

/-- Makes a text red again wherever it makes itself plain. -/
def keepRed : List Char → List Char
  | [] => []
  | '\x1b' :: '[' :: '0' :: 'm' :: rest => plain ++ red ++ keepRed rest
  | c :: rest => c :: keepRed rest

/-- A text without an escape character stays as it is. -/
theorem keepRed_of_notMem {text : List Char} (h : '\x1b' ∉ text) : keepRed text = text := by
  induction text with
  | nil => rfl
  | cons c rest ih =>
      rw [List.mem_cons, not_or] at h
      rw [keepRed, ih h.2]
      rintro _ rfl
      exact absurd rfl h.1

/-- Marks the part of a line between two columns in red. -/
def highlight (startColumn endColumn : Nat) (line : List Char) : String :=
  let (before, rest) := Text.splitBytes startColumn line
  let (inside, after) := Text.splitBytes (endColumn - startColumn) rest
  String.ofList (before ++ red ++ keepRed inside ++ plain ++ after)

/-- The line of the span below the line before it, with line numbers, and below it a
message whose mark stands under the last column of the span. -/
def excerpt (colored : Bool) (span : Span) (message : String) : String :=
  let lines := Text.lines span.source.toList
  let line := lines[span.line]?.getD []
  let previous := if span.line = 0 then [] else lines[span.line - 1]?.getD []
  let shown :=
    if colored then highlight span.startColumn span.endColumn line else String.ofList line
  let margin := blanks span.line.repr.length
  String.intercalate "\n"
    [margin ++ " |",
      margin ++ " |" ++ String.ofList previous ++ " ",
      (span.line + 1).repr ++ " |" ++ shown,
      (span.line + 2).repr ++ " |" ++ blanks (span.endColumn - 1) ++ "^--- " ++ message,
      margin ++ " |"]

end Span

end Viewlet
