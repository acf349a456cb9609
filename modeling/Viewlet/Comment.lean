/-!
Comments. A line comment runs from two dashes to the end of its line, a block comment
stands between an opening and a closing mark and may hold further block comments. Neither
begins inside a string literal. Comments are blanked where they stand, so everything else
keeps its position.
-/

namespace Viewlet.Comment

/-- What the characters at a point of the text belong to. -/
inductive Context where
  | code
  | string
  | lineComment
  | blockComment (depth : Nat)
  deriving DecidableEq, Repr

/-- Blanks the comments of a text that begins in the given context. Every character of a
comment becomes a space, except newlines, which stay. A string literal ends at its quote
or at the end of its line, and a backslash in it shields the next character. -/
def blankFrom : Context → List Char → List Char
  | _, [] => []
  | .blockComment depth, '{' :: '-' :: rest =>
      ' ' :: ' ' :: blankFrom (.blockComment (depth + 1)) rest
  | .blockComment 0, '-' :: '}' :: rest => ' ' :: ' ' :: blankFrom .code rest
  | .blockComment (depth + 1), '-' :: '}' :: rest =>
      ' ' :: ' ' :: blankFrom (.blockComment depth) rest
  | .blockComment depth, c :: rest =>
      (if c = '\n' then '\n' else ' ') :: blankFrom (.blockComment depth) rest
  | .lineComment, c :: rest =>
      if c = '\n' then c :: blankFrom .code rest else ' ' :: blankFrom .lineComment rest
  | .string, '\\' :: c :: rest => '\\' :: c :: blankFrom .string rest
  | .string, c :: rest =>
      c :: blankFrom (if c = '"' ∨ c = '\n' then .code else .string) rest
  | .code, '"' :: rest => '"' :: blankFrom .string rest
  | .code, '{' :: '-' :: rest => ' ' :: ' ' :: blankFrom (.blockComment 0) rest
  | .code, '-' :: '-' :: rest => ' ' :: ' ' :: blankFrom .lineComment rest
  | .code, c :: rest => c :: blankFrom .code rest

/-- The text with its comments blanked. -/
def blank (text : String) : String :=
  String.ofList (blankFrom .code text.toList)

end Viewlet.Comment
