import Viewlet.LexError

/-!
The characters a text may hold. Outside literals these are blanks, ASCII letters and
digits, the underscore and the symbols; a literal may hold any character but must end on
the line it begins on.
-/

namespace Viewlet.Alphabet

/-- The characters that symbols are made of. -/
def symbols : List Char :=
  "()[]\x7b\x7d+-*/^=<>&|:\\.,".toList

/-- Whether a character may stand outside literals. -/
def admits (c : Char) : Bool :=
  Text.isBlank c || c.isAlphanum || c == '_' || symbols.contains c

/-- Whether a point of the text lies outside literals, in a literal, or after a backslash
in one. A literal carries its quote and the place where it began. -/
inductive Context where
  | code
  | literal (quote : Char) (line column : Nat)
  | escaped (quote : Char) (line column : Nat)
  deriving DecidableEq, Repr

/-- The first fault of a text that follows a character at the given line and column. An
escaped character counts as one column, also if it is a newline. -/
def faultFrom? : Context → (line column : Nat) → List Char → Option LexError
  | .code, _, _, [] => none
  | .literal quote startLine startColumn, _, _, [] =>
      some (.unterminated quote startLine startColumn)
  | .escaped quote startLine startColumn, _, _, [] =>
      some (.unterminated quote startLine startColumn)
  | .code, line, column, c :: rest =>
      if c = '\n' then faultFrom? .code (line + 1) 0 rest
      else if admits c then faultFrom? .code line (column + 1) rest
      else if c = '"' ∨ c = '\'' then
        faultFrom? (.literal c line (column + 1)) line (column + 1) rest
      else some (.unexpectedCharacter c line (column + 1))
  | .literal quote startLine startColumn, line, column, c :: rest =>
      if c = '\\' then faultFrom? (.escaped quote startLine startColumn) line (column + 1) rest
      else if c = '\n' then some (.unterminated quote startLine startColumn)
      else if c = quote then faultFrom? .code line (column + 1) rest
      else faultFrom? (.literal quote startLine startColumn) line (column + 1) rest
  | .escaped quote startLine startColumn, line, column, _ :: rest =>
      faultFrom? (.literal quote startLine startColumn) line (column + 1) rest

/-- The first fault of a text. -/
def fault? (text : List Char) : Option LexError :=
  faultFrom? .code 1 0 text

end Viewlet.Alphabet
