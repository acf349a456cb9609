import Viewlet.Token.Scan

/-!
What can be wrong with a text before its structure is looked at.
-/

namespace Viewlet

/-- The causes for which a text has no tokens. Lines and columns count from one, columns
in characters. -/
inductive LexError where
  /-- A character that begins no token. -/
  | unexpectedCharacter (character : Char) (line column : Nat)
  /-- A literal opened by `quote` that does not end on its line. -/
  | unterminated (quote : Char) (line column : Nat)
  /-- Admitted characters that form no token. -/
  | noToken (failure : Token.ScanFailure)
  deriving DecidableEq, Repr

/-- The cause in words. -/
def LexError.message : LexError → String
  | .unexpectedCharacter character line column =>
      "unexpected character '" ++ String.singleton character ++ "' at line " ++ line.repr ++
        ", column " ++ column.repr
  | .unterminated quote line column =>
      "unterminated " ++ (if quote = '"' then "string literal" else "char literal") ++
        " starting at line " ++ line.repr ++ ", column " ++ column.repr
  | .noToken failure => failure.message

end Viewlet
