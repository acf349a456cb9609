import Viewlet.Token
import Viewlet.Text.Blank

/-!
Cutting a text into tokens. Blanks are skipped; at every other place the kind that matches
furthest is taken, and of several that match equally far the first one in the order of
kinds. A place counts bytes, and only a skipped newline begins a line.
-/

namespace Viewlet.Token

/-- Whether a character can begin a name. -/
def startsName (c : Char) : Bool :=
  c.isAlpha || c == '_'

/-- Whether a character can continue a name. -/
def continuesName (c : Char) : Bool :=
  c.isAlphanum || c == '_'

/-- The number of digits at the front. -/
def digitCount (text : List Char) : Nat :=
  (text.takeWhile Char.isDigit).length

/-- The length of the name at the front. -/
def nameLength? : List Char → Option Nat
  | [] => none
  | c :: rest => if startsName c then some (1 + (rest.takeWhile continuesName).length) else none

/-- The length of the digits at the front. -/
def integerLength? (text : List Char) : Option Nat :=
  if digitCount text = 0 then none else some (digitCount text)

/-- The length of the digits, point and digits at the front. -/
def floatLength? (text : List Char) : Option Nat :=
  match digitCount text, text.drop (digitCount text) with
  | whole + 1, '.' :: rest =>
      if digitCount rest = 0 then none else some (whole + 1 + 1 + digitCount rest)
  | _, _ => none

/-- The number of characters up to and with the closing quote. A backslash takes the next
character with it, which must not be a newline. -/
def closingLength? : List Char → Option Nat
  | [] => none
  | '"' :: _ => some 1
  | '\\' :: c :: rest => if c = '\n' then none else (closingLength? rest).map (· + 2)
  | c :: rest => if c = '\\' then none else (closingLength? rest).map (· + 1)

/-- The length of the string literal at the front. -/
def stringLength? : List Char → Option Nat
  | '"' :: rest => (closingLength? rest).map (· + 1)
  | _ => none

/-- The length of the character literal at the front: one character, or one after a
backslash. -/
def charLength? : List Char → Option Nat
  | '\'' :: '\\' :: c :: '\'' :: _ => if c = '\n' then none else some 4
  | '\'' :: c :: '\'' :: _ => if c = '\'' ∨ c = '\\' then none else some 3
  | _ => none

/-- How far a kind matches at the front of a text. -/
def Kind.matchLength? (kind : Kind) (text : List Char) : Option Nat :=
  match kind with
  | .name => nameLength? text
  | .float => floatLength? text
  | .integer => integerLength? text
  | .string => stringLength? text
  | .char => charLength? text
  | _ =>
      match kind.spelling? with
      | some spelling => if spelling.toList.isPrefixOf text then some spelling.length else none
      | none => none

/-- The candidate that reaches furthest, the earliest of equals. -/
def furthest : List (Kind × Nat) → Option (Kind × Nat)
  | [] => none
  | candidate :: rest =>
      match furthest rest with
      | none => some candidate
      | some later => if candidate.2 < later.2 then some later else some candidate

/-- The kind and length of the token at the front of a text. -/
def longest? (text : List Char) : Option (Kind × Nat) :=
  furthest (Kind.all.filterMap fun kind => (kind.matchLength? text).map (kind, ·))

/-- A place in a text: the bytes before it, its line, and the bytes of that line before
it. -/
structure Place where
  offset : Nat
  line : Nat
  column : Nat
  deriving DecidableEq, Repr

/-- The place after a skipped blank. -/
def Place.afterBlank (place : Place) (c : Char) : Place :=
  if c = '\n' then ⟨place.offset + 1, place.line + 1, 0⟩
  else ⟨place.offset + 1, place.line, place.column + 1⟩

/-- The place after a token, which is on the same line. -/
def Place.afterLexeme (place : Place) (lexeme : List Char) : Place :=
  ⟨place.offset + Text.byteLength lexeme, place.line, place.column + Text.byteLength lexeme⟩

/-- A text with a place at which no token begins. -/
structure ScanFailure where
  text : String
  offset : Nat
  rest : String
  deriving DecidableEq, Repr

/-- The failure in words. -/
def ScanFailure.message (failure : ScanFailure) : String :=
  "Failed to lex '" ++ failure.text ++ "' at position " ++ failure.offset.repr ++
    "; remaining '" ++ failure.rest ++ "'"

/-- The token of a kind that stands at a place of the source. -/
def ofLexeme (source : String) (place : Place) (kind : Kind) (lexeme : List Char) : Token where
  kind := kind
  text := String.ofList lexeme
  span := ⟨source, place.line, place.column, place.column + Text.byteLength lexeme⟩

/-- The tokens of the rest of a source after `skipped` characters of it, which belong to
the last token and end at the given place. -/
def scanFrom (source : String) :
    Place → (skipped : Nat) → List Char → Except ScanFailure (List Token)
  | _, _, [] => .ok []
  | place, skipped + 1, _ :: rest => scanFrom source place skipped rest
  | place, 0, c :: rest =>
      if Text.isBlank c then scanFrom source (place.afterBlank c) 0 rest
      else
        match longest? (c :: rest) with
        | none => .error ⟨source, place.offset, String.ofList (c :: rest)⟩
        | some (kind, length) =>
            let lexeme := (c :: rest).take length
            match scanFrom source (place.afterLexeme lexeme) (length - 1) rest with
            | .ok tokens => .ok (ofLexeme source place kind lexeme :: tokens)
            | .error failure => .error failure

/-- The tokens of a text. -/
def scan (source : String) : Except ScanFailure (List Token) :=
  scanFrom source ⟨0, 0, 0⟩ 0 source.toList

/-- Characters that belong to the last token are passed over. -/
theorem scanFrom_skipped (source : String) (place : Place) (skipped : Nat) (text : List Char) :
    scanFrom source place skipped text = scanFrom source place 0 (text.drop skipped) := by
  induction text generalizing skipped with
  | nil => cases skipped <;> simp [scanFrom]
  | cons c rest ih =>
      cases skipped with
      | zero => rfl
      | succ skipped => simpa [scanFrom] using ih skipped

end Viewlet.Token
