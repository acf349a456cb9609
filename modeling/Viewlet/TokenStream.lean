import Viewlet.Alphabet
import Viewlet.Comment
import Viewlet.Layout

/-!
The tokens of a whole text, divided into units: one unit for every block of the layout
that holds a token.
-/

namespace Viewlet

/-- Tokens together with the indices at which units begin. -/
structure TokenStream where
  tokens : List Token
  unitStarts : List Nat
  deriving DecidableEq, Repr

namespace TokenStream

/-- The indices at which consecutive runs begin, if `count` tokens stand before them. -/
def startsFrom : (count : Nat) → List (List Token) → List Nat
  | _, [] => []
  | count, run :: runs => count :: startsFrom (count + run.length) runs

/-- The stream of consecutive runs of tokens. An empty run is no unit. -/
def ofRuns (runs : List (List Token)) : TokenStream :=
  ⟨runs.flatten, startsFrom 0 (runs.filter fun run => !run.isEmpty)⟩

/-- The tokens of each block. -/
def scanBlocks : List Layout.Block → Except LexError (List (List Token))
  | [] => .ok []
  | block :: blocks =>
      match Token.scan (String.ofList block.inPlace) with
      | .error failure => .error (.noToken failure)
      | .ok run =>
          match scanBlocks blocks with
          | .error error => .error error
          | .ok runs => .ok (run :: runs)

/-- The tokens of a text. Its comments are blanked and its characters checked before any
token is read. -/
def ofSource (source : String) : Except LexError TokenStream :=
  let text := Comment.blankFrom .code source.toList
  match Alphabet.fault? text with
  | some error => .error error
  | none => (scanBlocks (Layout.blocks text)).map ofRuns

/-- The next token. -/
def peek? (stream : TokenStream) : Option Token :=
  stream.tokens.head?

/-- The stream after its next token. The unit of a token that was taken has no start any
more. -/
def next (stream : TokenStream) : TokenStream :=
  match stream.tokens with
  | [] => stream
  | _ :: rest =>
      ⟨rest, (stream.unitStarts.filter fun start => 1 ≤ start).map fun start => start - 1⟩

end TokenStream

end Viewlet
