import Viewlet.Text.Blank
import Viewlet.Text.Lines

/-!
Layout. A line whose first character is not white space opens a block, and the lines below
it that open none belong to it. The first line of a text opens a block in any case.
-/

namespace Viewlet.Layout

/-- A block: the index of its first line and its lines. -/
structure Block where
  firstLine : Nat
  lines : List (List Char)
  deriving DecidableEq, Repr

/-- The text of a block below as many empty lines as there are lines before it, so that
its lines have the same index as in the whole text. -/
def Block.inPlace (block : Block) : List Char :=
  List.replicate block.firstLine '\n' ++ Text.join '\n' block.lines

/-- Whether a line opens a block. -/
def opens (line : List Char) : Bool :=
  line.head?.any fun c => !Text.isWhiteSpace c

/-- Divides lines into those that continue the block above them and the blocks that
follow. The first of them has the given index. -/
def divide : (index : Nat) → List (List Char) → List (List Char) × List Block
  | _, [] => ([], [])
  | index, line :: rest =>
      let (continuation, blocks) := divide (index + 1) rest
      if opens line then ([], ⟨index, line :: continuation⟩ :: blocks)
      else (line :: continuation, blocks)

/-- The blocks of a text. -/
def blocks (text : List Char) : List Block :=
  match Text.pieces '\n' text with
  | [] => []
  | first :: rest =>
      let (continuation, following) := divide 1 rest
      ⟨0, first :: continuation⟩ :: following

end Viewlet.Layout
