/-!
Pieces and lines of a text, and lengths in bytes. Columns count the bytes of the UTF-8 form, so the
length of a piece of text is the sum of the sizes of its characters.
-/

namespace Viewlet.Text

/-- The number of bytes that characters take in UTF-8. -/
def byteLength : List Char → Nat
  | [] => 0
  | c :: cs => c.utf8Size + byteLength cs

@[simp] theorem byteLength_append (first second : List Char) :
    byteLength (first ++ second) = byteLength first + byteLength second := by
  induction first with
  | nil => simp [byteLength]
  | cons c cs ih => simp [byteLength, ih, Nat.add_assoc]

/-- The characters that lie within the first `count` bytes, and those after them. -/
def splitBytes : Nat → List Char → List Char × List Char
  | _, [] => ([], [])
  | count, c :: cs =>
      if c.utf8Size ≤ count then
        let (before, rest) := splitBytes (count - c.utf8Size) cs
        (c :: before, rest)
      else ([], c :: cs)

/-- The pieces between marks. There is one piece more than there are marks. -/
def pieces (mark : Char) : List Char → List (List Char)
  | [] => [[]]
  | c :: cs =>
      if c = mark then [] :: pieces mark cs
      else match pieces mark cs with
        | [] => [[c]]
        | piece :: rest => (c :: piece) :: rest

/-- Puts marks between pieces. -/
def join (mark : Char) : List (List Char) → List Char
  | [] => []
  | [piece] => piece
  | piece :: next :: rest => piece ++ mark :: join mark (next :: rest)

/-- Removes one carriage return from the end. -/
def dropReturn (piece : List Char) : List Char :=
  if piece.getLast? = some '\r' then piece.dropLast else piece

/-- The lines of a text. A line ends at a newline or at a carriage return with a newline,
and what follows the last newline is a line only if it is not empty. -/
def lines (text : List Char) : List (List Char) :=
  let parts := pieces '\n' text
  parts.dropLast.map dropReturn ++ parts.getLast?.toList.filter fun last => !last.isEmpty

theorem pieces_ne_nil (mark : Char) (text : List Char) : pieces mark text ≠ [] := by
  cases text with
  | nil => simp [pieces]
  | cons c cs =>
      rw [pieces]
      split
      · simp
      · split <;> simp

/-- Joining the pieces of a text gives the text back. -/
@[simp] theorem join_pieces (mark : Char) (text : List Char) :
    join mark (pieces mark text) = text := by
  induction text with
  | nil => rfl
  | cons c cs ih =>
      have hne := pieces_ne_nil mark cs
      rw [pieces]
      split
      · next h =>
          cases hp : pieces mark cs with
          | nil => exact absurd hp hne
          | cons piece rest =>
              rw [hp] at ih
              simp [join, ih, h]
      · cases hp : pieces mark cs with
        | nil => exact absurd hp hne
        | cons piece rest =>
            rw [hp] at ih
            cases rest with
            | nil => simpa [join] using ih
            | cons next rest => simpa [join] using ih

end Viewlet.Text
