import Viewlet.Proofs.Reading.ParseRun

namespace Viewlet

/-- The token with another span. -/
def Token.moved (move : Span → Span) (token : Token) : Token :=
  { token with span := move token.span }

/-- The complaint about another span. -/
def SyntaxError.moved (move : Span → Span) (error : SyntaxError) : SyntaxError :=
  { error with span := error.span.map move }

/-- A unit in a stream: the reader there with the limit of the unit, and how many tokens stand
before the unit. -/
structure Placement where
  unit : List Token
  move : Span → Span
  stream : Reader
  offset : Nat
  fits : (stream.tokens.take stream.limit).drop offset = unit.map (Token.moved move)
  limit : stream.limit = offset + unit.length

namespace Placement

variable (p : Placement)

/-- The reader in the stream that corresponds to a reader of the unit alone. -/
def place (alone : Reader) : Reader :=
  { p.stream with
    index := alone.index + p.offset
    furthest := alone.furthest.map fun found => (found.1 + p.offset, found.2.moved p.move) }

structure Admits (alone : Reader) : Prop where
  tokens : alone.tokens = p.unit
  limit : alone.limit = p.unit.length
  index : alone.index ≤ p.unit.length

/-- What comes of a parse in the stream, if this comes of it with the unit alone. -/
def outcome {α : Type} : Except SyntaxError α × Reader → Except SyntaxError α × Reader
  | (.ok result, after) => (.ok result, p.place after)
  | (.error error, after) => (.error (error.moved p.move), p.place after)

/-- The second parse does in the stream what the first one does with the unit alone. -/
def Matches {α : Type} (x y : Parse α) : Prop :=
  ∀ alone, p.Admits alone →
    p.Admits (x.run.run alone).2 ∧ y.run.run (p.place alone) = p.outcome (x.run.run alone)

variable {p} {alone : Reader}

section Readers

theorem rest_place (h : p.Admits alone) :
    (p.place alone).rest = alone.rest.map (Token.moved p.move) := by
  calc (p.stream.tokens.take p.stream.limit).drop (alone.index + p.offset)
      = ((p.stream.tokens.take p.stream.limit).drop p.offset).drop alone.index := by
        rw [List.drop_drop, Nat.add_comm]
    _ = (p.unit.drop alone.index).map (Token.moved p.move) := by rw [p.fits, List.map_drop]
    _ = alone.rest.map (Token.moved p.move) := by
        rw [Reader.rest, h.tokens, h.limit, List.take_length]

theorem peek?_place (h : p.Admits alone) :
    (p.place alone).peek? = alone.peek?.map (Token.moved p.move) := by
  rw [Reader.peek?_eq_head?, Reader.peek?_eq_head?, rest_place h, List.head?_map]

theorem remaining_place (h : p.Admits alone) :
    (p.place alone).limit - (p.place alone).index = alone.limit - alone.index := by
  change p.stream.limit - (alone.index + p.offset) = alone.limit - alone.index
  have hlimit := p.limit
  have halone := h.limit
  omega

theorem hasNext_place (h : p.Admits alone) : (p.place alone).hasNext = alone.hasNext := by
  have hlimit := p.limit
  have halone := h.limit
  change decide (alone.index + p.offset < p.stream.limit) = decide (alone.index < alone.limit)
  rw [decide_eq_decide]
  omega

theorem mismatch_place (h : p.Admits alone) (expected : String) :
    (p.place alone).mismatch expected = (alone.mismatch expected).moved p.move := by
  rw [Reader.mismatch, Reader.mismatch, peek?_place h]
  cases alone.peek? <;> rfl

theorem errorHere_place (h : p.Admits alone) (reason : Reason) :
    (p.place alone).errorHere reason = (alone.errorHere reason).moved p.move := by
  rw [Reader.errorHere, Reader.errorHere, peek?_place h]
  cases alone.peek? <;> rfl

theorem advance_place (h : p.Admits alone) :
    p.Admits alone.advance ∧ (p.place alone).advance = p.place alone.advance := by
  rw [Reader.advance, Reader.advance, hasNext_place h]
  split
  · next hnext =>
      have hindex : alone.index < alone.limit := of_decide_eq_true hnext
      have hlimit := h.limit
      refine ⟨⟨h.tokens, h.limit, ?_⟩, ?_⟩
      · change alone.index + 1 ≤ p.unit.length
        omega
      · simp only [place, Nat.add_right_comm]
  · exact ⟨h, rfl⟩

theorem record_place (h : p.Admits alone) (error : SyntaxError) :
    p.Admits (alone.record error) ∧
      (p.place alone).record (error.moved p.move) = p.place (alone.record error) := by
  rcases alone with ⟨tokens, unitStarts, index, limit, _ | ⟨furthest, complaint⟩, errors⟩
  · exact ⟨⟨h.tokens, h.limit, h.index⟩, rfl⟩
  · simp only [Reader.record, place, Option.map_some, Nat.add_lt_add_iff_right]
    split
    · exact ⟨h, rfl⟩
    · exact ⟨⟨h.tokens, h.limit, h.index⟩, rfl⟩

theorem Admits.moveTo {after : Reader} (h : p.Admits alone) (hafter : p.Admits after) :
    p.Admits (after.moveTo alone.index) :=
  ⟨hafter.tokens, hafter.limit, h.index⟩

end Readers

section Rules

variable {α β : Type} {x y x' y' : Parse α} {f g : α → Parse β} {expected : String}

theorem matches_pure (result : α) : p.Matches (pure result) (pure result) :=
  fun _ h => ⟨h, rfl⟩

theorem Matches.bind (hx : p.Matches x y) (hf : ∀ result, p.Matches (f result) (g result)) :
    p.Matches (x >>= f) (y >>= g) := by
  intro alone h
  obtain ⟨hafter, hrun⟩ := hx alone h
  rcases halone : x.run.run alone with ⟨error | result, after⟩
  · rw [halone] at hafter hrun
    rw [Parse.run_bind_error halone, Parse.run_bind_error hrun]
    exact ⟨hafter, rfl⟩
  · rw [halone] at hafter hrun
    rw [Parse.run_bind_ok halone, Parse.run_bind_ok hrun]
    exact hf result after hafter

theorem Matches.recover {handle handle' : SyntaxError → Parse α} (hx : p.Matches x y)
    (hhandle : ∀ error, p.Matches (handle error) (handle' (error.moved p.move))) :
    p.Matches (tryCatch x handle) (tryCatch y handle') := by
  intro alone h
  obtain ⟨hafter, hrun⟩ := hx alone h
  rcases halone : x.run.run alone with ⟨error | result, after⟩
  · rw [halone] at hafter hrun
    rw [Parse.run_tryCatch_error halone, Parse.run_tryCatch_error hrun]
    exact hhandle error after hafter
  · rw [halone] at hafter hrun
    rw [Parse.run_tryCatch_ok halone, Parse.run_tryCatch_ok hrun]
    exact ⟨hafter, rfl⟩

theorem matches_get_bind {f g : Reader → Parse β}
    (h : ∀ alone, p.Admits alone → p.Matches (f alone) (g (p.place alone))) :
    p.Matches (get >>= f) (get >>= g) :=
  fun alone hadmits => h alone hadmits alone hadmits

theorem matches_fail (error : SyntaxError) :
    p.Matches (Parse.fail error : Parse α) (Parse.fail (error.moved p.move)) := by
  intro alone h
  obtain ⟨hafter, hrecord⟩ := record_place h error
  refine ⟨hafter, ?_⟩
  change ((Except.error (error.moved p.move), (p.place alone).record (error.moved p.move)) :
    Except SyntaxError α × Reader) = _
  rw [hrecord]
  rfl

theorem matches_unexpected :
    p.Matches (Parse.unexpected expected : Parse α) (Parse.unexpected expected) := by
  refine matches_get_bind fun alone h => ?_
  rw [mismatch_place h]
  exact matches_fail _

theorem matches_peek_bind {f g : Option Token → Parse β}
    (h : ∀ next, p.Matches (f next) (g (next.map (Token.moved p.move)))) :
    p.Matches (Parse.peek >>= f) (Parse.peek >>= g) := by
  intro alone hadmits
  rw [Parse.run_bind_ok (Parse.run_peek (p.place alone)), Parse.run_bind_ok (Parse.run_peek alone),
    peek?_place hadmits]
  exact h alone.peek? alone hadmits

theorem matches_peekKind : p.Matches Parse.peekKind Parse.peekKind := by
  refine matches_peek_bind fun next => ?_
  rw [Option.map_map]
  exact matches_pure _

theorem matches_advance : p.Matches Parse.advance Parse.advance := by
  intro alone h
  obtain ⟨hafter, hadvance⟩ := advance_place h
  refine ⟨hafter, ?_⟩
  change ((Except.ok (), (p.place alone).advance) : Except SyntaxError Unit × Reader) = _
  rw [hadvance]
  rfl

theorem matches_remaining : p.Matches Parse.remaining Parse.remaining := by
  refine matches_get_bind fun alone h => ?_
  rw [remaining_place h]
  exact matches_pure _

theorem matches_moveTo (h : p.Admits alone) :
    p.Matches (modify fun reader => reader.moveTo alone.index)
      (modify fun reader => reader.moveTo (p.place alone).index) :=
  fun _ hafter => ⟨h.moveTo hafter, rfl⟩

theorem Matches.label (h : p.Matches x y) :
    p.Matches (Parse.label expected x) (Parse.label expected y) :=
  h.recover fun error => matches_fail { error with expected := [expected] }

theorem Matches.either (h : p.Matches x y) (h' : p.Matches x' y') :
    p.Matches (Parse.either x x') (Parse.either y y') :=
  matches_get_bind fun _ hadmits => h.recover fun _ => (matches_moveTo hadmits).bind fun _ => h'

theorem Matches.manyUpTo (h : p.Matches x y) (count : Nat) :
    p.Matches (Parse.manyUpTo x count) (Parse.manyUpTo y count) := by
  induction count with
  | zero => exact matches_pure []
  | succ count ih =>
      refine matches_get_bind fun alone hadmits => ?_
      have htry : p.Matches (tryCatch (some <$> x) fun _ => return none)
          (tryCatch (some <$> y) fun _ => return none) :=
        (h.bind fun result => matches_pure (some result)).recover fun _ => matches_pure none
      refine htry.bind fun result => ?_
      cases result with
      | none => exact (matches_moveTo hadmits).bind fun _ => matches_pure []
      | some result => exact ih.bind fun results => matches_pure (result :: results)

theorem Matches.many (h : p.Matches x y) : p.Matches (Parse.many x) (Parse.many y) :=
  matches_remaining.bind fun count => h.manyUpTo (count + 1)

theorem Matches.manyOne (h : p.Matches x y) : p.Matches (Parse.manyOne x) (Parse.manyOne y) :=
  h.bind fun first => h.many.bind fun others => matches_pure (first :: others)

end Rules

open Parse

section Names

variable {expected : String}

theorem matches_expect (kind : Token.Kind) : p.Matches (expect kind) (expect kind) := by
  refine matches_peekKind.bind fun found => ?_
  split
  · exact matches_advance
  · exact matches_unexpected

theorem matches_nameWhere (admits : String → Bool) :
    p.Matches (nameWhere admits expected) (nameWhere admits expected) := by
  refine matches_peek_bind fun next => ?_
  cases next with
  | none => exact matches_unexpected
  | some token =>
      dsimp only [Option.map, Token.moved]
      split
      · exact matches_advance.bind fun _ => matches_pure token.text
      · exact matches_unexpected

theorem matches_name : p.Matches name name :=
  matches_nameWhere _

theorem matches_capitalized : p.Matches capitalized capitalized :=
  matches_nameWhere _

end Names

section Expressions

variable {e : Parse Node}

theorem matches_integer (token : Token) :
    p.Matches (integer token) (integer (token.moved p.move)) := by
  dsimp only [integer, Token.moved]
  split
  · exact matches_advance.bind fun _ => matches_pure _
  · exact matches_fail _

theorem matches_atom (h : p.Matches e e) : p.Matches (atom e) (atom e) := by
  refine matches_peek_bind fun next => ?_
  cases next with
  | none => exact matches_unexpected
  | some token =>
      have hinteger := matches_integer (p := p) token
      dsimp only [Option.map, Token.moved] at hinteger ⊢
      split
      · exact hinteger
      · exact matches_advance.bind fun _ => matches_pure _
      · exact matches_advance.bind fun _ => matches_pure _
      · exact matches_advance.bind fun _ => matches_pure _
      · refine matches_advance.bind fun _ => ?_
        split <;> exact matches_pure _
      · exact matches_advance.bind fun _ => h.bind fun inner =>
          (matches_expect _).bind fun _ => matches_pure inner
      · exact matches_unexpected

theorem startsArgument_moved (token : Token) :
    startsArgument (token.moved p.move) = startsArgument token :=
  rfl

theorem matches_argumentsUpTo (h : p.Matches e e) (count : Nat) :
    p.Matches (argumentsUpTo e count) (argumentsUpTo e count) := by
  induction count with
  | zero => exact matches_pure []
  | succ count ih =>
      refine matches_peek_bind fun next => ?_
      cases next with
      | none => exact matches_pure []
      | some token =>
          rw [Option.map_some]
          dsimp only
          rw [startsArgument_moved]
          split
          · exact (matches_atom h).bind fun first => ih.bind fun _ => matches_pure _
          · exact matches_pure []

theorem matches_arguments (h : p.Matches e e) : p.Matches (arguments e) (arguments e) :=
  matches_remaining.bind (matches_argumentsUpTo h)

theorem matches_application (h : p.Matches e e) : p.Matches (application e) (application e) := by
  refine matches_peek_bind fun next => ?_
  cases next with
  | none => exact matches_unexpected
  | some token =>
      dsimp only [Option.map, Token.moved]
      split
      · exact matches_advance.bind fun _ => (matches_arguments h).bind fun _ => matches_pure _
      · exact (matches_atom h).bind fun _ => (matches_arguments h).bind fun _ => matches_pure _

theorem matches_unaryUpTo (h : p.Matches e e) (count : Nat) :
    p.Matches (unaryUpTo e count) (unaryUpTo e count) := by
  induction count with
  | zero => exact matches_application h
  | succ count ih =>
      refine matches_peek_bind fun next => ?_
      cases next with
      | none => exact matches_application h
      | some token =>
          dsimp only [Option.map, Token.moved]
          split
          · exact matches_advance.bind fun _ => ih.bind fun _ => matches_pure _
          · split
            · exact matches_advance.bind fun _ => ih.bind fun _ => matches_pure _
            · exact matches_application h

theorem matches_chainUpTo {operators : List (Token.Kind × BinOp)} {operand : Parse Node}
    (h : p.Matches operand operand) (count : Nat) (left : Node) :
    p.Matches (chainUpTo operators operand count left)
      (chainUpTo operators operand count left) := by
  induction count generalizing left with
  | zero => exact matches_pure left
  | succ count ih =>
      refine matches_peekKind.bind fun kind => ?_
      split
      · exact matches_advance.bind fun _ => h.bind fun _ => ih _
      · exact matches_pure left

theorem matches_operation (h : p.Matches e e) (tiers : List (List (Token.Kind × BinOp))) :
    p.Matches (operation e tiers) (operation e tiers) := by
  induction tiers with
  | nil => exact matches_remaining.bind (matches_unaryUpTo h)
  | cons operators inner ih =>
      exact ih.bind fun left => matches_remaining.bind fun count => matches_chainUpTo ih count left

theorem matches_pipeline (h : p.Matches e e) : p.Matches (pipeline e) (pipeline e) := by
  refine (matches_operation h tiers).bind fun left => matches_peekKind.bind fun kind => ?_
  split
  · exact matches_advance.bind fun _ => h.bind fun _ => matches_pure _
  · have hstep : p.Matches (pipelineStep e) (pipelineStep e) :=
      (matches_expect _).bind fun _ => matches_operation h tiers
    exact hstep.many.bind fun _ => matches_pure _
  · exact matches_pure left

theorem matches_lambda (h : p.Matches e e) : p.Matches (lambda e) (lambda e) :=
  (matches_expect _).bind fun _ => matches_name.manyOne.label.bind fun _ =>
    (matches_expect _).bind fun _ => h.bind fun _ => matches_pure _

theorem matches_armsUpTo (h : p.Matches e e) (count : Nat) :
    p.Matches (armsUpTo e count) (armsUpTo e count) := by
  induction count with
  | zero => exact matches_unexpected
  | succ count ih =>
      refine h.bind fun condition => (matches_expect _).bind fun _ => h.bind fun branch => ?_
      refine (matches_expect _).bind fun _ => matches_peekKind.bind fun kind => ?_
      split
      · exact matches_advance.bind fun _ => ih.bind fun _ => matches_pure _
      · exact h.bind fun _ => matches_pure _

theorem matches_conditional (h : p.Matches e e) : p.Matches (conditional e) (conditional e) :=
  (matches_expect _).bind fun _ => matches_remaining.bind fun count =>
    (matches_armsUpTo h (count + 1)).bind fun _ => matches_pure _

theorem matches_expressionWithin (depth : Nat) :
    p.Matches (expressionWithin depth) (expressionWithin depth) := by
  induction depth with
  | zero => exact matches_unexpected
  | succ depth ih =>
      refine matches_peekKind.bind fun kind => ?_
      split
      · exact matches_lambda ih
      · exact matches_conditional ih
      · exact matches_pipeline ih

theorem matches_expression : p.Matches expression expression :=
  matches_remaining.bind fun count => matches_expressionWithin (count + 1)

end Expressions

theorem matches_declaration : p.Matches declaration declaration :=
  matches_name.label.bind fun _ => matches_name.many.bind fun _ =>
    (matches_expect _).bind fun _ => matches_expression.bind fun _ => matches_pure _

theorem matches_constructor (result : String) :
    p.Matches (constructor result) (constructor result) :=
  matches_capitalized.label.bind fun _ =>
    (matches_capitalized.either matches_name).many.bind fun _ => matches_pure _

theorem matches_typeDefinition : p.Matches typeDefinition typeDefinition := by
  have halternative (defined : String) : p.Matches (alternative defined) (alternative defined) :=
    (matches_expect _).bind fun _ => matches_constructor defined
  have hrest := (matches_capitalized (p := p)).bind fun defined =>
    matches_name.many.bind fun parameters => (matches_expect .equals).bind fun _ =>
      (matches_constructor defined).bind fun first => (halternative defined).many.bind fun others =>
        matches_pure (Node.typeDefinition defined parameters (first :: others))
  refine (matches_expect _).bind fun _ => matches_peek_bind fun next => ?_
  cases next with
  | none => exact hrest
  | some token =>
      dsimp only [Option.map, Token.moved]
      split
      · exact (matches_fail _).bind fun _ => hrest
      · exact hrest

theorem startsDeclaration_map (tokens : List Token) :
    startsDeclaration (tokens.map (Token.moved p.move)) = startsDeclaration tokens := by
  rw [startsDeclaration, List.takeWhile_map, List.dropWhile_map, List.isEmpty_map, List.head?_map,
    Option.any_map]
  rfl

theorem matches_item : p.Matches item item := by
  refine matches_peekKind.bind fun kind => ?_
  split
  · exact matches_typeDefinition
  · refine matches_get_bind fun alone h => ?_
    rw [rest_place h, startsDeclaration_map]
    split
    · exact matches_declaration
    · exact matches_expression

section Unit

variable {parse : Parse Node}

theorem admits_ofTokens : p.Admits (Reader.ofTokens p.unit []) :=
  ⟨rfl, rfl, Nat.zero_le _⟩

theorem skipUnit_place (h : p.Admits alone) :
    (p.place alone).skipUnit = p.place alone.skipUnit := by
  simp only [Reader.skipUnit, Reader.moveTo, place, p.limit, h.limit, Nat.add_comm]

theorem furthestError?_place (error : SyntaxError) :
    (p.place alone).furthestError?.getD (error.moved p.move) =
      (alone.furthestError?.getD error).moved p.move := by
  rcases alone with ⟨_, _, _, _, _ | furthest, _⟩ <;> rfl

/-- A unit is read in the stream as it is read alone, and to its end. -/
theorem readUnit_place {reader : Reader} (hparse : p.Matches parse parse)
    (hbegin : reader.beginUnit = p.place (Reader.ofTokens p.unit [])) (hne : p.unit ≠ []) :
    (reader.readUnit parse).1 = ((Reader.ofTokens p.unit []).readUnit parse).1.mapError
        (SyntaxError.moved p.move) ∧
      ∃ after, after.index = p.unit.length ∧ (reader.readUnit parse).2 = p.place after := by
  have halone : (Reader.ofTokens p.unit []).beginUnit = Reader.ofTokens p.unit [] := rfl
  have hnext : (Reader.ofTokens p.unit []).hasNext = true :=
    decide_eq_true (List.length_pos_iff.mpr hne)
  obtain ⟨hadmits, hrun⟩ := hparse _ admits_ofTokens
  rw [Reader.readUnit, Reader.readUnit, hbegin, halone]
  rw [hasNext_place admits_ofTokens, hnext, if_pos rfl, if_pos rfl, hrun]
  rcases hresult : parse.run.run (Reader.ofTokens p.unit []) with ⟨error | node, after⟩ <;>
    rw [hresult] at hadmits
  · refine ⟨?_, after.skipUnit, hadmits.limit, skipUnit_place hadmits⟩
    exact congrArg Except.error (furthestError?_place error)
  · dsimp only [outcome]
    rw [hasNext_place hadmits]
    split
    · refine ⟨?_, after.skipUnit, hadmits.limit, skipUnit_place hadmits⟩
      exact congrArg Except.error (errorHere_place hadmits _)
    · next hlast =>
        refine ⟨rfl, after, ?_, rfl⟩
        have hindex : after.index ≤ p.unit.length := hadmits.index
        have hlimit : after.limit = p.unit.length := hadmits.limit
        have hend : ¬after.index < after.limit := fun h => hlast (decide_eq_true h)
        omega

end Unit

end Placement

end Viewlet
