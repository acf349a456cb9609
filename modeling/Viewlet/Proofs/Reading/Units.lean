import Mathlib.Logic.Function.Iterate
import Viewlet.Proofs.Reading.Placement
import Viewlet.Proofs.Syntax

namespace Viewlet

namespace TokenStream

/-- Cuts tokens at the given indices. The first of them has the index `position`. -/
def cutAt (position : Nat) (tokens : List Token) : List Nat → List (List Token)
  | [] => [tokens]
  | start :: starts =>
      tokens.take (start - position) :: cutAt start (tokens.drop (start - position)) starts

/-- The tokens between consecutive unit starts. What is left of a unit whose start was taken
counts as a unit as well. -/
def units (stream : TokenStream) : List (List Token) :=
  (cutAt 0 stream.tokens stream.unitStarts).filter fun unit => !unit.isEmpty

/-- What is left of units if tokens are taken away at the front. -/
def unitsAfter (taken : Nat) : List (List Token) → List (List Token)
  | [] => []
  | unit :: units =>
      if taken < unit.length then unit.drop taken :: units
      else unitsAfter (taken - unit.length) units

/-- The stream consists of the units. The start of the first one may be missing. -/
structure Divides (stream : TokenStream) (units : List (List Token)) : Prop where
  tokens : stream.tokens = units.flatten
  nonempty : ∀ unit ∈ units, unit ≠ []
  starts : stream.unitStarts = startsFrom 0 units ∨
    stream.unitStarts = (startsFrom 0 units).tail

variable {stream : TokenStream} {unit : List Token} {units : List (List Token)} {count : Nat}

theorem length_startsFrom (count : Nat) (units : List (List Token)) :
    (startsFrom count units).length = units.length := by
  induction units generalizing count with
  | nil => rfl
  | cons unit units ih => rw [startsFrom, List.length_cons, List.length_cons, ih]

theorem le_of_mem_startsFrom {start : Nat} (h : start ∈ startsFrom count units) :
    count ≤ start := by
  induction units generalizing count with
  | nil => cases h
  | cons unit units ih =>
      rcases List.mem_cons.mp h with rfl | h
      · exact Nat.le_refl start
      · exact Nat.le_of_add_right_le (ih h)

theorem filter_startsFrom (h : ∀ unit ∈ units, unit ≠ []) (count : Nat) :
    (startsFrom count units).filter (count < ·) = (startsFrom count units).tail := by
  cases units with
  | nil => rfl
  | cons unit units =>
      have hpos := List.length_pos_iff.mpr (h unit List.mem_cons_self)
      rw [startsFrom, List.filter_cons_of_neg (by simp), List.tail_cons, List.filter_eq_self]
      intro start hmem
      have hle := le_of_mem_startsFrom hmem
      exact decide_eq_true (by omega)

theorem cutAt_startsFrom (position : Nat) (unit : List Token) (units : List (List Token)) :
    cutAt position (unit :: units).flatten (startsFrom (position + unit.length) units) =
      unit :: units := by
  induction units generalizing position unit with
  | nil => simp [startsFrom, cutAt]
  | cons next units ih =>
      rw [startsFrom, cutAt, List.flatten_cons, Nat.add_sub_cancel_left, List.take_left,
        List.drop_left, ih]

theorem Divides.units_eq (h : stream.Divides units) : stream.units = units := by
  have hfilter : units.filter (fun unit => !unit.isEmpty) = units := by
    rw [List.filter_eq_self]
    intro unit hmem
    simpa using h.nonempty unit hmem
  cases units with
  | nil =>
      have hstarts : stream.unitStarts = [] := h.starts.elim id id
      rw [TokenStream.units, h.tokens, hstarts]
      rfl
  | cons unit units =>
      have hcut := cutAt_startsFrom 0 unit units
      rcases h.starts with hstarts | hstarts
      · rw [TokenStream.units, h.tokens, hstarts, startsFrom, cutAt, Nat.sub_self, List.take_zero,
          List.drop_zero, hcut, List.filter_cons_of_neg (by simp), hfilter]
      · rw [TokenStream.units, h.tokens, hstarts, startsFrom, List.tail_cons, hcut, hfilter]

theorem divides_ofRuns (runs : List (List Token)) :
    (ofRuns runs).Divides (runs.filter fun run => !run.isEmpty) where
  tokens := List.flatten_filter_not_isEmpty.symm
  nonempty unit hmem := by simpa using (List.mem_filter.mp hmem).2
  starts := .inl rfl

section Taken

theorem unitsAfter_zero (h : ∀ unit ∈ units, unit ≠ []) : unitsAfter 0 units = units := by
  cases units with
  | nil => rfl
  | cons unit units =>
      rw [unitsAfter, if_pos (List.length_pos_iff.mpr (h unit List.mem_cons_self)), List.drop_zero]

theorem unitsAfter_succ (h : ∀ unit ∈ units, unit ≠ []) (taken : Nat) :
    unitsAfter taken (unitsAfter 1 units) = unitsAfter (taken + 1) units := by
  cases units with
  | nil => rfl
  | cons unit units =>
      obtain ⟨hunit, hunits⟩ := List.forall_mem_cons.mp h
      obtain ⟨token, rest, rfl⟩ := List.exists_cons_of_ne_nil hunit
      cases rest with
      | nil => simp [unitsAfter, unitsAfter_zero hunits]
      | cons next rest => simp [unitsAfter]

theorem map_startsFrom (count : Nat) (units : List (List Token)) :
    (startsFrom (count + 1) units).map (· - 1) = startsFrom count units := by
  induction units generalizing count with
  | nil => rfl
  | cons unit units ih =>
      rw [startsFrom, startsFrom, List.map_cons, Nat.add_right_comm, ih, Nat.add_sub_cancel]

theorem Divides.filter_starts (h : stream.Divides units) :
    stream.unitStarts.filter (0 < ·) = (startsFrom 0 units).tail := by
  have hfilter := filter_startsFrom h.nonempty 0
  rcases h.starts with hstarts | hstarts
  · rw [hstarts, hfilter]
  · rw [hstarts, ← hfilter, List.filter_filter]
    simp only [Bool.and_self]

theorem Divides.next (h : stream.Divides units) : stream.next.Divides (unitsAfter 1 units) := by
  have hfilter := h.filter_starts
  cases units with
  | nil =>
      have hnext : stream.next = stream := by
        rw [TokenStream.next, h.tokens]
        rfl
      rw [hnext]
      exact h
  | cons unit units =>
      obtain ⟨hunit, hunits⟩ := List.forall_mem_cons.mp h.nonempty
      obtain ⟨token, rest, rfl⟩ := List.exists_cons_of_ne_nil hunit
      have hnext : stream.next = ⟨rest ++ units.flatten, startsFrom rest.length units⟩ := by
        rw [TokenStream.next, h.tokens]
        refine congrArg (TokenStream.mk _) ?_
        rw [← map_startsFrom]
        refine congrArg (List.map (· - 1)) (hfilter.trans ?_)
        rw [startsFrom, List.tail_cons, List.length_cons, Nat.zero_add]
      rw [hnext]
      cases rest with
      | nil =>
          rw [unitsAfter, if_neg (by simp), List.length_singleton, Nat.sub_self,
            unitsAfter_zero hunits]
          exact ⟨rfl, hunits, .inl rfl⟩
      | cons second rest =>
          rw [unitsAfter, if_pos (by simp)]
          refine ⟨rfl, List.forall_mem_cons.mpr ⟨List.cons_ne_nil _ _, hunits⟩, .inr ?_⟩
          rw [List.drop_one, List.tail_cons, startsFrom, List.tail_cons, Nat.zero_add]

theorem Divides.iterate_next (h : stream.Divides units) (taken : Nat) :
    (TokenStream.next^[taken] stream).Divides (unitsAfter taken units) := by
  induction taken generalizing stream units with
  | zero =>
      rw [unitsAfter_zero h.nonempty]
      exact h
  | succ taken ih =>
      rw [Function.iterate_succ_apply, ← unitsAfter_succ h.nonempty]
      exact ih h.next

end Taken

end TokenStream

theorem Token.moved_id : Token.moved id = id :=
  rfl

theorem SyntaxError.moved_id (error : SyntaxError) : error.moved id = error := by
  rw [moved, Option.map_id]
  rfl

namespace Reader

open TokenStream

variable {reader : Reader} {unit : List Token} {units : List (List Token)} {parse : Parse Node}

/-- The outcome of reading the tokens of a unit alone. -/
def readAlone (parse : Parse Node) (unit : List Token) : Except SyntaxError Node :=
  ((ofTokens unit []).readUnit parse).1

/-- The reader stands before the units. -/
structure Ahead (reader : Reader) (units : List (List Token)) : Prop where
  tokens : reader.tokens.drop reader.index = units.flatten
  nonempty : ∀ unit ∈ units, unit ≠ []
  starts : reader.unitStarts.filter (reader.index < ·) = (startsFrom reader.index units).tail

theorem ahead_ofStream {stream : TokenStream} (h : stream.Divides units) :
    (ofStream stream).Ahead units :=
  ⟨h.tokens, h.nonempty, h.filter_starts⟩

theorem Ahead.limit (h : reader.Ahead (unit :: units)) :
    reader.beginUnit.limit = reader.index + unit.length := by
  rw [beginUnit]
  dsimp only
  rw [← List.head?_filter, h.starts, startsFrom, List.tail_cons]
  cases units with
  | nil =>
      have hlength := congrArg List.length h.tokens
      have hpos := List.length_pos_iff.mpr (h.nonempty unit List.mem_cons_self)
      rw [List.length_drop, List.flatten_singleton] at hlength
      change reader.tokens.length = reader.index + unit.length
      omega
  | cons next units => rfl

theorem Ahead.readUnit (h : reader.Ahead (unit :: units))
    (hparse : ∀ p : Placement, p.Matches parse parse) :
    (reader.readUnit parse).1 = readAlone parse unit ∧
      (reader.readUnit parse).2.Ahead units := by
  obtain ⟨hunit, hunits⟩ := List.forall_mem_cons.mp h.nonempty
  have hfits : (reader.tokens.take reader.beginUnit.limit).drop reader.index =
      unit.map (Token.moved id) := by
    rw [h.limit, List.drop_take, Nat.add_sub_cancel_left, h.tokens, List.flatten_cons,
      List.take_left, Token.moved_id, List.map_id]
  let p : Placement := ⟨unit, id, reader.beginUnit, reader.index, hfits, h.limit⟩
  have hbegin : reader.beginUnit = p.place (ofTokens unit []) := by
    change reader.beginUnit = { reader.beginUnit with index := 0 + reader.index, furthest := none }
    rw [Nat.zero_add]
    rfl
  obtain ⟨hresult, after, hindex, hafter⟩ := Placement.readUnit_place (hparse p) hbegin hunit
  constructor
  · rw [hresult]
    change Except.mapError _ (readAlone parse unit) = readAlone parse unit
    cases readAlone parse unit with
    | error error => exact congrArg Except.error (SyntaxError.moved_id error)
    | ok => rfl
  · have hplace : (p.place after).index = reader.index + unit.length := by
      rw [Nat.add_comm, ← hindex]
      rfl
    rw [hafter]
    refine ⟨?_, hunits, ?_⟩
    · rw [hplace, ← List.drop_drop]
      change (reader.tokens.drop reader.index).drop unit.length = units.flatten
      rw [h.tokens, List.flatten_cons, List.drop_left]
    · rw [hplace, ← filter_startsFrom hunits]
      have hstarts : startsFrom (reader.index + unit.length) units =
          reader.unitStarts.filter (reader.index < ·) := h.starts.symm
      rw [hstarts, List.filter_filter]
      refine List.filter_congr fun start _ => ?_
      rw [← Bool.decide_and, decide_eq_decide]
      omega

theorem Ahead.readUpTo (hparse : ∀ p : Placement, p.Matches parse parse) (h : reader.Ahead units)
    {count : Nat} (hcount : units.length ≤ count) :
    (reader.readUpTo parse count).1 = units.map (readAlone parse) ∧
      (reader.readUpTo parse count).2.isDone = true := by
  induction units generalizing reader count with
  | nil =>
      have hdone : reader.isDone = true := decide_eq_true (List.drop_eq_nil_iff.mp h.tokens)
      rw [readUpTo_of_isDone hdone]
      exact ⟨rfl, hdone⟩
  | cons unit units ih =>
      have hpos := Nat.lt_of_lt_of_le (Nat.zero_lt_succ _) hcount
      obtain ⟨count, rfl⟩ := Nat.exists_eq_add_one.mpr hpos
      obtain ⟨hresult, hafter⟩ := h.readUnit hparse
      obtain ⟨hresults, hlast⟩ := ih hafter (Nat.le_of_succ_le_succ hcount)
      have hmore : ¬reader.isDone = true := by
        intro hdone
        have hnil := List.drop_eq_nil_iff.mpr (of_decide_eq_true hdone)
        rw [h.tokens, List.flatten_cons, List.append_eq_nil_iff] at hnil
        exact h.nonempty unit List.mem_cons_self hnil.1
      rw [Reader.readUpTo, if_neg hmore]
      exact ⟨congrArg₂ List.cons hresult hresults, hlast⟩

theorem length_le_flatten (h : ∀ unit ∈ units, unit ≠ []) :
    units.length ≤ units.flatten.length := by
  induction units with
  | nil => exact Nat.le_refl 0
  | cons unit units ih =>
      obtain ⟨hunit, hunits⟩ := List.forall_mem_cons.mp h
      have hpos := List.length_pos_iff.mpr hunit
      have hle := ih hunits
      rw [List.flatten_cons, List.length_append, List.length_cons]
      omega

/-- The units of a stream are read one by one as if they were alone, to the end of the stream. -/
theorem readAll_ofStream {stream : TokenStream} (hparse : ∀ p : Placement, p.Matches parse parse)
    (h : stream.Divides units) :
    ((ofStream stream).readAll parse).1 = units.map (readAlone parse) ∧
      ((ofStream stream).readAll parse).2.isDone = true := by
  refine (ahead_ofStream h).readUpTo hparse ?_
  change units.length ≤ stream.tokens.length
  rw [h.tokens]
  exact length_le_flatten h.nonempty

end Reader

theorem length_separate (results : List (Except SyntaxError Node)) :
    (separate results).1.length + (separate results).2.length = results.length := by
  induction results with
  | nil => rfl
  | cons result results ih =>
      cases result with
      | error error =>
          change (separate results).1.length + ((separate results).2.length + 1) = _
          rw [List.length_cons, ← ih, Nat.add_assoc]
      | ok node =>
          change (separate results).1.length + 1 + (separate results).2.length = _
          rw [List.length_cons, ← ih, Nat.add_right_comm]

theorem TokenStream.ofSource_eq_ok {source : String} {stream : TokenStream} :
    ofSource source = .ok stream ↔
      Alphabet.fault? (Comment.blankFrom .code source.toList) = none ∧
        ∃ runs, scanBlocks (Layout.blocks (Comment.blankFrom .code source.toList)) = .ok runs ∧
          stream = ofRuns runs := by
  rw [ofSource]
  cases Alphabet.fault? (Comment.blankFrom .code source.toList) with
  | some error => simp
  | none =>
      cases scanBlocks (Layout.blocks (Comment.blankFrom .code source.toList)) with
      | error error => simp [Except.map]
      | ok runs => simp [Except.map, eq_comm]

/-- Whether results separate into given nodes and complaints. -/
def separated (nodes : List Node) (errors : List SyntaxError)
    (results : List (Except SyntaxError Node)) : Bool :=
  Node.sameAll nodes (separate results).1 && (separate results).2 = errors

theorem separate_eq {nodes : List Node} {errors : List SyntaxError}
    {results : List (Except SyntaxError Node)} (hexact : Node.allExact nodes = true)
    (h : separated nodes errors results = true) : separate results = (nodes, errors) := by
  obtain ⟨hsame, herrors⟩ := Bool.and_eq_true_iff.mp h
  exact Prod.ext (Node.eq_of_sameAll (fun _ _ _ => Node.eq_of_same) hexact hsame).symm
    (of_decide_eq_true herrors)

theorem readProgram_of_runs {source : String} {runs : List (List Token)}
    (h : TokenStream.ofSource source = .ok (.ofRuns runs)) :
    readProgram source = .ok (separate ((runs.filter fun run => !run.isEmpty).map
      (Reader.readAlone Parse.item))) := by
  have hparse (p : Placement) : p.Matches Parse.item Parse.item := Placement.matches_item
  rw [readProgram, h]
  exact congrArg (Except.ok ∘ separate)
    (Reader.readAll_ofStream hparse (TokenStream.divides_ofRuns runs)).1

/-- Every unit of a text is read as if its tokens were alone, whatever becomes of the others, and
the same goes for what is left of the units after some tokens were taken. -/
theorem Reader.readAll_units_alone {source : String} {stream : TokenStream}
    (h : TokenStream.ofSource source = .ok stream) (taken : Nat) :
    let rest := TokenStream.next^[taken] stream
    let read := (Reader.ofStream rest).readAll Parse.item
    stream.units.flatten = stream.tokens ∧ stream.units.length = stream.unitStarts.length ∧
      rest.units = TokenStream.unitsAfter taken stream.units ∧
      read.1 = rest.units.map (readAlone Parse.item) ∧ read.2.isDone = true ∧
      (separate read.1).1.length + (separate read.1).2.length = rest.units.length ∧
      readProgram source = .ok (separate (stream.units.map (readAlone Parse.item))) := by
  intro rest read
  obtain ⟨-, runs, -, rfl⟩ := TokenStream.ofSource_eq_ok.mp h
  have hparse (p : Placement) : p.Matches Parse.item Parse.item := Placement.matches_item
  have hstream := TokenStream.divides_ofRuns runs
  have hrest := hstream.iterate_next taken
  obtain ⟨hresults, hdone⟩ := readAll_ofStream hparse hrest
  rw [hrest.units_eq, hstream.units_eq]
  refine ⟨hstream.tokens.symm, (TokenStream.length_startsFrom _ _).symm, rfl, hresults, hdone, ?_,
    readProgram_of_runs h⟩
  rw [length_separate, hresults, List.length_map]

/-- Of three units the second cannot be read, nor can the first one once it has lost its name. -/
theorem Reader.readAll_units_alone_recovered :
    let refused (span : Span) : SyntaxError :=
      ⟨.unexpectedToken, ["expression"], some "'='", some span⟩
    ∃ stream, TokenStream.ofSource "x = 1\n= 2\ny = 3" = .ok stream ∧
      stream.unitStarts = [0, 3, 5] ∧ (TokenStream.next^[1] stream).units.length = 3 ∧
      ((Reader.ofStream (TokenStream.next^[1] stream)).readAll Parse.item).1 =
        (TokenStream.next^[1] stream).units.map (readAlone Parse.item) ∧
      separate ((Reader.ofStream (TokenStream.next^[1] stream)).readAll Parse.item).1 =
        ([.declaration "y" (.integer 3)],
          [refused ⟨"x = 1", 0, 2, 3⟩, refused ⟨"\n= 2", 1, 0, 1⟩]) ∧
      readProgram "x = 1\n= 2\ny = 3" =
        .ok ([.declaration "x" (.integer 1), .declaration "y" (.integer 3)],
          [refused ⟨"\n= 2", 1, 0, 1⟩]) := by
  intro refused
  have hread : (TokenStream.ofSource "x = 1\n= 2\ny = 3").toOption.any (fun stream =>
      (stream.unitStarts = [0, 3, 5] && (TokenStream.next^[1] stream).units.length = 3) &&
      (separated [.declaration "y" (.integer 3)]
        [refused ⟨"x = 1", 0, 2, 3⟩, refused ⟨"\n= 2", 1, 0, 1⟩]
        ((TokenStream.next^[1] stream).units.map (readAlone Parse.item)) &&
      separated [.declaration "x" (.integer 1), .declaration "y" (.integer 3)]
        [refused ⟨"\n= 2", 1, 0, 1⟩] (stream.units.map (readAlone Parse.item)))) = true := by
    decide +kernel
  cases hstream : TokenStream.ofSource "x = 1\n= 2\ny = 3" with
  | error error =>
      rw [hstream] at hread
      cases hread
  | ok stream =>
      rw [hstream] at hread
      simp only [Except.toOption, Option.any_some, Bool.and_eq_true, decide_eq_true_eq] at hread
      obtain ⟨⟨hstarts, hlength⟩, hrest, hwhole⟩ := hread
      obtain ⟨-, -, -, hresults, -, -, hprogram⟩ := readAll_units_alone hstream 1
      refine ⟨stream, rfl, hstarts, hlength, hresults, ?_, ?_⟩
      · rw [hresults]
        exact separate_eq rfl hrest
      · rw [hprogram, separate_eq rfl hwhole]

end Viewlet
