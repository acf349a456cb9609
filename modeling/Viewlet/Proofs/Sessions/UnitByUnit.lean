import Viewlet.Proofs.Reading.UnitTexts
import Viewlet.Proofs.Sessions.Persistence

namespace Viewlet.Session

/-- Texts are interpreted one by one, up to the first that is no declaration or fails. What comes of
it is an error about this text, or nothing if all texts are declarations that succeed. -/
inductive DeclaresEach (depth : Nat) :
    Session → List String → List (List Token) → Except SessionError Unit → Session → Prop where
  | finished {session} : DeclaresEach depth session [] [] (.ok ()) session
  | declared {session session' last text texts unit units name value outcome} :
      session.interpret depth text = some (.ok (.declaration name value), session') →
      DeclaresEach depth session' texts units outcome last →
      DeclaresEach depth session (text :: texts) (unit :: units) outcome last
  | failed {session text texts unit units error} : IsDeclaration text →
      session.interpret depth text = some (.error (.evaluation error), session) →
      DeclaresEach depth session (text :: texts) (unit :: units)
        (.error (.evaluation error)) session
  | refused {session text texts unit units complaint} : ¬IsDeclaration text →
      Reader.readAlone Parse.declaration unit = .error complaint →
      DeclaresEach depth session (text :: texts) (unit :: units)
        (.error (.structural complaint)) session

/-- The root is evaluated once all declarations are made. -/
inductive Concludes (depth : Nat) (session : Session) :
    Except SessionError Unit → Except SessionError Node → Session → Prop where
  | root {result last} : session.rootValue depth = some (result, last) →
      Concludes depth session (.ok ()) result last
  | stopped {error} : Concludes depth session (.error error) (.error error) session

variable {session session' last : Session} {depth : Nat} {source : String} {node : Node}

theorem interpret_of_readSingle (h : readSingle source = .ok node) :
    session.interpret depth source =
      (session.evaluate depth [] node).map fun outcome => (shown outcome.1, outcome.2) := by
  rw [interpret, h]
  dsimp only
  rcases session.evaluate depth [] node with _ | ⟨error | outcome, session'⟩ <;> rfl

theorem evaluate_declaration_ok {name : String} {body : Node} {outcome : Evaluated}
    (h : session.evaluate depth [] (.declaration name body) = some (.ok outcome, session')) :
    ∃ value, outcome.node = .declaration name value := by
  obtain ⟨hgives, -⟩ := Eval.gives_of_evaluate h
  cases depth with
  | zero => cases hgives
  | succ depth =>
      rcases Eval.declaration_cases hgives with ⟨-, hfailed⟩ | ⟨-, hcases⟩
      · cases hfailed
      · rcases hcases with ⟨error, -, hfailed⟩ | ⟨value, middle, -, hcases⟩
        · cases hfailed
        · rcases hcases with ⟨-, -, hdeclared⟩ | ⟨-, -, hfailed⟩
          · cases hdeclared
            exact ⟨value.node, rfl⟩
          · cases hfailed

theorem Reachable.isDeclaration {name : String} {value : Node} (h : session.Reachable)
    (hrun : session.interpret depth source = some (.ok (.declaration name value), session')) :
    IsDeclaration source := by
  cases hread : readSingle source with
  | error error =>
      rw [Session.interpret, hread] at hrun
      cases hrun
  | ok node =>
      rw [interpret_of_readSingle hread] at hrun
      obtain ⟨⟨result, after⟩, heval, heq⟩ := Option.map_eq_some_iff.mp hrun
      have hresult : shown result = .ok (.declaration name value) := congrArg Prod.fst heq
      have hunit := readSingle_ensures (Parse.item_ensures Node.readable_isExpression) hread
      cases hunit with
      | expression hnode =>
          have hholds := h.holds (Node.hereditary_formed _) Node.readable_isExpression
          obtain ⟨-, hsettles⟩ := hholds.evaluate_expression (Node.hereditary_formed _) hnode heval
          cases (hsettles.value hresult).1
      | declaration => exact ⟨_, _, hread⟩
      | typeDefinition =>
          cases depth with
          | zero => cases heval
          | succ depth =>
              cases heval
              cases hresult

section Texts

variable {text : String} {texts : List String} {unit : List Token} {units : List (List Token)}
  {outcome : Except SessionError Unit}

theorem declaresEach_declaration_iff (h : IsDeclaration text) :
    DeclaresEach depth session (text :: texts) (unit :: units) outcome last ↔
      (∃ name value after, session.interpret depth text =
          some (.ok (.declaration name value), after) ∧
        DeclaresEach depth after texts units outcome last) ∨
      ∃ error, session.interpret depth text = some (.error (.evaluation error), session) ∧
        outcome = .error (.evaluation error) ∧ last = session := by
  constructor
  · intro hdeclares
    cases hdeclares with
    | declared hdeclared hrest => exact .inl ⟨_, _, _, hdeclared, hrest⟩
    | failed _ hfailed => exact .inr ⟨_, hfailed, rfl, rfl⟩
    | refused hnot => exact absurd h hnot
  · rintro (⟨name, value, after, hdeclared, hrest⟩ | ⟨error, hfailed, rfl, rfl⟩)
    · exact .declared hdeclared hrest
    · exact .failed h hfailed

theorem declaresEach_refused_iff (h : session.Reachable) (hnot : ¬IsDeclaration text) :
    DeclaresEach depth session (text :: texts) (unit :: units) outcome last ↔
      ∃ complaint, Reader.readAlone Parse.declaration unit = .error complaint ∧
        outcome = .error (.structural complaint) ∧ last = session := by
  constructor
  · intro hdeclares
    cases hdeclares with
    | declared hdeclared => exact absurd (h.isDeclaration hdeclared) hnot
    | failed hdeclaration => exact absurd hdeclaration hnot
    | refused _ hcomplaint => exact ⟨_, hcomplaint, rfl, rfl⟩
  · rintro ⟨complaint, hcomplaint, rfl, rfl⟩
    exact .refused hnot hcomplaint

/-- What units are read as is declared as their texts are. -/
theorem declareAll_iff (hpresents : Presents texts units) (h : session.Reachable) :
    session.declareAll depth (units.map (Reader.readAlone Parse.declaration)) =
        some (outcome, last) ↔
      DeclaresEach depth session texts units outcome last := by
  induction hpresents generalizing session with
  | nil =>
      constructor
      · intro hrun
        cases hrun
        exact .finished
      · intro hdeclares
        cases hdeclares
        rfl
  | @cons text texts unit units hunit _ ih =>
      rw [List.map_cons]
      cases hread : Reader.readAlone Parse.declaration unit with
      | error complaint =>
          have hnot : ¬IsDeclaration text := by
            rintro ⟨name, body, hsingle⟩
            rw [(hunit _).mpr ⟨hsingle, name, body, rfl⟩] at hread
            cases hread
          rw [declaresEach_refused_iff h hnot, hread]
          simp [declareAll, eq_comm]
      | ok node =>
          obtain ⟨hsingle, name, body, rfl⟩ := (hunit node).mp hread
          have hdeclaration : IsDeclaration text := ⟨name, body, hsingle⟩
          have hinterpret : session.interpret depth text = _ := interpret_of_readSingle hsingle
          rw [declaresEach_declaration_iff hdeclaration, declareAll]
          rcases heval : session.evaluate depth [] (.declaration name body) with
            _ | ⟨error | value, after⟩
          · rw [heval] at hinterpret
            simp [hinterpret]
          · rw [heval] at hinterpret
            cases h.answers hinterpret with
            | failed => simp [hinterpret, shown, eq_comm]
          · rw [heval] at hinterpret
            obtain ⟨body', hvalue⟩ := evaluate_declaration_ok heval
            have hafter : after.Reachable := .interpret h hinterpret
            simp [hinterpret, shown, hvalue, ih hdeclaration hafter]

end Texts

theorem compile_iff {stream : TokenStream} {result : Except SessionError Node}
    (hstream : TokenStream.ofSource source = .ok stream) :
    session.compile depth source = some (result, last) ↔
      ∃ outcome middle,
        session.declareAll depth ((Reader.ofStream stream).readAll Parse.declaration).1 =
            some (outcome, middle) ∧
          Concludes depth middle outcome result last := by
  rw [compile, hstream]
  dsimp only
  rcases session.declareAll depth _ with _ | ⟨error | done, middle⟩
  · simp
  · constructor
    · intro hrun
      cases hrun
      exact ⟨_, _, rfl, .stopped⟩
    · rintro ⟨outcome, after, heq, hconcludes⟩
      cases heq
      cases hconcludes
      rfl
  · constructor
    · intro hrun
      exact ⟨_, _, rfl, .root hrun⟩
    · rintro ⟨outcome, after, heq, hconcludes⟩
      cases heq
      cases hconcludes with
      | root hroot => exact hroot

/-- The declarations of a text are made as if the texts of its units were interpreted one after the
other, up to the first that is no declaration or fails; there it ends, with the error of the
declaration or with a complaint about the unit. The grammar of declarations reads exactly the units
that are declarations. -/
theorem compile_unit_by_unit {stream : TokenStream} (h : session.Reachable)
    (hstream : TokenStream.ofSource source = .ok stream) :
    (∀ depth outcome middle,
      session.declareAll depth ((Reader.ofStream stream).readAll Parse.declaration).1 =
          some (outcome, middle) ↔
        DeclaresEach depth session (unitTexts source) stream.units outcome middle) ∧
      (∀ depth result last, session.compile depth source = some (result, last) ↔
        ∃ outcome middle,
          DeclaresEach depth session (unitTexts source) stream.units outcome middle ∧
            Concludes depth middle outcome result last) ∧
      ∀ reader node, reader.beginUnit.limit ≤ reader.tokens.length →
        ((Reader.readUnit Parse.declaration reader).1 = .ok node ↔
          (Reader.readUnit Parse.item reader).1 = .ok node ∧
            ∃ name body, node = .declaration name body) := by
  have hdeclares (depth : Nat) (outcome : Except SessionError Unit) (middle : Session) :
      session.declareAll depth ((Reader.ofStream stream).readAll Parse.declaration).1 =
          some (outcome, middle) ↔
        DeclaresEach depth session (unitTexts source) stream.units outcome middle := by
    have hpresents := presents_unitTexts hstream
    obtain ⟨-, runs, -, rfl⟩ := TokenStream.ofSource_eq_ok.mp hstream
    have hdivides := TokenStream.divides_ofRuns runs
    rw [hdivides.units_eq] at hpresents ⊢
    rw [(Reader.readAll_ofStream (fun _ => Placement.matches_declaration) hdivides).1]
    exact declareAll_iff hpresents h
  refine ⟨hdeclares, fun depth result last => ?_, fun _ _ => Reader.readUnit_declaration_iff⟩
  simp only [compile_iff hstream, hdeclares]

/-- A text with a comment, a unit of two lines, and a name that is declared twice. -/
theorem compile_unit_by_unit_repeated :
    let source := "x = 1 -- one\n\ny = x +\n  2\nx = 3\nz = 4"
    let last : Session := { table := [("y", .integer 3), ("x", .integer 1)] }
    ∃ stream, Session.Reachable {} ∧ TokenStream.ofSource source = .ok stream ∧
      unitTexts source = ["x = 1       \n", "y = x +\n  2", "x = 3", "z = 4"] ∧
      DeclaresEach 6 {} (unitTexts source) stream.units
        (.error (.evaluation (.alreadyDeclared "x"))) last := by
  intro source last
  let nodes : List Node := [.declaration "x" (.integer 1),
    .declaration "y" (.binary .add (.var "x") (.integer 2)), .declaration "x" (.integer 3),
    .declaration "z" (.integer 4)]
  have hread : readProgram source = .ok (nodes, []) := readProgram_eq_ok rfl (by decide +kernel)
  have hnodes : ∀ node ∈ nodes, ∃ name body, node = .declaration name body := by simp [nodes]
  obtain ⟨stream, hstream, hall, -⟩ := readAll_declaration hread hnodes
  have hrun : Session.declareAll 6 {} ((Reader.ofStream stream).readAll Parse.declaration).1 =
      some (.error (.evaluation (.alreadyDeclared "x")), last) := by
    rw [hall]
    rfl
  have hreachable : Session.Reachable {} := .fresh defaultRoot
  exact ⟨stream, hreachable, hstream, by decide +kernel,
    ((compile_unit_by_unit hreachable hstream).1 6 _ last).mp hrun⟩

end Viewlet.Session
