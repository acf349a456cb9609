import Viewlet.Proofs.Evaluation.Regularity
import Viewlet.Proofs.Association
import Viewlet.Proofs.Reading.ReadNodes

/-!
Sessions that can be reached, and what can come of a unit in them. A unit gives an error or a
value, and then the session is as before, or it enters a value under a name that was not declared.
So a property that the grammar and the evaluation hand on holds of all declarations at all times.
-/

namespace Viewlet

theorem mentionsUnresolved_nil (node : Node) : node.mentionsUnresolved [] = false :=
  Node.mentionsUnresolved_eq_false.mpr fun _ _ => rfl

theorem Table.declare_of_lookup {table : Table} {name : String} (h : table.lookup name = none)
    (value : Node) : table.declare name value = (name, value) :: table := by
  have habsent : ∀ entry ∈ table, (entry.1 != name) = true := by
    intro entry hmem
    rw [bne_comm]
    exact List.lookup_eq_none_iff.mp h entry hmem
  rw [Table.declare, List.filter_eq_self.mpr habsent]

/-- If the error comes from evaluation, it shows units with the property. -/
def SessionError.Shows (P : Node → Prop) (error : SessionError) : Prop :=
  ∀ cause, error = .evaluation cause → cause.Shows (Node.UnitOf P)

theorem EvalError.Shows.evaluation {P : Node → Prop} {error : EvalError} (h : error.Shows P) :
    (SessionError.evaluation error).Shows P := by
  intro cause heq
  cases heq
  exact ⟨fun node hmem => .expression (h.nodes node hmem), h.chain⟩

namespace Session

/-- The sessions that can be reached by reading texts and by resets, whatever comes of it. -/
inductive Reachable : Session → Prop where
  | fresh (root : String) : Reachable { root := root }
  | interpret {session session' depth source result} : Reachable session →
      session.interpret depth source = some (result, session') → Reachable session'
  | compile {session session' depth source result} : Reachable session →
      session.compile depth source = some (result, session') → Reachable session'
  | reset {session} : Reachable session → Reachable session.reset

/-- What is declared are values with the property. -/
def Holds (P : Node → Prop) (session : Session) : Prop :=
  ValuesHave P fun name => session.table.lookup name

/-- The session with one more declaration. -/
def enter (session : Session) (name : String) (value : Node) : Session :=
  { session with table := (name, value) :: session.table }

/-- The declarations of one session are declarations of the other. -/
def Keeps (session session' : Session) : Prop :=
  ∀ name value, session.get? name = some value → session'.get? name = some value

/-- What a client sees of the result of an evaluation. -/
def shown : Except EvalError Evaluated → Except SessionError Node
  | .ok outcome => .ok outcome.node
  | .error error => .error (.evaluation error)

/-- What can come of a unit: an error or a value, which leave the session as it is, or the
declaration of a value under a name that was not declared. -/
inductive Answers (P : Node → Prop) (session : Session) :
    Except SessionError Node → Session → Prop where
  | failed {error} : error.Shows P → Answers P session (.error error) session
  | value {value} : value.isValue = true → P value → Answers P session (.ok value) session
  | declared {name value} : session.get? name = none → value.isValue = true → P value →
      Answers P session (.ok (.declaration name value)) (session.enter name value)

/-- A result is a value with the property, or an error that shows units with the property. -/
structure Settles (P : Node → Prop) (result : Except SessionError Node) : Prop where
  value : ∀ {node}, result = .ok node → node.isValue = true ∧ P node
  shows : ∀ {error}, result = .error error → error.Shows P

variable {P : Node → Prop} {session session' session'' : Session} {depth : Nat} {node : Node}

theorem get?_enter {name other : String} {value : Node} :
    (session.enter name value).get? other =
      if other = name then some value else session.get? other := by
  rw [get?, enter, List.lookup_cons]
  by_cases hother : other = name
  · simp [hother]
  · rw [beq_eq_false_iff_ne.mpr hother, if_neg hother]
    rfl

theorem Keeps.refl (session : Session) : session.Keeps session :=
  fun _ _ h => h

theorem Keeps.trans (h : session.Keeps session') (h' : session'.Keeps session'') :
    session.Keeps session'' :=
  fun name value hvalue => h' name value (h name value hvalue)

theorem Answers.holds {result : Except SessionError Node} (h : session.Holds P)
    (hanswer : session.Answers P result session') : session'.Holds P := by
  cases hanswer with
  | failed | value => exact h
  | @declared name value _ hvalue hP =>
      intro other found hfound
      change (session.enter name value).get? other = some found at hfound
      rw [get?_enter] at hfound
      split at hfound
      · cases hfound
        exact ⟨hvalue, hP⟩
      · exact h other found hfound

theorem Answers.keeps {result : Except SessionError Node}
    (h : session.Answers P result session') : session.Keeps session' := by
  cases h with
  | failed | value => exact .refl session
  | @declared name value hnone _ _ =>
      intro other found hfound
      rw [get?_enter, if_neg, hfound]
      rintro rfl
      rw [hnone] at hfound
      cases hfound

theorem Answers.shows {error : SessionError} (h : session.Answers P (.error error) session') :
    error.Shows P := by
  cases h with
  | failed hshows => exact hshows

namespace Holds

theorem evaluate_expression {result : Except EvalError Evaluated} (hP : Node.Hereditary P)
    (h : session.Holds P) (hnode : P node)
    (hrun : session.evaluate depth [] node = some (result, session')) :
    session' = session ∧ Settles P (shown result) := by
  obtain ⟨hgives, hroot⟩ := Eval.gives_of_evaluate hrun
  have hregular := isRegular_evaluate hP depth hnode valuesHave_emptyScope h hgives
  constructor
  · cases session
    cases session'
    simp only [mk.injEq]
    exact ⟨hroot, hregular.table_eq⟩
  · cases result with
    | error error =>
        refine ⟨nofun, fun heq => ?_⟩
        cases heq
        exact (hregular.shows rfl).evaluation
    | ok outcome =>
        refine ⟨fun heq => ?_, nofun⟩
        cases heq
        exact ⟨hregular.isValue rfl (hregular.complete rfl (mentionsUnresolved_nil node)),
          hregular.kept rfl⟩

theorem evaluate_declaration {name : String} {body : Node} {result : Except EvalError Evaluated}
    (hP : Node.Hereditary P) (h : session.Holds P) (hbody : P body)
    (hrun : session.evaluate depth [] (.declaration name body) = some (result, session')) :
    session.Answers P (shown result) session' := by
  obtain ⟨hgives, hroot⟩ := Eval.gives_of_evaluate hrun
  obtain ⟨root, table⟩ := session
  obtain ⟨root', table'⟩ := session'
  dsimp only at hroot hgives
  subst hroot
  cases depth with
  | zero => cases hgives
  | succ depth =>
      have hregular : ∀ {result table'},
          (Viewlet.evaluate depth (Scope.bindUnresolved [] name) body).Gives table result table' →
          Evaluated.Regular P _ body table result table' :=
        isRegular_evaluate hP depth hbody (valuesHave_emptyScope.bindUnresolved name) h
      rcases Eval.declaration_cases hgives with ⟨rfl, rfl⟩ | ⟨hnone, hcases⟩
      · exact .failed (EvalError.Shows.evaluation ⟨nofun, nofun⟩)
      · rcases hcases with ⟨error, hvalue, rfl⟩ | ⟨outcome, middle, hvalue, hcases⟩
        · rw [(hregular hvalue).table_eq]
          exact .failed ((hregular hvalue).shows rfl).evaluation
        · have hvalue := hregular hvalue
          obtain rfl := hvalue.table_eq
          rcases hcases with ⟨hcomplete, rfl, rfl⟩ | ⟨-, rfl, rfl⟩
          · rw [Table.declare_of_lookup hnone]
            exact .declared hnone (hvalue.isValue rfl hcomplete) (hvalue.kept rfl)
          · refine .failed (EvalError.Shows.evaluation ?_)
            exact .of_node rfl (hvalue.kept rfl) nofun

theorem evaluate_unit {result : Except EvalError Evaluated} (hP : Node.Hereditary P)
    (h : session.Holds P) (hnode : node.UnitOf P)
    (hrun : session.evaluate depth [] node = some (result, session')) :
    session.Answers P (shown result) session' := by
  cases hnode with
  | expression hnode =>
      obtain ⟨rfl, hsettles⟩ := h.evaluate_expression hP hnode hrun
      cases result with
      | error error => exact .failed (hsettles.shows rfl)
      | ok outcome => exact .value (hsettles.value rfl).1 (hsettles.value rfl).2
  | declaration hbody => exact h.evaluate_declaration hP hbody hrun
  | typeDefinition hconstructors =>
      cases depth with
      | zero => cases hrun
      | succ depth =>
          cases hrun
          refine .failed fun cause heq => ?_
          cases heq
          exact ⟨List.forall_mem_singleton.mpr (.typeDefinition hconstructors), nofun⟩

theorem declareAll {results : List (Except SyntaxError Node)} {result : Except SessionError Unit}
    (hP : Node.Hereditary P) (h : session.Holds P)
    (hresults : ∀ node, .ok node ∈ results → ∃ name body, node = .declaration name body ∧ P body)
    (hrun : session.declareAll depth results = some (result, session')) :
    session'.Holds P ∧ session.Keeps session' ∧
      ∀ error, result = .error error → error.Shows P := by
  induction results generalizing session with
  | nil =>
      cases hrun
      exact ⟨h, .refl _, nofun⟩
  | cons first rest ih =>
      cases first with
      | error error =>
          cases hrun
          refine ⟨h, .refl _, fun error heq => ?_⟩
          cases heq
          exact nofun
      | ok node =>
          obtain ⟨name, body, rfl, hbody⟩ := hresults node List.mem_cons_self
          obtain ⟨⟨outcome, middle⟩, heval, hrest⟩ := Option.bind_eq_some_iff.mp hrun
          have hanswer := h.evaluate_declaration hP hbody heval
          cases outcome with
          | error error =>
              cases hrest
              refine ⟨hanswer.holds h, hanswer.keeps, fun error heq => ?_⟩
              cases heq
              exact hanswer.shows
          | ok outcome =>
              obtain ⟨hlast, hkeeps, hshows⟩ := ih (hanswer.holds h)
                (fun node hmem => hresults node (List.mem_cons_of_mem _ hmem)) hrest
              exact ⟨hlast, hanswer.keeps.trans hkeeps, hshows⟩

theorem rootValue {result : Except SessionError Node} (hP : Node.Hereditary P)
    (h : session.Holds P) (hrun : session.rootValue depth = some (result, session')) :
    session' = session ∧ Settles P result := by
  rw [Session.rootValue] at hrun
  split at hrun
  · cases hrun
    refine ⟨rfl, nofun, fun heq => ?_⟩
    cases heq
    exact EvalError.Shows.evaluation ⟨nofun, nofun⟩
  · next root hroot =>
      obtain ⟨⟨outcome, middle⟩, heval, hrest⟩ := Option.bind_eq_some_iff.mp hrun
      obtain ⟨rfl, hsettles⟩ := h.evaluate_expression hP (h _ _ hroot).2 heval
      cases outcome with
      | error | ok =>
          cases hrest
          exact ⟨rfl, hsettles⟩

end Holds

theorem readSingle_ensures {condition : Node → Prop} (hitem : Parse.item.Ensures condition)
    {source : String} (h : readSingle source = .ok node) : condition node := by
  rw [readSingle] at h
  split at h
  · cases h
  · split at h
    · cases h
    · next hread =>
        split at h
        · cases h
          exact Reader.readUnit_ensures hitem hread
        · cases h

theorem readSingle_eq_ok {source : String} (hexact : node.isExact = true)
    (h : (readSingle source).toOption.any node.same = true) : readSingle source = .ok node := by
  cases hread : readSingle source with
  | error error =>
      rw [hread] at h
      cases h
  | ok found =>
      rw [hread] at h
      rw [Node.eq_of_same hexact h]

theorem readSingle_ne_evaluation {source : String} (cause : EvalError) :
    readSingle source ≠ .error (.evaluation cause) := by
  rw [readSingle]
  split
  · nofun
  · split
    · nofun
    · split <;> nofun

namespace Holds

variable (hP : Node.Hereditary P) (hread : Node.Readable P)
include hP hread

theorem interpret {source : String} {result : Except SessionError Node} (h : session.Holds P)
    (hrun : session.interpret depth source = some (result, session')) :
    session.Answers P result session' := by
  rw [Session.interpret] at hrun
  split at hrun
  · next error hsingle =>
      cases hrun
      refine .failed fun cause heq => ?_
      cases heq
      exact absurd hsingle (readSingle_ne_evaluation cause)
  · next node hsingle =>
      obtain ⟨⟨outcome, middle⟩, heval, hrest⟩ := Option.bind_eq_some_iff.mp hrun
      have hanswer := h.evaluate_unit hP
        (readSingle_ensures (Parse.item_ensures hread) hsingle) heval
      cases outcome with
      | error | ok =>
          cases hrest
          exact hanswer

theorem compile {source : String} {result : Except SessionError Node} (h : session.Holds P)
    (hrun : session.compile depth source = some (result, session')) :
    session'.Holds P ∧ session.Keeps session' ∧ Settles P result := by
  rw [Session.compile] at hrun
  split at hrun
  · cases hrun
    refine ⟨h, .refl session, nofun, fun heq => ?_⟩
    cases heq
    exact nofun
  · obtain ⟨⟨outcome, middle⟩, hdeclare, hrest⟩ := Option.bind_eq_some_iff.mp hrun
    obtain ⟨hmiddle, hkeeps, hshows⟩ := h.declareAll hP
      (fun node hmem => Reader.readUpTo_ensures (Parse.declaration_ensures hread) hmem) hdeclare
    cases outcome with
    | error error =>
        cases hrest
        refine ⟨hmiddle, hkeeps, nofun, fun heq => ?_⟩
        cases heq
        exact hshows error rfl
    | ok =>
        obtain ⟨rfl, hsettles⟩ := hmiddle.rootValue hP hrest
        exact ⟨hmiddle, hkeeps, hsettles⟩

end Holds

/-- What the grammar and the evaluation hand on holds of all declarations of all sessions. -/
theorem Reachable.holds (hP : Node.Hereditary P) (hread : Node.Readable P)
    (h : session.Reachable) : session.Holds P := by
  induction h with
  | fresh root => exact valuesHave_emptyTable
  | interpret _ hrun ih => exact (ih.interpret hP hread hrun).holds ih
  | compile _ hrun ih => exact (ih.compile hP hread hrun).1
  | reset => exact valuesHave_emptyTable

end Session

end Viewlet
