import Viewlet.Proofs.Sessions.Results

namespace Viewlet.Session

/-- The session goes on to another one by reading texts, without a reset. -/
inductive Continues : Session → Session → Prop where
  | refl (session : Session) : Continues session session
  | interpret {session middle session' depth source result} : Continues session middle →
      middle.interpret depth source = some (result, session') → Continues session session'
  | compile {session middle session' depth source result} : Continues session middle →
      middle.compile depth source = some (result, session') → Continues session session'

variable {session session' : Session}

theorem Continues.reachable (h : session.Continues session') (hsession : session.Reachable) :
    session'.Reachable := by
  induction h with
  | refl => exact hsession
  | interpret _ hrun ih => exact .interpret ih hrun
  | compile _ hrun ih => exact .compile ih hrun

theorem Reachable.answers {depth : Nat} {source : String} {result : Except SessionError Node}
    (h : session.Reachable) (hrun : session.interpret depth source = some (result, session')) :
    session.Answers Node.IsExpression result session' :=
  (h.holds (Node.hereditary_formed _) Node.readable_isExpression).interpret
    (Node.hereditary_formed _) Node.readable_isExpression hrun

theorem Continues.keeps (h : session.Continues session') (hsession : session.Reachable) :
    session.Keeps session' := by
  induction h with
  | refl => exact .refl _
  | interpret hcontinues hrun ih =>
      have hmiddle := hcontinues.reachable hsession
      exact ih.trans (hmiddle.answers hrun).keeps
  | compile hcontinues hrun ih =>
      have hmiddle := (hcontinues.reachable hsession).holds (Node.hereditary_formed _)
        Node.readable_isExpression
      obtain ⟨-, hkeeps, -⟩ :=
        hmiddle.compile (Node.hereditary_formed _) Node.readable_isExpression hrun
      exact ih.trans hkeeps

/-- A text of one unit changes a session only if it gives a declaration, and then by a name that
was not declared. Whatever texts follow, a declaration stays as it is until a reset. -/
theorem reachable_declarations_last (h : session.Reachable) :
    (∀ depth source result session',
      session.interpret depth source = some (result, session') →
        (∀ error, result = .error error → session' = session) ∧
        (∀ node, result = .ok node → (∀ name body, node ≠ .declaration name body) →
          session' = session) ∧
        ∀ name body, result = .ok (.declaration name body) →
          session.get? name = none ∧ session' = session.enter name body) ∧
      ∀ session', session.Continues session' →
        ∀ name value, session.get? name = some value → session'.get? name = some value := by
  refine ⟨fun depth source result session' hrun => ?_, fun session' hcontinues =>
    hcontinues.keeps h⟩
  cases h.answers hrun with
  | failed => exact ⟨fun _ _ => rfl, nofun, nofun⟩
  | value hvalue =>
      refine ⟨nofun, fun _ _ _ => rfl, fun name body heq => ?_⟩
      cases heq
      cases hvalue
  | declared hnone =>
      refine ⟨nofun, fun node heq hother => ?_, fun name body heq => ?_⟩
      · cases heq
        exact absurd rfl (hother _ _)
      · cases heq
        exact ⟨hnone, rfl⟩

/-- A second declaration of a name fails, and the first one stays. -/
theorem reachable_declarations_last_repeated :
    let first : Session := { table := [("x", .integer 3)] }
    first.Reachable ∧
      first.interpret 3 "x = 2" = some (.error (.evaluation (.alreadyDeclared "x")), first) ∧
      first.Continues first ∧ Session.get? {} "x" = none ∧
      first = Session.enter {} "x" (.integer 3) ∧ first.get? "x" = some (.integer 3) := by
  intro first
  have hsum : readSingle "x = 1 + 2" =
      .ok (.declaration "x" (.binary .add (.integer 1) (.integer 2))) :=
    readSingle_eq_ok rfl (by decide +kernel)
  have htwo : readSingle "x = 2" = .ok (.declaration "x" (.integer 2)) :=
    readSingle_eq_ok rfl (by decide +kernel)
  have hdeclare : Session.interpret 3 {} "x = 1 + 2" =
      some (.ok (.declaration "x" (.integer 3)), first) := by
    rw [Session.interpret, hsum]
    rfl
  have hrepeat : first.interpret 3 "x = 2" =
      some (.error (.evaluation (.alreadyDeclared "x")), first) := by
    rw [Session.interpret, htwo]
    rfl
  have hfirst : first.Reachable := .interpret (.fresh defaultRoot) hdeclare
  have hcontinues : first.Continues first := .interpret (.refl first) hrepeat
  obtain ⟨hnone, henter⟩ :=
    ((reachable_declarations_last (.fresh defaultRoot)).1 3 "x = 1 + 2" _ first hdeclare).2.2
      "x" (.integer 3) rfl
  exact ⟨hfirst, hrepeat, hcontinues, hnone, henter,
    (reachable_declarations_last hfirst).2 first hcontinues "x" (.integer 3) rfl⟩

end Viewlet.Session
