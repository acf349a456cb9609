import Viewlet.Proofs.Evaluation.Coincidence
import Viewlet.Proofs.Sessions.UnitByUnit

namespace Viewlet

theorem Eval.declaration_gives {E : Scope → Node → Eval Evaluated} {name : String}
    {body value : Node} {table middle : Table} (hnone : table.lookup name = none)
    (h : (E (Scope.bindUnresolved [] name) body).Gives table (.ok ⟨value, true⟩) middle) :
    (declaration E name body).Gives table (.ok ⟨.declaration name value, true⟩)
      (middle.declare name value) := by
  rw [declaration, gives_declared?_bind, hnone]
  refine gives_bind.mpr (.inl ⟨⟨value, true⟩, middle, h, ?_⟩)
  exact gives_bind.mpr (.inl ⟨⟨⟩, middle.declare name value, gives_modify.mpr ⟨rfl, rfl⟩,
    gives_pure.mpr ⟨rfl, rfl⟩⟩)

namespace Session

variable {session after last : Session} {depth : Nat} {source name : String} {body node : Node}

theorem interpret_declaration_iff (h : session.Holds Node.IsExpression) (hbody : body.IsExpression)
    (hread : readSingle source = .ok (.declaration name body)) :
    session.interpret depth source = some (.ok node, after) ↔
      session.get? name = none ∧ ∃ inner value, depth = inner + 1 ∧
        (Viewlet.evaluate inner (Scope.bindUnresolved [] name) body).Gives session.table
          (.ok ⟨value, true⟩) session.table ∧
        node = .declaration name value ∧ after = session.enter name value := by
  rw [interpret_of_readSingle hread]
  obtain ⟨root, table⟩ := session
  constructor
  · intro hrun
    obtain ⟨⟨result, root', table'⟩, heval, heq⟩ := Option.map_eq_some_iff.mp hrun
    obtain ⟨hresult, rfl⟩ := Prod.mk.inj heq
    obtain ⟨hgives, rfl⟩ := Eval.gives_of_evaluate heval
    cases depth with
    | zero => cases hgives
    | succ inner =>
        rcases Eval.declaration_cases hgives with ⟨-, rfl⟩ | ⟨hnone, hcases⟩
        · cases hresult
        · rcases hcases with ⟨error, -, rfl⟩ | ⟨outcome, middle, hvalue, hcases⟩
          · cases hresult
          · obtain rfl := (isRegular_evaluate (Node.hereditary_formed _) inner hbody
              (valuesHave_emptyScope.bindUnresolved name) h hvalue).table_eq
            rcases hcases with ⟨hcomplete, rfl, rfl⟩ | ⟨-, -, rfl⟩
            · obtain ⟨value, complete⟩ := outcome
              obtain rfl : complete = true := hcomplete
              obtain rfl := Except.ok.inj hresult
              refine ⟨hnone, inner, value, rfl, hvalue, rfl, ?_⟩
              rw [enter, ← Table.declare_of_lookup hnone]
            · cases hresult
  · rintro ⟨hnone, inner, value, rfl, hgives, rfl, rfl⟩
    have hrun : (Viewlet.evaluate (inner + 1) [] (.declaration name body)).Gives table _ _ :=
      Eval.declaration_gives hnone hgives
    rw [Table.declare_of_lookup hnone] at hrun
    rw [Session.evaluate, hrun]
    rfl

theorem isExpression_of_readSingle (h : readSingle source = .ok (.declaration name body)) :
    body.IsExpression := by
  have hunit := readSingle_ensures (Parse.item_ensures Node.readable_isExpression) h
  cases hunit with
  | expression hexpression => exact absurd hexpression (Node.hereditary_formed _).undeclared
  | declaration hbody => exact hbody

/-- A declaration of another name makes no difference to a declaration that does not refer to it, if
nothing declared refers to it. -/
theorem gives_enter_iff {other : String} {value : Node} {result : Except EvalError Evaluated}
    (h : session.Holds (Node.Omits other)) (hbody : body.Omits other) :
    (Viewlet.evaluate depth (Scope.bindUnresolved [] name) body).Gives
        (session.enter other value).table result (session.enter other value).table ↔
      (Viewlet.evaluate depth (Scope.bindUnresolved [] name) body).Gives session.table result
        session.table := by
  have hshields : (Scope.bindUnresolved [] name).Shields other body :=
    ⟨hbody.1, fun hname => absurd hname hbody.2, valuesHave_emptyScope.bindUnresolved name⟩
  have hlookup : ∀ x, x ≠ other →
      (session.enter other value).table.lookup x = session.table.lookup x := fun x hne =>
    get?_enter.trans (if_neg hne)
  exact (isShielded_evaluate other depth hshields h hlookup).gives_iff

/-- Two declarations that do not refer to each other can be made in the other order, if nothing
declared before refers to one of them. They need the same depth and have the same values, and
afterwards the same names have the same values. -/
theorem reachable_declarations_commute {first second a b : String} {body' node' : Node}
    {depth' : Nat} (h : session.Reachable)
    (hfirst : readSingle first = .ok (.declaration a body))
    (hsecond : readSingle second = .ok (.declaration b body'))
    (hb : b ∉ body.freeNames []) (ha : a ∉ body'.freeNames [])
    (hvalues : ∀ name value, session.get? name = some value →
      a ∉ value.freeNames [] ∧ b ∉ value.freeNames [])
    (hrun : session.interpret depth first = some (.ok node, after))
    (hrun' : after.interpret depth' second = some (.ok node', last)) :
    ∃ after' last', session.interpret depth' second = some (.ok node', after') ∧
      after'.interpret depth first = some (.ok node, last') ∧
      last'.root = last.root ∧ last'.table.Perm last.table ∧
      ∀ name, last'.get? name = last.get? name := by
  have hholds {session : Session} (h : session.Reachable) : session.Holds Node.IsExpression :=
    h.holds (Node.hereditary_formed _) Node.readable_isExpression
  have hbody := isExpression_of_readSingle hfirst
  have hbody' := isExpression_of_readSingle hsecond
  have homits : session.Holds (Node.Omits a) ∧ session.Holds (Node.Omits b) := by
    constructor <;> intro name value hvalue <;>
      refine (hholds h name value hvalue).imp_right fun hexpression => ⟨hexpression, ?_⟩
    · exact (hvalues name value hvalue).1
    · exact (hvalues name value hvalue).2
  have hafter := hholds (h.interpret hrun)
  obtain ⟨hnone, inner, value, rfl, hgives, rfl, rfl⟩ :=
    (interpret_declaration_iff (hholds h) hbody hfirst).mp hrun
  obtain ⟨hnone', inner', value', rfl, hgives', rfl, rfl⟩ :=
    (interpret_declaration_iff hafter hbody' hsecond).mp hrun'
  obtain ⟨hne, hnone'⟩ : b ≠ a ∧ session.get? b = none := by
    rw [get?_enter] at hnone'
    split at hnone'
    · cases hnone'
    · next hne => exact ⟨hne, hnone'⟩
  rw [gives_enter_iff homits.1 ⟨hbody', ha⟩] at hgives'
  have hswapped := (interpret_declaration_iff (hholds h) hbody' hsecond).mpr
    ⟨hnone', inner', value', rfl, hgives', rfl, rfl⟩
  have habsent : (session.enter b value').get? a = none := by
    rw [get?_enter, if_neg hne.symm, hnone]
  refine ⟨_, (session.enter b value').enter a value, hswapped, ?_, rfl, .swap _ _ _, fun name => ?_⟩
  · exact (interpret_declaration_iff (hholds (h.interpret hswapped)) hbody hfirst).mpr
      ⟨habsent, inner, value, rfl, (gives_enter_iff homits.2 ⟨hbody, hb⟩).mpr hgives, rfl, rfl⟩
  · simp only [get?_enter]
    split
    · next heq => rw [if_neg (heq ▸ hne.symm)]
    · rfl

/-- Each declaration uses the other name for its parameter. -/
theorem reachable_declarations_commute_parameters :
    let session : Session := { table := [("k", .integer 3)] }
    let sum : Node := .function "b" (.binary .add (.var "b") (.integer 3))
    let product : Node := .function "a" (.binary .mul (.var "a") (.integer 3))
    session.Reachable ∧
      session.interpret 6 "a b = b + k" =
        some (.ok (.declaration "a" sum), session.enter "a" sum) ∧
      (session.enter "a" sum).interpret 6 "b a = a * k" =
        some (.ok (.declaration "b" product), (session.enter "a" sum).enter "b" product) ∧
      ∃ after last, session.interpret 6 "b a = a * k" =
          some (.ok (.declaration "b" product), after) ∧
        after.interpret 6 "a b = b + k" = some (.ok (.declaration "a" sum), last) ∧
        last.get? "a" = some sum ∧ last.get? "b" = some product ∧
        last.get? "k" = some (.integer 3) := by
  intro session sum product
  have hk : readSingle "k = 3" = .ok (.declaration "k" (.integer 3)) :=
    readSingle_eq_ok rfl (by decide +kernel)
  have hfirst : readSingle "a b = b + k" =
      .ok (.declaration "a" (.function "b" (.binary .add (.var "b") (.var "k")))) :=
    readSingle_eq_ok rfl (by decide +kernel)
  have hsecond : readSingle "b a = a * k" =
      .ok (.declaration "b" (.function "a" (.binary .mul (.var "a") (.var "k")))) :=
    readSingle_eq_ok rfl (by decide +kernel)
  have hsession : session.Reachable := by
    have hdeclare : Session.interpret 3 {} "k = 3" =
        some (.ok (.declaration "k" (.integer 3)), session) := by
      rw [Session.interpret, hk]
      rfl
    exact .interpret (.fresh defaultRoot) hdeclare
  have hrun : session.interpret 6 "a b = b + k" =
      some (.ok (.declaration "a" sum), session.enter "a" sum) := by
    rw [Session.interpret, hfirst]
    rfl
  have hrun' : (session.enter "a" sum).interpret 6 "b a = a * k" =
      some (.ok (.declaration "b" product), (session.enter "a" sum).enter "b" product) := by
    rw [Session.interpret, hsecond]
    rfl
  have hvalues : ∀ name value, session.get? name = some value →
      "a" ∉ value.freeNames [] ∧ "b" ∉ value.freeNames [] := by
    intro name value hvalue
    obtain ⟨-, rfl⟩ := Prod.mk.inj (List.mem_singleton.mp (mem_of_lookup hvalue))
    exact ⟨List.not_mem_nil, List.not_mem_nil⟩
  obtain ⟨after, last, hswapped, hswapped', -, -, hsame⟩ :=
    reachable_declarations_commute hsession hfirst hsecond (by decide) (by decide) hvalues hrun
      hrun'
  exact ⟨hsession, hrun, hrun', after, last, hswapped, hswapped', hsame "a", hsame "b", hsame "k"⟩

end Session

end Viewlet
