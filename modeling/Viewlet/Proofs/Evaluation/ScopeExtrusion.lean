import Viewlet.Proofs.Evaluation.PartialEvaluation

namespace Viewlet

namespace ResultsIn

variable {table : Table} {scope : Scope} {node : Node} {outcome : Evaluated}

theorem free_kept {named : String → Prop} {source found : Node} {x : String}
    (hfound : x ∈ found.freeNames [] → named x ∨ (x ∈ source.freeNames [] ∧ scope.value? x = none))
    (hx : x ∈ (table.kept scope source found).freeNames []) :
    named x ∨ (x ∈ source.freeNames [] ∧ scope.value? x = none) := by
  rw [Table.kept] at hx
  split at hx
  · next hnames =>
      obtain ⟨name, parameter, body, rfl, hnone, -⟩ := Table.namesFunction_iff.mp hnames
      obtain rfl := Node.mem_freeNames_var.mp hx
      exact .inr ⟨hx, Scope.value?_eq_none.mpr (.inl hnone)⟩
  · exact hfound hx

theorem free {named : String → Prop}
    (htable : ∀ name value, table.lookup name = some value → ∀ x ∈ value.freeNames [], named x)
    (h : ResultsIn table scope node outcome)
    (hscope : ∀ name value, scope.value? name = some value → ∀ x ∈ value.freeNames [], named x) :
    ∀ x ∈ outcome.node.freeNames [],
      named x ∨ (x ∈ node.freeNames [] ∧ scope.value? x = none) := by
  induction h generalizing named with
  | @literal _ node hliteral =>
      intro x hx
      rw [Node.freeNames_of_isInert (Node.isInert_of_isLiteral hliteral)] at hx
      cases hx
  | unresolved hunresolved =>
      intro x hx
      obtain rfl := Node.mem_freeNames_var.mp hx
      exact .inr ⟨hx, Scope.value?_eq_none.mpr (.inr hunresolved)⟩
  | bound hvalue => exact fun x hx => .inl (hscope _ _ hvalue x hx)
  | declared _ hlookup => exact fun x hx => .inl (htable _ _ hlookup x hx)
  | inverted => exact fun x hx => by cases hx
  | negation _ ih =>
      intro x hx
      exact (ih htable hscope x (Node.mem_freeNames_negation.mp hx)).imp_right
        (And.imp_left Node.mem_freeNames_negation.mpr)
  | operated _ _ hvalue =>
      intro x hx
      rw [Node.freeNames_of_isInert
        (Node.isInert_of_isLiteral (BinOp.isLiteral_of_operate hvalue).2.2)] at hx
      cases hx
  | binary _ _ _ ihl ihr =>
      intro x hx
      rcases Node.mem_freeNames_binary.mp hx with hx | hx
      · exact (ihl htable hscope x hx).imp_right
          (And.imp_left fun hx => Node.mem_freeNames_binary.mpr (.inl hx))
      · exact (ihr htable hscope x hx).imp_right
          (And.imp_left fun hx => Node.mem_freeNames_binary.mpr (.inr hx))
  | function _ ih =>
      intro x hx
      obtain ⟨hx, hne⟩ := Node.mem_freeNames_function.mp hx
      have hbody := ih htable (fun name value hvalue =>
        hscope name value (Scope.value?_of_bindUnresolved hvalue)) x hx
      refine hbody.imp_right ?_
      rintro ⟨hx, hnone⟩
      rw [Scope.value?_bindUnresolved, if_neg hne] at hnone
      exact ⟨Node.mem_freeNames_function.mpr ⟨hx, hne⟩, hnone⟩
  | @called scope callee argument parameter body value result _ hargument _ _ _ ihc iha ihb =>
      -- In the body, the names of the argument count as names of values.
      have hvalue : ∀ x ∈ value.freeNames [], named x ∨
          (x ∈ (Node.apply callee argument).freeNames [] ∧ scope.value? x = none) := fun x hx =>
        (iha htable hscope x hx).imp_right
          (And.imp_left fun hx => Node.mem_freeNames_apply.mpr (.inr hx))
      have hsingle : ∀ name found, (Scope.bind [] parameter value).value? name = some found →
          ∀ x ∈ found.freeNames [], named x ∨
            (x ∈ (Node.apply callee argument).freeNames [] ∧ scope.value? x = none) := by
        intro name found hfound
        rw [(Scope.eq_of_value?_single hfound).2]
        exact hvalue
      intro x hx
      have hbody := ihb (fun name found hlookup x hx => .inl (htable name found hlookup x hx))
        hsingle x hx
      rcases hbody with hnamed | ⟨hx, hnone⟩
      · exact hnamed
      · rw [Scope.value?_single hargument.ne_noValue] at hnone
        split at hnone
        · cases hnone
        · next hne =>
            exact (ihc htable hscope x (Node.mem_freeNames_function.mpr ⟨hx, hne⟩)).imp_right
              (And.imp_left fun hx => Node.mem_freeNames_apply.mpr (.inl hx))
  | suspended _ _ _ _ ihc iha =>
      intro x hx
      rcases Node.mem_freeNames_apply.mp hx with hx | hx
      · exact (free_kept (ihc htable hscope x) hx).imp_right
          (And.imp_left fun hx => Node.mem_freeNames_apply.mpr (.inl hx))
      · exact (free_kept (iha htable hscope x) hx).imp_right
          (And.imp_left fun hx => Node.mem_freeNames_apply.mpr (.inr hx))
  | selected _ _ _ _ _ ihb =>
      intro x hx
      exact (ihb htable hscope x hx).imp_right (And.imp_left Node.mem_freeNames_branch)
  | skipped _ _ _ _ _ ihr =>
      refine Evaluated.orWhole_cases (fun _ x hx => ?_) fun _ x hx =>
        Node.mem_freeNames_of_substitute hscope hx
      exact (ihr htable hscope x hx).imp_right (And.imp_left Node.mem_freeNames_ifElse_cons)
  | waiting => exact fun x hx => Node.mem_freeNames_of_substitute hscope hx
  | otherwise _ _ ih =>
      refine Evaluated.orWhole_cases (fun _ x hx => ?_) fun _ x hx =>
        Node.mem_freeNames_of_substitute hscope hx
      exact (ih htable hscope x hx).imp_right (And.imp_left Node.mem_freeNames_branch)

end ResultsIn

/-- Evaluation lets no name out of its scope. If nothing can be declared, the session stays as it
is, and each free name of the result is free in the node and without a value in scope, or it is
free in a value that is in scope or declared. -/
theorem evaluate_scope_extrusion {depth : Nat} {session session' : Session} {scope : Scope}
    {node : Node} {outcome : Evaluated}
    (htable : ∀ name value, session.get? name = some value →
      value ≠ .noValue ∧ value.declares = false)
    (hscope : ∀ name value, scope.get? name = some value → value.declares = false)
    (hnode : node.declares = false)
    (hrun : session.evaluate depth scope node = some (.ok outcome, session')) :
    session' = session ∧ ∀ x ∈ outcome.node.freeNames [],
      (x ∈ node.freeNames [] ∧ (scope.get? x = some .noValue ∨ scope.get? x = none)) ∨
        ∃ name value, (scope.get? name = some value ∨ session.get? name = some value) ∧
          x ∈ value.freeNames [] := by
  obtain ⟨hgives, hroot⟩ := Eval.gives_of_evaluate hrun
  have hundeclaring : Undeclaring scope.value? := fun name value hvalue =>
    hscope name value (Scope.get?_of_value? hvalue)
  obtain ⟨heq, hresults⟩ := isRuled_evaluate depth hnode hundeclaring htable hgives
  constructor
  · cases session
    cases session'
    simp only [Session.mk.injEq]
    exact ⟨hroot, heq⟩
  · let named x := ∃ name value, (scope.get? name = some value ∨ session.get? name = some value) ∧
      x ∈ value.freeNames []
    have hnamed : ∀ name value, session.table.lookup name = some value →
        ∀ x ∈ value.freeNames [], named x :=
      fun name value hlookup x hx => ⟨name, value, .inr hlookup, hx⟩
    have hnamed' : ∀ name value, scope.value? name = some value →
        ∀ x ∈ value.freeNames [], named x :=
      fun name value hvalue x hx => ⟨name, value, .inl (Scope.get?_of_value? hvalue), hx⟩
    intro x hx
    rcases hresults.free hnamed hnamed' x hx with hnamed | ⟨hx, hnone⟩
    · exact .inr hnamed
    · refine .inl ⟨hx, ?_⟩
      rcases Scope.value?_eq_none.mp hnone with hunbound | hunresolved
      · exact .inr hunbound
      · exact .inl (Scope.isUnresolved_iff.mp hunresolved)

/-- A chain of conditions that waits for one name comes back with the value of another, whose
free name is a declared one. -/
theorem evaluate_scope_extrusion_waiting :
    let session : Session := { table := [("f", .function "y" (.var "y"))] }
    let value : Node := .function "z" (.apply (.var "f") (.var "z"))
    let scope : Scope := [("x", .noValue), ("k", value)]
    let node : Node := .ifElse [.var "x"] [.var "k", .integer 1]
    let result : Node := .ifElse [.var "x"] [value, .integer 1]
    session.evaluate 3 scope node = some (.ok ⟨result, false⟩, session) ∧
      result.freeNames [] = ["x", "f"] ∧
      ∀ x ∈ result.freeNames [],
        (x ∈ node.freeNames [] ∧ (scope.get? x = some .noValue ∨ scope.get? x = none)) ∨
          ∃ name value, (scope.get? name = some value ∨ session.get? name = some value) ∧
            x ∈ value.freeNames [] := by
  intro session value scope node result
  have hrun : session.evaluate 3 scope node = some (.ok ⟨result, false⟩, session) := rfl
  have htable : ∀ name value, session.get? name = some value →
      value ≠ .noValue ∧ value.declares = false := by
    intro name value hvalue
    have hmem := mem_of_lookup hvalue
    simp only [session, List.mem_singleton, Prod.mk.injEq] at hmem
    obtain ⟨-, rfl⟩ := hmem
    exact ⟨Node.noConfusion, rfl⟩
  have hscope : ∀ name value, scope.get? name = some value → value.declares = false := by
    intro name value hvalue
    have hmem := mem_of_lookup hvalue
    simp only [scope, List.mem_cons, List.not_mem_nil, or_false, Prod.mk.injEq] at hmem
    rcases hmem with ⟨-, rfl⟩ | ⟨-, rfl⟩ <;> rfl
  exact ⟨hrun, rfl, (evaluate_scope_extrusion htable hscope rfl hrun).2⟩

end Viewlet
