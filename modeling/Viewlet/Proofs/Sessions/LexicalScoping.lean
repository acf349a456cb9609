import Mathlib.Data.List.Forall2
import Viewlet.Proofs.Evaluation.Rebinding
import Viewlet.Proofs.Reading.ReadNodes
import Viewlet.Proofs.Sessions.RenamedSessions

namespace Viewlet

theorem EvalError.ctorIdx_rename {ρ : String → String} (error : EvalError) :
    (error.rename ρ).ctorIdx = error.ctorIdx := by
  cases error <;> rfl

theorem Node.eq_of_isLiteral_rename {ρ : String → String} {node : Node}
    (h : (node.rename ρ).isLiteral = true ∨ node.isLiteral = true) : node.rename ρ = node := by
  cases node with
  | integer | float | boolean => rfl
  | _ => exact h.elim (fun h => by cases h) fun h => by cases h

/-- Two outcomes of a unit that look alike: errors of one kind, or two nodes that are the same
literal if one of them is a literal. -/
inductive Alike : Except EvalError Node → Except EvalError Node → Prop where
  | error {error error' : EvalError} : error.ctorIdx = error'.ctorIdx →
      Alike (.error error) (.error error')
  | ok {found found' : Node} :
      (found.isLiteral = true ∨ found'.isLiteral = true → found = found') →
      Alike (.ok found) (.ok found')

namespace Session

/-- The outcomes of units that are evaluated one after the other, whatever comes of the ones
before, up to the first that is not given enough depth. -/
def outcomes (depth : Nat) (session : Session) : List Node → List (Except EvalError Node)
  | [] => []
  | unit :: units =>
      match session.evaluate depth [] unit with
      | none => []
      | some (result, session) => result.map Evaluated.node :: outcomes depth session units

theorem outcomes_alike {ρ : String → String} {called : List String} {depth : Nat}
    {session : Session} {units : List Node} (hunits : ∀ unit ∈ units, unit.RenamableUnit ρ called)
    (h : session.table.Portable ρ called) :
    List.Forall₂ Alike (outcomes depth (session.rename ρ) (units.map (Node.rename ρ)))
      (outcomes depth session units) := by
  induction units generalizing session with
  | nil => exact .nil
  | cons unit units ih =>
      obtain ⟨hunit, hunits⟩ := List.forall_mem_cons.mp hunits
      rw [List.map_cons, outcomes, outcomes, evaluate_rename hunit h]
      rcases hrun : session.evaluate depth [] unit with _ | ⟨result, after⟩
      · exact .nil
      · refine .cons ?_ (ih hunits (portable_of_evaluate hunit h hrun))
        cases result with
        | error error => exact .error error.ctorIdx_rename
        | ok outcome => exact .ok Node.eq_of_isLiteral_rename

end Session

section Rebinding

variable {old new : String} {called : List String} {unit unit' : Node}

theorem anchored_restore {x : String} (hold : x ≠ old) (hnew : x ≠ new) :
    Anchored (restore old new) x := by
  intro y
  by_cases hy : y = new
  · rw [hy, restore_new]
    exact ⟨fun heq => absurd heq.symm hold, fun heq => absurd heq.symm hnew⟩
  · rw [restore_of_ne hy]

theorem Node.notMem_names_content (h : new ∉ unit.names) : new ∉ unit.content.names := by
  cases unit with
  | declaration name body => exact (notMem_names_declaration.mp h).2
  | _ => exact h

theorem Node.IsUnit.isExpression_content (h : unit.IsUnit) : unit.content.IsExpression := by
  cases h with
  | declaration hbody => exact hbody
  | expression hnode =>
      cases unit with
      | declaration =>
          cases hnode with
          | inert hinert => cases hinert
      | _ => exact hnode

/-- A unit that is renamed to one without the new name, in which no function that is handed on
uses the old one. -/
theorem Node.renamable_of_restore (hrename : unit'.rename (restore old new) = unit)
    (hrespects : unit'.content.Respects (restore old new))
    (hfree : ∀ x ∈ unit'.content.freeNames [], x ≠ new) (hnew : new ∉ unit.names)
    (hold : old ∉ unit.carriedNames called)
    (hcalled : ∀ x ∈ unit.content.handedNames, x ∉ called) :
    unit'.RenamableUnit (restore old new) called := by
  have hglobal : ∀ x ∈ unit'.content.freeNames [], restore old new x = x := fun x hx =>
    restore_of_ne (hfree x hx)
  have hanchored : ∀ x ∈ unit.carriedNames called, Anchored (restore old new) x := fun x hx =>
    anchored_restore (fun heq => hold (heq ▸ hx))
      (ne_of_mem_freeNames (notMem_names_content hnew) (mem_freeNames_of_mem_carriedNames hx))
  subst hrename
  cases unit' with
  | declaration name body =>
      exact .of_rename (restore_of_ne (notMem_names_declaration.mp hnew).1.symm) hrespects hglobal
        hanchored hcalled
  | _ => exact .expression (.of_rename hrespects hglobal hanchored hcalled)

theorem Node.IsUnit.renamable (hunit : unit.IsUnit) (hnew : new ∉ unit.names)
    (hold : old ∉ unit.carriedNames called)
    (hcalled : ∀ x ∈ unit.content.handedNames, x ∉ called) :
    unit.RenamableUnit (restore old new) called :=
  renamable_of_restore (rename_restore hnew)
    (respects_restore hunit.isExpression_content (notMem_names_content hnew))
    (fun _ => ne_of_mem_freeNames (notMem_names_content hnew)) hnew hold hcalled

theorem Node.Rebinds.content (h : Rebinds old new unit unit') :
    Rebinds old new unit.content unit'.content := by
  cases h with
  | declaration h => exact h
  | parameter body => exact .parameter body
  | body h => exact .body h
  | callee h => exact .callee h
  | argument h => exact .argument h
  | left h => exact .left h
  | right h => exact .right h
  | operand h => exact .operand h
  | condition h => exact .condition h
  | branch h => exact .branch h
  | constructed h => exact .constructed h

theorem Node.Rebinds.renamable (h : Rebinds old new unit unit') (hunit : unit.IsUnit)
    (hnew : new ∉ unit.names) (hold : old ∉ unit.carriedNames called)
    (hcalled : ∀ x ∈ unit.content.handedNames, x ∉ called) :
    unit'.RenamableUnit (restore old new) called :=
  renamable_of_restore (h.rename hnew)
    (h.content.respects hunit.isExpression_content (notMem_names_content hnew))
    (fun _ hx => ne_of_mem_freeNames (notMem_names_content hnew)
      ((h.content.mem_freeNames (notMem_names_content hnew)).mp hx)) hnew hold hcalled

/-- A parameter in a session of units gets a name that occurs nowhere in them, and no function in
them that is handed on refers to a declaration by the old name. Then the outcomes stay alike. -/
theorem outcomes_alike_of_rebinds {before after : List Node} {depth : Nat} {root : String}
    (hrebinds : Node.Rebinds old new unit unit')
    (hunits : ∀ node ∈ before ++ unit :: after, node.IsUnit)
    (hnew : ∀ node ∈ before ++ unit :: after, new ∉ node.names)
    (hold : old ∉ carriedNames (before ++ unit :: after)) :
    List.Forall₂ Alike (Session.outcomes depth { root := root } (before ++ unit :: after))
      (Session.outcomes depth { root := root } (before ++ unit' :: after)) := by
  have hmem : unit ∈ before ++ unit :: after :=
    List.mem_append_right before List.mem_cons_self
  have hcarried : ∀ node ∈ before ++ unit :: after,
      old ∉ node.carriedNames (calledNames (before ++ unit :: after)) :=
    fun node hmem hx => hold (List.mem_flatMap.mpr ⟨node, hmem, hx⟩)
  have hothers : ∀ node ∈ before ++ unit :: after,
      node.RenamableUnit (restore old new) (calledNames (before ++ unit :: after)) :=
    fun node hmem => (hunits node hmem).renamable (hnew node hmem) (hcarried node hmem)
      fun x => notMem_calledNames hmem
  have hunit' := hrebinds.renamable (hunits unit hmem) (hnew unit hmem) (hcarried unit hmem)
    fun x => notMem_calledNames hmem
  have hrenamed :
      (before ++ unit' :: after).map (Node.rename (restore old new)) = before ++ unit :: after := by
    rw [List.forall_mem_append, List.forall_mem_cons] at hnew
    rw [List.map_append, List.map_cons, Node.map_rename_restore hnew.1, hrebinds.rename hnew.2.1,
      Node.map_rename_restore hnew.2.2]
  have hunits' : ∀ node ∈ before ++ unit' :: after,
      node.RenamableUnit (restore old new) (calledNames (before ++ unit :: after)) := by
    rw [List.forall_mem_append, List.forall_mem_cons] at hothers ⊢
    exact ⟨hothers.1, hunit', hothers.2.2⟩
  have hfresh : ({ root := root } : Session).table.Portable (restore old new)
      (calledNames (before ++ unit :: after)) := Table.portable_nil _ _
  rw [← hrenamed]
  exact Session.outcomes_alike hunits' hfresh

/-- A parameter with the name of a declaration gets another name. The function that uses the
declaration is called below the parameter, and handed on nowhere. -/
theorem outcomes_alike_of_rebinds_shadowing :
    let identity : Node := .declaration "i" (.function "x" (.var "x"))
    let through : Node := .declaration "h" (.function "n" (.apply (.var "i") (.var "n")))
    let constant : Node := .declaration "z" (.function "i" (.apply (.var "h") (.integer 2)))
    let constant' : Node := .declaration "z" (.function "k" (.apply (.var "h") (.integer 2)))
    let call : Node := .apply (.var "z") (.integer 5)
    Node.Rebinds "i" "k" constant constant' ∧
      (Session.outcomes 8 {} [identity, through, constant, call])[3]? = some (.ok (.integer 2)) ∧
      List.Forall₂ Alike (Session.outcomes 8 {} [identity, through, constant, call])
        (Session.outcomes 8 {} [identity, through, constant', call]) := by
  intro identity through constant constant' call
  have hrebinds : Node.Rebinds "i" "k" constant constant' :=
    .declaration (.parameter (.apply (.var "h") (.integer 2)))
  have hunits : ∀ node ∈ [identity, through] ++ constant :: [call], node.IsUnit := by
    have hidentity : identity.IsUnit := .declaration (.function trivial (.var "x"))
    have hthrough : through.IsUnit :=
      .declaration (.function trivial (.apply (.var "i") (.var "n")))
    have hconstant : constant.IsUnit :=
      .declaration (.function trivial (.apply (.var "h") (.inert rfl)))
    have hcall : call.IsUnit := .expression (.apply (.var "z") (.inert rfl))
    simp [hidentity, hthrough, hconstant, hcall]
  exact ⟨hrebinds, rfl, outcomes_alike_of_rebinds hrebinds hunits (by decide) (by decide)⟩

/-- A function refers to a declaration by the name of the parameter below which it is put in. With
another name for the parameter the last unit has another value. -/
theorem outcomes_captured_differ :
    let identity : Node := .declaration "i" (.function "x" (.var "x"))
    let through : Node := .declaration "h" (.function "n" (.apply (.var "i") (.var "n")))
    let handed : Node := .declaration "z" (.function "i" (.var "h"))
    let handed' : Node := .declaration "z" (.function "k" (.var "h"))
    let call : Node := .apply (.apply (.var "z") (.function "x" (.binary .add (.var "x")
      (.integer 1)))) (.integer 2)
    Node.Rebinds "i" "k" handed handed' ∧
      (∀ node ∈ [identity, through, handed, call], node.IsUnit ∧ "k" ∉ node.names) ∧
      (Session.outcomes 12 {} [identity, through, handed, call])[3]? = some (.ok (.integer 3)) ∧
      (Session.outcomes 12 {} [identity, through, handed', call])[3]? =
        some (.ok (.integer 2)) := by
  intro identity through handed handed' call
  refine ⟨.declaration (.parameter (.var "h")), ?_, rfl, rfl⟩
  have hidentity : identity.IsUnit := .declaration (.function trivial (.var "x"))
  have hthrough : through.IsUnit :=
    .declaration (.function trivial (.apply (.var "i") (.var "n")))
  have hhanded : handed.IsUnit := .declaration (.function trivial (.var "h"))
  have hcall : call.IsUnit := .expression (.apply (.apply (.var "z")
    (.function trivial (.binary (.var "x") (.inert rfl)))) (.inert rfl))
  have hnames : ∀ node ∈ [identity, through, handed, call], "k" ∉ node.names := by decide
  intro node hmem
  refine ⟨?_, hnames node hmem⟩
  simp only [List.mem_cons, List.not_mem_nil, or_false] at hmem
  rcases hmem with rfl | rfl | rfl | rfl
  · exact hidentity
  · exact hthrough
  · exact hhanded
  · exact hcall

end Rebinding

end Viewlet
