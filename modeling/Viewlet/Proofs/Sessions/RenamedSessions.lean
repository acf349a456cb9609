import Viewlet.Proofs.Evaluation.RenamedRun

namespace Viewlet

/-- What is evaluated of a unit. -/
def Node.content : Node → Node
  | .declaration _ body => body
  | node => node

/-- The names that the functions in a unit use, as far as the functions can be put in below a
parameter. What is only called cannot, but the functions inside of it can. -/
def Node.carriedNames (called : List String) : Node → List String
  | .declaration name body => if name ∈ called then body.innerNames else body.keptNames
  | node => node.innerNames

/-- The names that units hand on. -/
def handedNames (units : List Node) : List String :=
  units.flatMap fun unit => unit.content.handedNames

/-- The names that units declare and do not hand on, so that they are only called. -/
def calledNames (units : List Node) : List String :=
  units.filterMap fun
    | .declaration name _ => if name ∈ handedNames units then none else some name
    | _ => none

/-- The names that the functions in units use, as far as the functions are handed on. -/
def carriedNames (units : List Node) : List String :=
  units.flatMap (Node.carriedNames (calledNames units))

theorem notMem_calledNames {units : List Node} {unit : Node} (hmem : unit ∈ units) {x : String}
    (hx : x ∈ unit.content.handedNames) : x ∉ calledNames units := by
  have hhanded : x ∈ handedNames units := List.mem_flatMap.mpr ⟨unit, hmem, hx⟩
  intro hcalled
  obtain ⟨other, -, heq⟩ := List.mem_filterMap.mp hcalled
  cases other with
  | declaration name body =>
      dsimp only at heq
      split at heq
      · cases heq
      · next hname =>
          obtain rfl := Option.some.inj heq
          exact hname hhanded
  | _ => cases heq

theorem Node.mem_freeNames_of_mem_carriedNames {called : List String} {unit : Node} {x : String}
    (hx : x ∈ unit.carriedNames called) : x ∈ unit.content.freeNames [] := by
  cases unit with
  | declaration name body =>
      rw [carriedNames] at hx
      split at hx
      · exact mem_freeNames_of_mem_keptNames (mem_keptNames_of_mem_innerNames hx)
      · exact mem_freeNames_of_mem_keptNames hx
  | _ => exact mem_freeNames_of_mem_keptNames (mem_keptNames_of_mem_innerNames hx)

/-- A unit that can be renamed. -/
inductive Node.RenamableUnit (ρ : String → String) (called : List String) : Node → Prop where
  | expression {node : Node} : node.Callable ρ called → RenamableUnit ρ called node
  | declaration {name body} : ρ name = name → body.Callable ρ called →
      (name ∉ called → ∀ x ∈ body.keptNames, Anchored ρ x) →
      RenamableUnit ρ called (.declaration name body)

section Units

variable {ρ : String → String} {called : List String} {name : String} {node : Node} {table : Table}

theorem Node.RenamableUnit.of_rename {body : Node} (hname : ρ name = name) (h : body.Respects ρ)
    (hglobal : ∀ x ∈ body.freeNames [], ρ x = x)
    (hcarried : ∀ x ∈ (Node.declaration name (body.rename ρ)).carriedNames called, Anchored ρ x)
    (hhanded : ∀ x ∈ (body.rename ρ).handedNames, x ∉ called) :
    RenamableUnit ρ called (.declaration name body) := by
  rw [carriedNames] at hcarried
  by_cases hcalled : name ∈ called
  · rw [if_pos hcalled] at hcarried
    exact .declaration hname (.of_rename h hglobal hcarried hhanded)
      fun hnot => absurd hcalled hnot
  · rw [if_neg hcalled] at hcarried
    refine .declaration hname (.of_rename h hglobal (fun x hx => hcarried x
      (mem_keptNames_of_mem_innerNames hx)) hhanded) fun _ x hx => ?_
    exact hcarried x ((mem_keptNames_rename h).mpr
      ⟨x, hx, hglobal x (mem_freeNames_of_mem_keptNames hx)⟩)

theorem Node.Callable.opens (h : node.Callable ρ called) : Scope.Opens ρ called [] node where
  respects := h.respects
  tracks _ _ := rfl
  global x hx _ := h.global x hx
  inner x hx _ := h.inner x hx
  handed x hx _ := h.handed x hx
  values := valuesHave_emptyScope

theorem Node.Callable.opens_bindUnresolved (h : node.Callable ρ called) (hname : ρ name = name) :
    (Scope.bindUnresolved [] name).Opens ρ called node where
  respects := h.respects
  tracks x hx := by
    rw [Scope.rename_bindUnresolved, hname, h.global x hx, Scope.bindUnresolved,
      Scope.bindUnresolved, Scope.get?_bind, Scope.get?_bind]
    split <;> rfl
  global x hx _ := h.global x hx
  inner x hx _ := h.inner x hx
  handed x hx _ := h.handed x hx
  values := valuesHave_emptyScope.bindUnresolved name

theorem Table.rename_declare (value : Node) :
    (table.declare name value).rename ρ = (table.rename ρ).declare name (value.rename ρ) := by
  rw [Table.declare, Table.declare, Table.rename, Table.rename, List.map_cons, List.filter_map]
  rfl

theorem Table.portable_nil (ρ : String → String) (called : List String) :
    Table.Portable ρ called [] := by
  intro name value h
  cases h

theorem Table.Portable.declare {value : Node} (h : table.Portable ρ called)
    (hvalue : value.isValue = true) (hcallable : value.Callable ρ called)
    (hportable : name ∉ called → value.Portable ρ called) :
    (table.declare name value).Portable ρ called := by
  intro other found hfound
  rw [Table.declare, lookup_replace] at hfound
  split at hfound
  · next heq =>
      obtain rfl := Option.some.inj hfound
      exact ⟨hvalue, hcallable, heq ▸ hportable⟩
  · exact h other found hfound

theorem Node.RenamableUnit.mirrors {depth : Nat} (h : node.RenamableUnit ρ called)
    (htable : table.Portable ρ called) :
    Eval.Mirrors ρ (Evaluated.rename ρ) table (evaluate depth [] node)
      (evaluate depth [] (node.rename ρ)) := by
  cases h with
  | expression hnode => exact hnode.opens.mirrors depth htable
  | @declaration name body hname hbody =>
      cases depth with
      | zero => rfl
      | succ depth =>
          have hmirrors := (hbody.opens_bindUnresolved hname).mirrors depth htable
          rw [Scope.rename_bindUnresolved, hname] at hmirrors
          refine Eval.mirrors_declared?_bind ?_
          cases table.lookup name with
          | some value => rfl
          | none =>
              refine hmirrors.bind fun outcome middle _ => ?_
              obtain ⟨value, complete⟩ := outcome
              cases complete with
              | false => rfl
              | true =>
                  exact (Eval.mirrors_modify (Table.rename_declare value)).bind fun _ _ _ =>
                    Eval.mirrors_pure (⟨.declaration name value, true⟩ : Evaluated)

theorem Node.RenamableUnit.portable {depth : Nat} {result : Except EvalError Evaluated}
    {table' : Table} (h : node.RenamableUnit ρ called) (htable : table.Portable ρ called)
    (hrun : (evaluate depth [] node).Gives table result table') : table'.Portable ρ called := by
  cases h with
  | expression hnode =>
      rwa [(isRegular_evaluate (hereditary_formed _) depth hnode.respects.isExpression
        valuesHave_emptyScope htable.isExpression hrun).table_eq]
  | @declaration name body hname hbody hkept =>
      cases depth with
      | zero => cases hrun
      | succ depth =>
          have hopens := hbody.opens_bindUnresolved hname
          have hregular : ∀ {result table'},
              (evaluate depth (Scope.bindUnresolved [] name) body).Gives table result table' →
              Evaluated.Regular Node.IsExpression _ body table result table' :=
            isRegular_evaluate (hereditary_formed _) depth hbody.respects.isExpression
              (valuesHave_emptyScope.bindUnresolved name) htable.isExpression
          rcases Eval.declaration_cases hrun with ⟨rfl, -⟩ | ⟨-, hcases⟩
          · exact htable
          · rcases hcases with ⟨error, hvalue, -⟩ | ⟨outcome, middle, hvalue, hcases⟩
            · rwa [(hregular hvalue).table_eq]
            · obtain rfl := (hregular hvalue).table_eq
              rcases hcases with ⟨hcomplete, rfl, -⟩ | ⟨-, rfl, -⟩
              · have hisValue := (hregular hvalue).isValue rfl hcomplete
                have hcallable := hbody.of_evaluate hopens htable hvalue
                refine htable.declare hisValue hcallable fun hcalled => ?_
                have hfits := hopens.fits fun x hx _ => hkept hcalled x hx
                have hscoped := isScoped_evaluate ρ called depth hfits htable hvalue
                exact hcallable.portable hisValue fun x hx =>
                  (hscoped.kept x hx).elim id fun hx => hkept hcalled x hx.1
              · exact htable

end Units

/-- Renames the nodes an error is about. -/
def SessionError.rename (ρ : String → String) : SessionError → SessionError
  | .evaluation error => .evaluation (error.rename ρ)
  | error => error

namespace Session

/-- Renames what is declared. -/
def rename (ρ : String → String) (session : Session) : Session :=
  { session with table := session.table.rename ρ }

variable {ρ : String → String} {called : List String} {session after : Session} {depth : Nat}
  {unit : Node} {units : List Node}

theorem evaluate_rename (hunit : unit.RenamableUnit ρ called)
    (h : session.table.Portable ρ called) :
    (session.rename ρ).evaluate depth [] (unit.rename ρ) =
      (session.evaluate depth [] unit).map fun outcome =>
        (renameResult ρ (Evaluated.rename ρ) outcome.1, outcome.2.rename ρ) := by
  rw [evaluate, evaluate, rename, hunit.mirrors h]
  rcases (Viewlet.evaluate depth [] unit).run.run session.table with _ | ⟨result, table⟩ <;> rfl

theorem portable_of_evaluate {result : Except EvalError Evaluated}
    (hunit : unit.RenamableUnit ρ called) (h : session.table.Portable ρ called)
    (hrun : session.evaluate depth [] unit = some (result, after)) :
    after.table.Portable ρ called :=
  hunit.portable h (Eval.gives_of_evaluate hrun).1

theorem declareAll_rename (hunits : ∀ unit ∈ units, unit.RenamableUnit ρ called)
    (h : session.table.Portable ρ called) :
    (session.rename ρ).declareAll depth ((units.map (Node.rename ρ)).map .ok) =
      (session.declareAll depth (units.map .ok)).map fun outcome =>
        (outcome.1.mapError (SessionError.rename ρ), outcome.2.rename ρ) := by
  induction units generalizing session with
  | nil => rfl
  | cons unit units ih =>
      obtain ⟨hunit, hunits⟩ := List.forall_mem_cons.mp hunits
      rw [List.map_cons, List.map_cons, List.map_cons, declareAll, declareAll,
        evaluate_rename hunit h]
      rcases hrun : session.evaluate depth [] unit with _ | ⟨result, after⟩
      · rfl
      · cases result with
        | error error => rfl
        | ok outcome => exact ih hunits (portable_of_evaluate hunit h hrun)

theorem portable_of_declareAll {result : Except SessionError Unit}
    (hunits : ∀ unit ∈ units, unit.RenamableUnit ρ called)
    (h : session.table.Portable ρ called)
    (hrun : session.declareAll depth (units.map .ok) = some (result, after)) :
    after.table.Portable ρ called := by
  induction units generalizing session with
  | nil =>
      cases hrun
      exact h
  | cons unit units ih =>
      obtain ⟨hunit, hunits⟩ := List.forall_mem_cons.mp hunits
      obtain ⟨⟨outcome, middle⟩, heval, hrest⟩ := Option.bind_eq_some_iff.mp hrun
      have hmiddle := portable_of_evaluate hunit h heval
      cases outcome with
      | error error =>
          cases hrest
          exact hmiddle
      | ok outcome => exact ih hunits hmiddle hrest

theorem get?_rename (x : String) :
    (session.rename ρ).get? x = (session.get? x).map (Node.rename ρ) :=
  lookup_rename ρ session.table x

theorem rootValue_rename (h : session.table.Portable ρ called) :
    (session.rename ρ).rootValue depth = (session.rootValue depth).map fun outcome =>
      ((outcome.1.map (Node.rename ρ)).mapError (SessionError.rename ρ), outcome.2.rename ρ) := by
  have hsame : (session.rename ρ).root = session.root := rfl
  rw [rootValue, rootValue, hsame, get?_rename]
  cases hroot : session.get? session.root with
  | none => rfl
  | some root =>
      have hunit : root.RenamableUnit ρ called := .expression (h session.root root hroot).2.1
      simp only [Option.map_some, evaluate_rename hunit h]
      rcases session.evaluate depth [] root with _ | ⟨error | outcome, after⟩ <;> rfl

end Session

end Viewlet
