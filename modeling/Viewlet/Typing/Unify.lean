import Viewlet.Typing.Subst

/-!
Unification. A list of equations is solved from the front. Solving an equation for a
variable eliminates the variable from the equations that remain, and an equation between
functions becomes two smaller ones, so the number of variables and the size of the
equations decrease in turn.
-/

namespace Viewlet

/-- Why two types have no common instance. -/
inductive UnifyError where
  | mismatch (expected found : Ty)
  /-- The variable would stand for a type that contains it. -/
  | occurs (v : TyVar) (ty : Ty)
  deriving DecidableEq, Repr

/-- The cause in words. -/
def UnifyError.message : UnifyError → String
  | .mismatch expected found =>
      "type mismatch: expected " ++ expected.render ++ ", found " ++ found.render
  | .occurs v ty => "occurs check: cannot construct infinite type " ++ Ty.renderEquation v ty

/-- What one equation asks for. -/
inductive Solution where
  /-- Nothing: its sides are the same. -/
  | same
  /-- Its sides agree if the variable stands for the type. -/
  | bind (v : TyVar) (ty : Ty)
  /-- Parameters and results have to agree. -/
  | split (parameter parameter' result result' : Ty)
  /-- Its sides cannot agree. -/
  | clash
  deriving DecidableEq, Repr

/-- What the equation of two types asks for. A plain variable can stand for any type; a
numeric one only for another numeric variable or for the floating point type. -/
def Ty.equate : Ty → Ty → Solution
  | .bool, .bool => .same
  | .float, .float => .same
  | .var v, .var w => if v = w then .same else .bind v (.var w)
  | .var v, ty => .bind v ty
  | ty, .var v => .bind v ty
  | .number v, .number w => if v = w then .same else .bind v (.number w)
  | .number v, .float => .bind v .float
  | .float, .number v => .bind v .float
  | .func parameter result, .func parameter' result' =>
      .split parameter parameter' result result'
  | _, _ => .clash

/-- Equations between types. -/
abbrev Equations : Type := List (Ty × Ty)

namespace Equations

/-- The variables of equations. -/
def vars (equations : Equations) : List TyVar :=
  equations.flatMap fun equation => equation.1.vars ++ equation.2.vars

/-- The number of different variables of equations. -/
def varCount (equations : Equations) : Nat :=
  (Ty.ordered equations.vars).length

/-- Replaces variables on both sides of equations. -/
def subst (equations : Equations) (s : Subst) : Equations :=
  equations.map fun equation => (s.apply equation.1, s.apply equation.2)

/-- The number of nodes of equations. -/
def size (equations : Equations) : Nat :=
  equations.foldr (fun equation total => equation.1.size + equation.2.size + total) 0

theorem mem_vars_cons {x : TyVar} {left right : Ty} {rest : Equations} :
    x ∈ vars ((left, right) :: rest) ↔ (x ∈ left.vars ∨ x ∈ right.vars) ∨ x ∈ vars rest := by
  simp [vars, or_assoc]

theorem mem_vars_subst {x v : TyVar} {ty : Ty} {equations : Equations}
    (h : x ∈ vars (equations.subst (.single v ty))) :
    (x ∈ vars equations ∧ x ≠ v) ∨ x ∈ ty.vars := by
  induction equations with
  | nil => simp [subst, vars] at h
  | cons equation rest ih =>
      obtain ⟨left, right⟩ := equation
      rw [subst, List.map_cons, mem_vars_cons] at h
      rcases h with (h | h) | h
      · exact (Subst.mem_vars_apply_single h).imp_left
          (And.imp_left fun hx => mem_vars_cons.mpr (.inl (.inl hx)))
      · exact (Subst.mem_vars_apply_single h).imp_left
          (And.imp_left fun hx => mem_vars_cons.mpr (.inl (.inr hx)))
      · exact (ih h).imp_left (And.imp_left fun hx => mem_vars_cons.mpr (.inr hx))

/-- Fewer nodes without new variables make equations smaller. -/
theorem decreases_of_subset {first second : Equations} (h : ∀ x ∈ vars first, x ∈ vars second)
    (hsize : size first < size second) :
    Prod.Lex (· < ·) (· < ·) (varCount first, size first) (varCount second, size second) := by
  rcases Nat.lt_or_eq_of_le (Ty.length_ordered_le h) with hlt | heq
  · exact Prod.Lex.left _ _ hlt
  · rw [show varCount first = varCount second from heq]
    exact Prod.Lex.right _ hsize

end Equations

/-- A variable that is to be bound stands on one side, and what it is bound to is the
other side. -/
theorem Ty.side_of_equate_bind {left right ty : Ty} {v : TyVar}
    (h : left.equate right = .bind v ty) :
    (v ∈ left.vars ∧ ty = right) ∨ (v ∈ right.vars ∧ ty = left) := by
  cases left <;> cases right <;> simp only [equate] at h <;> (try split at h) <;>
    simp_all [vars]

/-- Only an equation between functions is split, into their parts. -/
theorem Ty.eq_func_of_equate_split {left right p p' r r' : Ty}
    (h : left.equate right = .split p p' r r') : left = .func p r ∧ right = .func p' r' := by
  cases left <;> cases right <;> simp only [equate] at h <;> (try split at h) <;> simp_all

set_option linter.unusedVariables false in
/-- Solves equations from the front. -/
def Equations.solve (equations : Equations) : Except UnifyError Subst :=
  match equations with
  | [] => .ok .empty
  | (left, right) :: rest =>
      match h : left.equate right with
      | .same => solve rest
      | .bind v ty =>
          if hv : v ∈ ty.vars then .error (.occurs v ty)
          else
            match solve (Equations.subst rest (.single v ty)) with
            | .ok s => .ok (s.compose (.single v ty))
            | .error error => .error error
      | .split parameter parameter' result result' =>
          solve ((parameter, parameter') :: (result, result') :: rest)
      | .clash => .error (.mismatch left right)
termination_by (equations.varCount, equations.size)
decreasing_by
  · refine decreases_of_subset (fun x hx => mem_vars_cons.mpr (.inr hx)) ?_
    have := left.size_pos
    simp [size]
    omega
  · have hbound : (v ∈ left.vars ∨ v ∈ right.vars) ∧
        ∀ x ∈ ty.vars, x ∈ left.vars ∨ x ∈ right.vars := by
      rcases Ty.side_of_equate_bind h with ⟨hside, rfl⟩ | ⟨hside, rfl⟩
      · exact ⟨.inl hside, fun x hx => .inr hx⟩
      · exact ⟨.inr hside, fun x hx => .inl hx⟩
    refine Prod.Lex.left _ _
      (Ty.length_ordered_lt ?_ (mem_vars_cons.mpr (.inl hbound.1)) fun hx => ?_)
    · intro x hx
      rcases mem_vars_subst hx with ⟨hx, -⟩ | hx
      · exact mem_vars_cons.mpr (.inr hx)
      · exact mem_vars_cons.mpr (.inl (hbound.2 x hx))
    · rcases mem_vars_subst hx with ⟨-, hne⟩ | hx
      · exact hne rfl
      · exact hv hx
  · obtain ⟨rfl, rfl⟩ := Ty.eq_func_of_equate_split h
    refine decreases_of_subset (fun x hx => ?_) ?_
    · simp only [mem_vars_cons, Ty.vars, List.mem_append] at hx ⊢
      rcases hx with (hx | hx) | (hx | hx) | hx
      · exact .inl (.inl (.inl hx))
      · exact .inl (.inr (.inl hx))
      · exact .inl (.inl (.inr hx))
      · exact .inl (.inr (.inr hx))
      · exact .inr hx
    · simp [size, Ty.size]
      omega

/-- The most general substitution under which two types agree. -/
def unify (left right : Ty) : Except UnifyError Subst :=
  Equations.solve [(left, right)]

end Viewlet
