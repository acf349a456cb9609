import Viewlet.Typing.Ty

/-!
Substitutions: finite maps from type variables to types. A variable of either kind is
replaced as a whole. `s.compose t` does what `t` and then `s` do.
-/

namespace Viewlet

/-- A finite map from type variables to types, of which the first binding of a variable
counts. -/
structure Subst where
  bindings : List (TyVar × Ty)
  deriving DecidableEq, Repr

namespace Subst

/-- The substitution that changes nothing. -/
def empty : Subst := ⟨[]⟩

/-- The substitution of one variable. -/
def single (v : TyVar) (ty : Ty) : Subst := ⟨[(v, ty)]⟩

/-- Whether nothing is bound. -/
def isEmpty (s : Subst) : Bool :=
  s.bindings.isEmpty

/-- The type bound to a variable. -/
def get? (s : Subst) (v : TyVar) : Option Ty :=
  s.bindings.lookup v

/-- Whether a variable is bound. -/
def binds (s : Subst) (v : TyVar) : Bool :=
  s.bindings.any fun binding => binding.1 == v

/-- Binds a variable, instead of what was bound to it. -/
def insert (s : Subst) (v : TyVar) (ty : Ty) : Subst :=
  ⟨(v, ty) :: s.bindings.filter fun binding => binding.1 != v⟩

/-- The substitution with the given bindings, the last one of a variable. -/
def ofList (bindings : List (TyVar × Ty)) : Subst :=
  bindings.foldl (fun s binding => s.insert binding.1 binding.2) empty

/-- Replaces the bound variables of a type. -/
def apply (s : Subst) : Ty → Ty
  | .var v => (s.get? v).getD (.var v)
  | .number v => (s.get? v).getD (.number v)
  | .bool => .bool
  | .float => .float
  | .func parameter result => .func (s.apply parameter) (s.apply result)

/-- The substitution that does what `t` and then `s` do. -/
def compose (s t : Subst) : Subst :=
  ⟨t.bindings.map (fun binding => (binding.1, s.apply binding.2)) ++
    s.bindings.filter fun binding => !t.binds binding.1⟩

@[simp] theorem apply_empty (ty : Ty) : empty.apply ty = ty := by
  induction ty with
  | var v => rfl
  | number v => rfl
  | bool => rfl
  | float => rfl
  | func parameter result ihp ihr => simp [apply, ihp, ihr]

@[simp] theorem get?_single (v w : TyVar) (ty : Ty) :
    (single v ty).get? w = if w = v then some ty else none := by
  by_cases h : w = v
  · simp [get?, single, h]
  · have hbeq : (w == v) = false := by simpa using h
    simp [get?, single, List.lookup_cons, hbeq, h]

/-- Replacing a variable leaves the other variables of a type, and those of the type put
in. -/
theorem mem_vars_apply_single {x v : TyVar} {ty target : Ty}
    (h : x ∈ ((single v ty).apply target).vars) : (x ∈ target.vars ∧ x ≠ v) ∨ x ∈ ty.vars := by
  induction target with
  | var w =>
      by_cases hw : w = v
      · exact .inr (by simpa [apply, hw] using h)
      · have hx : x = w := by simpa [apply, hw, Ty.vars] using h
        exact .inl ⟨by simp [Ty.vars, hx], fun hxv => hw (hx.symm.trans hxv)⟩
  | number w =>
      by_cases hw : w = v
      · exact .inr (by simpa [apply, hw] using h)
      · have hx : x = w := by simpa [apply, hw, Ty.vars] using h
        exact .inl ⟨by simp [Ty.vars, hx], fun hxv => hw (hx.symm.trans hxv)⟩
  | bool => simp [apply, Ty.vars] at h
  | float => simp [apply, Ty.vars] at h
  | func parameter result ihp ihr =>
      simp only [apply, Ty.vars, List.mem_append] at h ⊢
      rcases h with h | h
      · exact (ihp h).imp_left (And.imp_left .inl)
      · exact (ihr h).imp_left (And.imp_left .inr)

end Subst

end Viewlet
