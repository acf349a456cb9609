import Viewlet.Proofs.Typing.Unification

namespace Viewlet

namespace Ty

/-- The plain variables of a type as they appear in it. -/
def plainVars : Ty → List TyVar
  | .var v => [v]
  | .func parameter result => parameter.plainVars ++ result.plainVars
  | _ => []

/-- No variable is plain in one of the types and numeric in the other. -/
structure KindsAgree (ty other : Ty) : Prop where
  plain : ∀ v ∈ ty.plainVars, v ∉ other.numericVars
  numeric : ∀ v ∈ ty.numericVars, v ∉ other.plainVars

theorem mem_vars_iff {ty : Ty} {v : TyVar} :
    v ∈ ty.vars ↔ v ∈ ty.plainVars ∨ v ∈ ty.numericVars := by
  induction ty with
  | var w => simp [vars, plainVars, numericVars]
  | number w => simp [vars, plainVars, numericVars]
  | bool => simp [vars, plainVars, numericVars]
  | float => simp [vars, plainVars, numericVars]
  | func parameter result ihp ihr =>
      simp only [vars, plainVars, numericVars, List.mem_append, ihp, ihr]
      exact or_or_or_comm

theorem hasKinds_iff {κ : Kinding} {ty : Ty} :
    ty.HasKinds κ ↔ (∀ v ∈ ty.plainVars, κ v = false) ∧ ∀ v ∈ ty.numericVars, κ v = true := by
  induction ty with
  | var w => simp [HasKinds, plainVars, numericVars]
  | number w => simp [HasKinds, plainVars, numericVars]
  | bool => simp [HasKinds, plainVars, numericVars]
  | float => simp [HasKinds, plainVars, numericVars]
  | func parameter result ihp ihr =>
      simp only [HasKinds, plainVars, numericVars, List.forall_mem_append, ihp, ihr]
      exact and_and_and_comm

end Ty

/-- The substitution makes the types equal, and sends their numeric variables to numeric types. -/
structure Subst.Unifies (θ : Subst) (left right : Ty) : Prop where
  eq : θ.apply left = θ.apply right
  numeric : ∀ v ∈ left.numericVars ++ right.numericVars, (θ.apply (.number v)).isNumeric = true

section Pairs

variable {left right : Ty}

/-- The variables that are numeric in one of two types. -/
def Kinding.ofPair (left right : Ty) : Kinding :=
  fun v => (left.numericVars ++ right.numericVars).contains v

theorem Kinding.ofPair_eq_true {v : TyVar} :
    Kinding.ofPair left right v = true ↔ v ∈ left.numericVars ++ right.numericVars := by
  simp [ofPair]

theorem Kinding.ofPair_eq_false {v : TyVar} :
    Kinding.ofPair left right v = false ↔ v ∉ left.numericVars ∧ v ∉ right.numericVars := by
  rw [← Bool.not_eq_true, ofPair_eq_true, List.mem_append, not_or]

theorem Ty.hasKinds_ofPair (hleft : left.KindsAgree left) (hpair : left.KindsAgree right)
    (hright : right.KindsAgree right) :
    left.HasKinds (.ofPair left right) ∧ right.HasKinds (.ofPair left right) := by
  constructor
  · refine hasKinds_iff.mpr ⟨fun v hv => ?_, fun v hv => Kinding.ofPair_eq_true.mpr
      (List.mem_append_left _ hv)⟩
    exact Kinding.ofPair_eq_false.mpr ⟨hleft.plain v hv, hpair.plain v hv⟩
  · refine hasKinds_iff.mpr ⟨fun v hv => ?_, fun v hv => Kinding.ofPair_eq_true.mpr
      (List.mem_append_right _ hv)⟩
    exact Kinding.ofPair_eq_false.mpr ⟨fun hnumeric => hpair.numeric v hnumeric hv,
      hright.plain v hv⟩

theorem Subst.Unifies.respects {θ : Subst} (h : θ.Unifies left right) :
    θ.Respects (.ofPair left right) :=
  fun v hv => h.numeric v (Kinding.ofPair_eq_true.mp hv)

/-- What factors at the types that obey the kinds of a pair factors at all types whose kinds
agree with the pair: variables that are not in the pair are left alone. -/
theorem apply_apply_of_kindsAgree {s θ : Subst} (hs : unify left right = .ok s)
    (hfactors : ∀ ty, ty.HasKinds (.ofPair left right) → θ.apply (s.apply ty) = θ.apply ty)
    {ty : Ty} (hleft : ty.KindsAgree left) (hright : ty.KindsAgree right) :
    θ.apply (s.apply ty) = θ.apply ty := by
  induction ty with
  | var v =>
      have hv : v ∈ (Ty.var v).plainVars := List.mem_singleton.mpr rfl
      exact hfactors _ (Kinding.ofPair_eq_false.mpr ⟨hleft.plain v hv, hright.plain v hv⟩)
  | number v =>
      have hv : v ∈ (Ty.number v).numericVars := List.mem_singleton.mpr rfl
      by_cases hnumeric : v ∈ left.numericVars ++ right.numericVars
      · exact hfactors _ (Kinding.ofPair_eq_true.mpr hnumeric)
      · have hfresh : ¬(v ∈ left.vars ∨ v ∈ right.vars) := by
          rw [Ty.mem_vars_iff, Ty.mem_vars_iff]
          rintro ((hplain | hmem) | (hplain | hmem))
          · exact hleft.numeric v hv hplain
          · exact hnumeric (List.mem_append_left _ hmem)
          · exact hright.numeric v hv hplain
          · exact hnumeric (List.mem_append_right _ hmem)
        have hnone : s.get? v = none := by
          cases hget : s.get? v with
          | none => rfl
          | some image => exact absurd ((solvedOn_of_unify hs).bound hget) hfresh
        simp only [Subst.apply, hnone, Option.getD_none]
  | bool => rfl
  | float => rfl
  | func parameter result ihp ihr =>
      have hparameter : ∀ {other : Ty}, (Ty.func parameter result).KindsAgree other →
          parameter.KindsAgree other := fun h =>
        ⟨fun v hv => h.plain v (List.mem_append_left _ hv),
          fun v hv => h.numeric v (List.mem_append_left _ hv)⟩
      have hresult : ∀ {other : Ty}, (Ty.func parameter result).KindsAgree other →
          result.KindsAgree other := fun h =>
        ⟨fun v hv => h.plain v (List.mem_append_right _ hv),
          fun v hv => h.numeric v (List.mem_append_right _ hv)⟩
      simp only [Subst.apply_func, ihp (hparameter hleft) (hparameter hright),
        ihr (hresult hleft) (hresult hright)]

/-- What unification gives makes the types equal. If each variable is used at one kind in them,
it succeeds exactly if they have a unifier, and every unifier factors through what it gives, on
all types that use variables at no other kind than the two. -/
theorem unify_most_general (left right : Ty) :
    (∀ s, unify left right = .ok s → s.apply left = s.apply right) ∧
      (left.KindsAgree left → left.KindsAgree right → right.KindsAgree right →
        ((∃ s, unify left right = .ok s) ↔ ∃ θ : Subst, θ.Unifies left right) ∧
        ∀ θ : Subst, θ.Unifies left right → ∃ s, unify left right = .ok s ∧
          ∀ ty : Ty, ty.KindsAgree left → ty.KindsAgree right →
            θ.apply (s.apply ty) = θ.apply ty) := by
  refine ⟨fun s => apply_eq_of_unify, fun hleft hpair hright => ?_⟩
  obtain ⟨hkinds, hkinds'⟩ := Ty.hasKinds_ofPair hleft hpair hright
  have hgeneral : ∀ θ : Subst, θ.Unifies left right → ∃ s, unify left right = .ok s ∧
      ∀ ty : Ty, ty.KindsAgree left → ty.KindsAgree right →
        θ.apply (s.apply ty) = θ.apply ty := by
    intro θ hθ
    obtain ⟨s, hs, hfactors⟩ := exists_unify hkinds hkinds' hθ.respects hθ.eq
    exact ⟨s, hs, fun ty => apply_apply_of_kindsAgree hs hfactors⟩
  refine ⟨⟨?_, ?_⟩, hgeneral⟩
  · rintro ⟨s, hs⟩
    exact ⟨s, apply_eq_of_unify hs, fun v hv =>
      (within_of_unify hkinds hkinds' hs).respects v (Kinding.ofPair_eq_true.mpr hv)⟩
  · rintro ⟨θ, hθ⟩
    obtain ⟨s, hs, -⟩ := hgeneral θ hθ
    exact ⟨s, hs⟩

/-- A plain variable that is equated with a numeric one and then with a numeric type. The type
with a variable of its own is one of those at which the unifier factors. -/
theorem unify_most_general_threaded :
    let left : Ty := .func (.var 0) (.func (.var 0) (.var 2))
    let right : Ty := .func (.number 1) (.func .float .bool)
    let ty : Ty := .func (.number 1) (.func (.number 3) (.var 0))
    let θ : Subst := ⟨[(0, .float), (1, .float), (2, .bool), (3, .number 5)]⟩
    θ.Unifies left right ∧ ty.KindsAgree left ∧ ty.KindsAgree right ∧
      ∃ s, unify left right = .ok s ∧ θ.apply (s.apply ty) = θ.apply ty := by
  intro left right ty θ
  have hθ : θ.Unifies left right := ⟨rfl, by decide⟩
  have hleft : ty.KindsAgree left := ⟨by decide, by decide⟩
  have hright : ty.KindsAgree right := ⟨by decide, by decide⟩
  obtain ⟨s, hs, hfactors⟩ := ((unify_most_general left right).2 ⟨by decide, by decide⟩
    ⟨by decide, by decide⟩ ⟨by decide, by decide⟩).2 θ hθ
  exact ⟨hθ, hleft, hright, s, hs, hfactors ty hleft hright⟩

end Pairs

end Viewlet
