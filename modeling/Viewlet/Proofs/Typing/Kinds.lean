import Viewlet.Proofs.Association
import Viewlet.Typing.Subst

namespace Viewlet

namespace Subst

@[simp] theorem get?_empty (v : TyVar) : empty.get? v = none := rfl

theorem apply_func (s : Subst) (parameter result : Ty) :
    s.apply (.func parameter result) = .func (s.apply parameter) (s.apply result) := rfl

theorem binds_eq_isSome (s : Subst) (v : TyVar) : s.binds v = (s.get? v).isSome := by
  obtain ⟨bindings⟩ := s
  simp only [binds, get?]
  induction bindings with
  | nil => rfl
  | cons binding rest ih =>
      obtain ⟨w, ty⟩ := binding
      by_cases hw : v = w
      · subst hw
        simp
      · have hv : (v == w) = false := by simpa using hw
        have hw' : (w == v) = false := by simpa using Ne.symm hw
        simpa [List.lookup_cons, hv, hw'] using ih

theorem get?_compose (s t : Subst) (v : TyVar) :
    (s.compose t).get? v = match t.get? v with
      | some ty => some (s.apply ty)
      | none => s.get? v := by
  have hlookup : (s.compose t).get? v =
      ((t.get? v).map s.apply).or (if !t.binds v then s.get? v else none) := by
    rw [get?, compose, List.lookup_append, lookup_map, lookup_filter fun w => !t.binds w]
    rfl
  rw [hlookup, binds_eq_isSome]
  cases t.get? v <;> simp

@[simp] theorem apply_compose (s t : Subst) (ty : Ty) :
    (s.compose t).apply ty = s.apply (t.apply ty) := by
  induction ty with
  | var v =>
      simp only [apply, get?_compose]
      cases t.get? v <;> rfl
  | number v =>
      simp only [apply, get?_compose]
      cases t.get? v <;> rfl
  | bool => rfl
  | float => rfl
  | func parameter result ihp ihr => simp only [apply, ihp, ihr]

@[simp] theorem empty_compose (s : Subst) : empty.compose s = s := by
  obtain ⟨bindings⟩ := s
  have hmap : bindings.map (fun binding => (binding.1, empty.apply binding.2)) = bindings := by
    simp
  rw [compose, hmap]
  simp [empty]

@[simp] theorem compose_empty (s : Subst) : s.compose empty = s := by
  obtain ⟨bindings⟩ := s
  simp [compose, empty, binds]

theorem binds_compose (s t : Subst) (v : TyVar) :
    (s.compose t).binds v = (t.binds v || s.binds v) := by
  rw [binds_eq_isSome, binds_eq_isSome, binds_eq_isSome, get?_compose]
  cases t.get? v <;> simp

theorem compose_assoc (s t u : Subst) : (s.compose t).compose u = s.compose (t.compose u) := by
  have hbindings : ∀ s t : Subst, (s.compose t).bindings =
      t.bindings.map (fun binding => (binding.1, s.apply binding.2)) ++
        s.bindings.filter fun binding => !t.binds binding.1 := fun _ _ => rfl
  refine congrArg Subst.mk ?_
  simp only [hbindings, apply_compose, binds_compose, List.filter_append, List.filter_filter,
    List.filter_map, Bool.not_or, List.map_append, List.map_map, List.append_assoc]
  rfl

theorem get?_compose_eq_none {s t : Subst} {v : TyVar} :
    (s.compose t).get? v = none ↔ s.get? v = none ∧ t.get? v = none := by
  rw [get?_compose]
  cases t.get? v <;> simp

theorem apply_congr {s t : Subst} {ty : Ty} (h : ∀ v ∈ ty.vars, s.get? v = t.get? v) :
    s.apply ty = t.apply ty := by
  induction ty with
  | var v => simp only [apply, h v (by simp [Ty.vars])]
  | number v => simp only [apply, h v (by simp [Ty.vars])]
  | bool => rfl
  | float => rfl
  | func parameter result ihp ihr =>
      simp only [apply]
      rw [ihp fun v hv => h v (by simp [Ty.vars, hv]), ihr fun v hv => h v (by simp [Ty.vars, hv])]

theorem apply_eq_self {s : Subst} {ty : Ty} (h : ∀ v ∈ ty.vars, s.get? v = none) :
    s.apply ty = ty := by
  rw [apply_congr (t := empty) h, apply_empty]

theorem mem_vars_image {s : Subst} {leaf : Ty} {v x : TyVar} (hleaf : leaf.vars = [v]) :
    x ∈ ((s.get? v).getD leaf).vars ↔ (x ∈ leaf.vars ∧ s.get? x = none) ∨
      ∃ w ∈ leaf.vars, ∃ image, s.get? w = some image ∧ x ∈ image.vars := by
  simp only [hleaf, List.mem_singleton, exists_eq_left]
  cases hv : s.get? v with
  | none =>
      simp only [Option.getD_none, hleaf, List.mem_singleton]
      constructor
      · rintro rfl
        exact .inl ⟨rfl, hv⟩
      · rintro (⟨rfl, -⟩ | ⟨image, hnone, -⟩)
        · rfl
        · simp at hnone
  | some image =>
      simp only [Option.getD_some, Option.some.injEq, exists_eq_left']
      constructor
      · exact .inr
      · rintro (⟨rfl, hnone⟩ | hx)
        · simp [hv] at hnone
        · exact hx

theorem mem_vars_apply {s : Subst} {ty : Ty} {x : TyVar} :
    x ∈ (s.apply ty).vars ↔ (x ∈ ty.vars ∧ s.get? x = none) ∨
      ∃ v ∈ ty.vars, ∃ image, s.get? v = some image ∧ x ∈ image.vars := by
  induction ty with
  | var v => exact mem_vars_image rfl
  | number v => exact mem_vars_image rfl
  | bool => simp [apply, Ty.vars]
  | float => simp [apply, Ty.vars]
  | func parameter result ihp ihr =>
      simp only [apply, Ty.vars, List.mem_append, ihp, ihr]
      constructor
      · rintro ((⟨hx, hnone⟩ | ⟨v, hv, h⟩) | (⟨hx, hnone⟩ | ⟨v, hv, h⟩))
        · exact .inl ⟨.inl hx, hnone⟩
        · exact .inr ⟨v, .inl hv, h⟩
        · exact .inl ⟨.inr hx, hnone⟩
        · exact .inr ⟨v, .inr hv, h⟩
      · rintro (⟨hx | hx, hnone⟩ | ⟨v, hv | hv, h⟩)
        · exact .inl (.inl ⟨hx, hnone⟩)
        · exact .inr (.inl ⟨hx, hnone⟩)
        · exact .inl (.inr ⟨v, hv, h⟩)
        · exact .inr (.inr ⟨v, hv, h⟩)

end Subst

/-- Says of each type variable whether it is numeric. -/
abbrev Kinding : Type := TyVar → Bool

/-- The type that consists of a variable at its kind. -/
def Kinding.leaf (κ : Kinding) (v : TyVar) : Ty :=
  if κ v then .number v else .var v

/-- The kinding that gives one more variable a kind. -/
def Kinding.update (κ : Kinding) (v : TyVar) (numeric : Bool) : Kinding :=
  fun w => if w = v then numeric else κ w

namespace Ty

/-- Whether a type is numeric. -/
def isNumeric : Ty → Bool
  | .number _ | .float => true
  | _ => false

/-- Each variable stands in the type at its kind. -/
def HasKinds (κ : Kinding) : Ty → Prop
  | .var v => κ v = false
  | .number v => κ v = true
  | .bool => True
  | .float => True
  | .func parameter result => parameter.HasKinds κ ∧ result.HasKinds κ

end Ty

namespace Kinding

@[simp] theorem vars_leaf (κ : Kinding) (v : TyVar) : (κ.leaf v).vars = [v] := by
  rw [leaf]
  split <;> rfl

theorem apply_leaf (κ : Kinding) (s : Subst) (v : TyVar) :
    s.apply (κ.leaf v) = (s.get? v).getD (κ.leaf v) := by
  rw [leaf]
  split <;> rfl

theorem hasKinds_leaf (κ : Kinding) (v : TyVar) : (κ.leaf v).HasKinds κ := by
  rw [leaf]
  split
  · next h => exact h
  · next h => simpa [Ty.HasKinds] using h

theorem leaf_of_numeric {κ : Kinding} {v : TyVar} (h : κ v = true) :
    κ.leaf v = .number v := by
  simp [leaf, h]

theorem leaf_of_plain {κ : Kinding} {v : TyVar} (h : κ v = false) :
    κ.leaf v = .var v := by
  simp [leaf, h]

@[simp] theorem update_same (κ : Kinding) (v : TyVar) (numeric : Bool) :
    κ.update v numeric v = numeric := by
  simp [update]

theorem update_of_ne {κ : Kinding} {v w : TyVar} {numeric : Bool} (h : w ≠ v) :
    κ.update v numeric w = κ w := by
  simp [update, h]

end Kinding

namespace Ty

theorem HasKinds.congr {κ κ' : Kinding} {ty : Ty} (h : ty.HasKinds κ)
    (hagree : ∀ v ∈ ty.vars, κ' v = κ v) : ty.HasKinds κ' := by
  induction ty with
  | var v => exact (hagree v (by simp [vars])).trans h
  | number v => exact (hagree v (by simp [vars])).trans h
  | bool => trivial
  | float => trivial
  | func parameter result ihp ihr =>
      exact ⟨ihp h.1 fun v hv => hagree v (by simp [vars, hv]),
        ihr h.2 fun v hv => hagree v (by simp [vars, hv])⟩

theorem HasKinds.apply_congr {κ : Kinding} {s t : Subst} {ty : Ty} (hty : ty.HasKinds κ)
    (h : ∀ v ∈ ty.vars, s.apply (κ.leaf v) = t.apply (κ.leaf v)) :
    s.apply ty = t.apply ty := by
  induction ty with
  | var v =>
      have hv := h v (by simp [vars])
      rwa [Kinding.leaf_of_plain hty] at hv
  | number v =>
      have hv := h v (by simp [vars])
      rwa [Kinding.leaf_of_numeric hty] at hv
  | bool => rfl
  | float => rfl
  | func parameter result ihp ihr =>
      simp only [Subst.apply]
      rw [ihp hty.1 fun v hv => h v (by simp [vars, hv]),
        ihr hty.2 fun v hv => h v (by simp [vars, hv])]

theorem HasKinds.apply_of_leaves {κ κ' : Kinding} {s : Subst} {ty : Ty} (hty : ty.HasKinds κ)
    (h : ∀ v ∈ ty.vars, (s.apply (κ.leaf v)).HasKinds κ') : (s.apply ty).HasKinds κ' := by
  induction ty with
  | var v =>
      have hv := h v (by simp [vars])
      rwa [Kinding.leaf_of_plain hty] at hv
  | number v =>
      have hv := h v (by simp [vars])
      rwa [Kinding.leaf_of_numeric hty] at hv
  | bool => trivial
  | float => trivial
  | func parameter result ihp ihr =>
      exact ⟨ihp hty.1 fun v hv => h v (by simp [vars, hv]),
        ihr hty.2 fun v hv => h v (by simp [vars, hv])⟩

theorem mem_numericVars_of_hasKinds {κ : Kinding} {ty : Ty} {v : TyVar} (hty : ty.HasKinds κ) :
    v ∈ ty.numericVars ↔ v ∈ ty.vars ∧ κ v = true := by
  induction ty with
  | var w =>
      simp only [numericVars, vars, List.not_mem_nil, List.mem_singleton, false_iff, not_and]
      rintro rfl hv
      simp [HasKinds, hv] at hty
  | number w =>
      simp only [numericVars, vars, List.mem_singleton]
      constructor
      · rintro rfl
        exact ⟨rfl, hty⟩
      · exact And.left
  | bool => simp [numericVars, vars]
  | float => simp [numericVars, vars]
  | func parameter result ihp ihr =>
      simp only [numericVars, vars, List.mem_append, ihp hty.1, ihr hty.2]
      constructor
      · rintro (⟨hv, hnumeric⟩ | ⟨hv, hnumeric⟩)
        · exact ⟨.inl hv, hnumeric⟩
        · exact ⟨.inr hv, hnumeric⟩
      · rintro ⟨hv | hv, hnumeric⟩
        · exact .inl ⟨hv, hnumeric⟩
        · exact .inr ⟨hv, hnumeric⟩

end Ty

namespace Subst

/-- Numeric variables are sent to numeric types, whatever the variables of these are. -/
def Respects (s : Subst) (κ : Kinding) : Prop :=
  ∀ v, κ v = true → (s.apply (.number v)).isNumeric = true

theorem Respects.mono {s : Subst} {κ κ' : Kinding} (h : s.Respects κ')
    (hle : ∀ v, κ v = true → κ' v = true) : s.Respects κ :=
  fun v hv => h v (hle v hv)

/-- What is bound obeys the kinding, and is numeric where the variable is. -/
def Within (s : Subst) (κ : Kinding) : Prop :=
  ∀ v ty, s.get? v = some ty → ty.HasKinds κ ∧ (κ v = true → ty.isNumeric = true)

theorem within_empty (κ : Kinding) : empty.Within κ := by
  intro v ty h
  simp at h

theorem respects_empty (κ : Kinding) : empty.Respects κ := by
  intro v _
  simp [Ty.isNumeric]

theorem Within.respects {s : Subst} {κ : Kinding} (h : s.Within κ) : s.Respects κ := by
  intro v hv
  rw [apply]
  cases hs : s.get? v with
  | none => rfl
  | some ty => exact (h v ty hs).2 hv

theorem Within.hasKinds_apply {s : Subst} {κ : Kinding} {ty : Ty} (h : s.Within κ)
    (hty : ty.HasKinds κ) : (s.apply ty).HasKinds κ := by
  refine hty.apply_of_leaves fun v _ => ?_
  rw [Kinding.apply_leaf]
  cases hs : s.get? v with
  | none => exact Kinding.hasKinds_leaf κ v
  | some image => exact (h v image hs).1

theorem Respects.isNumeric_apply {s : Subst} {κ : Kinding} {ty : Ty} (h : s.Respects κ)
    (hty : ty.HasKinds κ) (hnumeric : ty.isNumeric = true) :
    (s.apply ty).isNumeric = true := by
  cases ty with
  | number v => exact h v hty
  | float => rfl
  | var v => simp [Ty.isNumeric] at hnumeric
  | bool => simp [Ty.isNumeric] at hnumeric
  | func parameter result => simp [Ty.isNumeric] at hnumeric

theorem Respects.compose {s t : Subst} {κ : Kinding} (hs : s.Respects κ) (ht : t.Within κ) :
    (s.compose t).Respects κ := by
  intro v hv
  rw [apply_compose]
  exact hs.isNumeric_apply (ht.hasKinds_apply hv) (ht.respects v hv)

theorem Within.compose {s t : Subst} {κ : Kinding} (hs : s.Within κ) (ht : t.Within κ) :
    (s.compose t).Within κ := by
  intro v ty h
  rw [get?_compose] at h
  cases htv : t.get? v with
  | none =>
      rw [htv] at h
      exact hs v ty h
  | some image =>
      simp only [htv, Option.some.injEq] at h
      subst h
      obtain ⟨hkinds, hnumeric⟩ := ht v image htv
      exact ⟨hs.hasKinds_apply hkinds,
        fun hv => hs.respects.isNumeric_apply hkinds (hnumeric hv)⟩

end Subst

end Viewlet
