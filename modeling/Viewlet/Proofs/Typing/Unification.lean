import Viewlet.Proofs.Typing.Kinds
import Viewlet.Typing.Unify

namespace Viewlet

namespace Subst

/-- Only variables of the domain are bound and put in, and none of those put in is bound. -/
structure SolvedOn (s : Subst) (domain : TyVar → Prop) : Prop where
  bound : ∀ {v ty}, s.get? v = some ty → domain v
  put : ∀ {v ty w}, s.get? v = some ty → w ∈ ty.vars → domain w ∧ s.get? w = none

theorem solvedOn_empty (domain : TyVar → Prop) : empty.SolvedOn domain where
  bound h := by simp at h
  put h := by simp at h

theorem SolvedOn.mono {s : Subst} {domain domain' : TyVar → Prop} (h : s.SolvedOn domain)
    (hsub : ∀ v, domain v → domain' v) : s.SolvedOn domain' where
  bound hv := hsub _ (h.bound hv)
  put hv hw := ⟨hsub _ (h.put hv hw).1, (h.put hv hw).2⟩

theorem SolvedOn.compose {s t : Subst} {later domain : TyVar → Prop} (hs : s.SolvedOn later)
    (ht : t.SolvedOn domain) (hlater : ∀ v, later v → domain v ∧ t.get? v = none) :
    (s.compose t).SolvedOn domain where
  bound {v ty} hv := by
    rw [get?_compose] at hv
    cases htv : t.get? v with
    | none =>
        rw [htv] at hv
        exact (hlater v (hs.bound hv)).1
    | some image => exact ht.bound htv
  put {v ty w} hv hw := by
    rw [get?_compose_eq_none]
    rw [get?_compose] at hv
    cases htv : t.get? v with
    | none =>
        rw [htv] at hv
        obtain ⟨hdomain, hunbound⟩ := hs.put hv hw
        exact ⟨(hlater w hdomain).1, hunbound, (hlater w hdomain).2⟩
    | some image =>
        simp only [htv, Option.some.injEq] at hv
        subst hv
        rcases mem_vars_apply.mp hw with ⟨hw, hunbound⟩ | ⟨u, hu, image', himage, hw⟩
        · exact ⟨(ht.put htv hw).1, hunbound, (ht.put htv hw).2⟩
        · obtain ⟨hdomain, hunbound⟩ := hs.put himage hw
          exact ⟨(hlater w hdomain).1, hunbound, (hlater w hdomain).2⟩

theorem apply_single_same {κ : Kinding} {v : TyVar} {ty : Ty} :
    (single v ty).apply (κ.leaf v) = ty := by
  simp [Kinding.apply_leaf]

theorem apply_single_of_notMem {v : TyVar} {ty target : Ty} (h : v ∉ target.vars) :
    (single v ty).apply target = target := by
  refine apply_eq_self fun w hw => ?_
  have hne : w ≠ v := fun heq => h (heq ▸ hw)
  simp [hne]

theorem apply_apply_single {θ : Subst} {κ : Kinding} {v : TyVar} {ty target : Ty}
    (heq : θ.apply (κ.leaf v) = θ.apply ty) (htarget : target.HasKinds κ) :
    θ.apply ((single v ty).apply target) = θ.apply target := by
  rw [← apply_compose]
  refine htarget.apply_congr fun w _ => ?_
  rw [apply_compose]
  by_cases hw : w = v
  · subst hw
    rw [apply_single_same, heq]
  · rw [apply_single_of_notMem (by simpa using Ne.symm hw)]

theorem within_single {κ : Kinding} {v : TyVar} {ty : Ty} (hty : ty.HasKinds κ)
    (hnumeric : κ v = true → ty.isNumeric = true) : (single v ty).Within κ := by
  intro w image h
  by_cases hw : w = v
  · subst hw
    simp only [get?_single, if_true, Option.some.injEq] at h
    exact h ▸ ⟨hty, hnumeric⟩
  · simp [hw] at h

theorem solvedOn_single {domain : TyVar → Prop} {v : TyVar} {ty : Ty} (hv : domain v)
    (hty : ∀ w ∈ ty.vars, domain w) (hoccurs : v ∉ ty.vars) :
    (single v ty).SolvedOn domain where
  bound {w image} h := by
    by_cases hw : w = v
    · exact hw ▸ hv
    · simp [hw] at h
  put {w image x} h hx := by
    by_cases hw : w = v
    · simp only [hw, get?_single, if_true, Option.some.injEq] at h
      subst h
      have hne : x ≠ v := fun heq => hoccurs (heq ▸ hx)
      exact ⟨hty x hx, by simp [hne]⟩
    · simp [hw] at h

/-- The substitution makes the sides of every equation agree. -/
def Solves (s : Subst) (equations : Equations) : Prop :=
  ∀ equation ∈ equations, s.apply equation.1 = s.apply equation.2

theorem solves_cons {s : Subst} {left right : Ty} {rest : Equations} :
    s.Solves ((left, right) :: rest) ↔ s.apply left = s.apply right ∧ s.Solves rest := by
  simp [Solves]

theorem solves_subst {s t : Subst} {equations : Equations} :
    s.Solves (equations.subst t) ↔ (s.compose t).Solves equations := by
  simp only [Solves, Equations.subst, List.forall_mem_map, apply_compose]

end Subst

namespace Equations

/-- Both sides of every equation obey the kinding. -/
def HasKinds (equations : Equations) (κ : Kinding) : Prop :=
  ∀ equation ∈ equations, equation.1.HasKinds κ ∧ equation.2.HasKinds κ

theorem hasKinds_cons {κ : Kinding} {left right : Ty} {rest : Equations} :
    HasKinds ((left, right) :: rest) κ ↔
      (left.HasKinds κ ∧ right.HasKinds κ) ∧ HasKinds rest κ := by
  simp [HasKinds]

theorem HasKinds.subst {κ : Kinding} {equations : Equations} {s : Subst}
    (h : equations.HasKinds κ) (hs : s.Within κ) : (equations.subst s).HasKinds κ := by
  intro equation hmem
  obtain ⟨source, hsource, rfl⟩ := List.mem_map.mp hmem
  exact ⟨hs.hasKinds_apply (h source hsource).1, hs.hasKinds_apply (h source hsource).2⟩

end Equations

namespace Ty

theorem eq_of_equate_same {left right : Ty} (h : left.equate right = .same) : left = right := by
  cases left <;> cases right <;> simp only [equate] at h <;> (try split at h) <;> simp_all

theorem exists_leaf_of_equate_bind {left right ty : Ty} {v : TyVar}
    (h : left.equate right = .bind v ty) :
    ∃ leaf, (leaf = .var v ∨ leaf = .number v ∧ ty.isNumeric = true) ∧
      ((left = leaf ∧ right = ty) ∨ (right = leaf ∧ left = ty)) := by
  cases left <;> cases right <;> simp only [equate] at h <;> (try split at h) <;>
    simp only [Solution.bind.injEq, reduceCtorEq] at h <;> obtain ⟨rfl, rfl⟩ := h <;>
    simp [isNumeric]

theorem sides_of_equate_bind {κ : Kinding} {left right ty : Ty} {v : TyVar}
    (h : left.equate right = .bind v ty) (hleft : left.HasKinds κ) (hright : right.HasKinds κ) :
    ((left = κ.leaf v ∧ right = ty) ∨ (right = κ.leaf v ∧ left = ty)) ∧
      (κ v = true → ty.isNumeric = true) := by
  obtain ⟨leaf, hleaf, hsides⟩ := exists_leaf_of_equate_bind h
  have hkinds : leaf.HasKinds κ := by
    rcases hsides with ⟨rfl, -⟩ | ⟨rfl, -⟩
    · exact hleft
    · exact hright
  rcases hleaf with rfl | ⟨rfl, hnumeric⟩
  · rw [Kinding.leaf_of_plain hkinds]
    refine ⟨hsides, fun hv => ?_⟩
    rw [show κ v = false from hkinds] at hv
    simp at hv
  · rw [Kinding.leaf_of_numeric hkinds]
    exact ⟨hsides, fun _ => hnumeric⟩

theorem equate_leaf_self {κ : Kinding} (v : TyVar) :
    (κ.leaf v).equate (κ.leaf v) = .same := by
  rw [Kinding.leaf]
  split <;> simp [equate]

theorem within_single_of_equate_bind {κ : Kinding} {left right ty : Ty} {v : TyVar}
    (h : left.equate right = .bind v ty) (hleft : left.HasKinds κ) (hright : right.HasKinds κ) :
    (Subst.single v ty).Within κ := by
  obtain ⟨hsides, hnumeric⟩ := sides_of_equate_bind h hleft hright
  rcases hsides with ⟨-, rfl⟩ | ⟨-, rfl⟩
  · exact Subst.within_single hright hnumeric
  · exact Subst.within_single hleft hnumeric

theorem apply_single_eq_of_equate_bind {left right ty : Ty} {v : TyVar}
    (h : left.equate right = .bind v ty) (hoccurs : v ∉ ty.vars) :
    (Subst.single v ty).apply left = (Subst.single v ty).apply right := by
  obtain ⟨leaf, hleaf, hsides⟩ := exists_leaf_of_equate_bind h
  have happly : (Subst.single v ty).apply leaf = ty := by
    rcases hleaf with rfl | ⟨rfl, -⟩ <;> simp [Subst.apply]
  rcases hsides with ⟨rfl, rfl⟩ | ⟨rfl, rfl⟩
  · rw [happly, Subst.apply_single_of_notMem hoccurs]
  · rw [happly, Subst.apply_single_of_notMem hoccurs]

theorem apply_ne_of_equate_clash {κ : Kinding} {left right : Ty} {θ : Subst}
    (h : left.equate right = .clash) (hleft : left.HasKinds κ) (hright : right.HasKinds κ)
    (hθ : θ.Respects κ) : θ.apply left ≠ θ.apply right := by
  intro heq
  have hnumeric : ∀ v, κ v = true → (θ.apply (.number v)).isNumeric = true := hθ
  cases left with
  | var v => cases right <;> simp [equate] at h; split at h <;> simp at h
  | number v =>
      have hv := hnumeric v hleft
      cases right with
      | var w => simp [equate] at h
      | number w => simp only [equate] at h; split at h <;> simp at h
      | bool => rw [heq] at hv; simp [Subst.apply, isNumeric] at hv
      | float => simp [equate] at h
      | func parameter result => rw [heq] at hv; simp [Subst.apply, isNumeric] at hv
  | bool =>
      cases right with
      | var w => simp [equate] at h
      | number w =>
          have hw := hnumeric w hright
          rw [← heq] at hw
          simp [Subst.apply, isNumeric] at hw
      | bool => simp [equate] at h
      | float => simp [Subst.apply] at heq
      | func parameter result => simp [Subst.apply] at heq
  | float =>
      cases right with
      | var w => simp [equate] at h
      | number w => simp [equate] at h
      | bool => simp [Subst.apply] at heq
      | float => simp [equate] at h
      | func parameter result => simp [Subst.apply] at heq
  | func parameter result =>
      cases right with
      | var w => simp [equate] at h
      | number w =>
          have hw := hnumeric w hright
          rw [← heq] at hw
          simp [Subst.apply, isNumeric] at hw
      | bool => simp [Subst.apply] at heq
      | float => simp [Subst.apply] at heq
      | func parameter' result' => simp [equate] at h

theorem size_apply_leaf_le {κ : Kinding} {θ : Subst} {ty : Ty} {v : TyVar}
    (hty : ty.HasKinds κ) (hv : v ∈ ty.vars) :
    (θ.apply (κ.leaf v)).size ≤ (θ.apply ty).size := by
  induction ty with
  | var w =>
      simp only [vars, List.mem_singleton] at hv
      exact Nat.le_of_eq (by rw [hv, Kinding.leaf_of_plain hty])
  | number w =>
      simp only [vars, List.mem_singleton] at hv
      exact Nat.le_of_eq (by rw [hv, Kinding.leaf_of_numeric hty])
  | bool => simp [vars] at hv
  | float => simp [vars] at hv
  | func parameter result ihp ihr =>
      simp only [Subst.apply, size]
      rcases List.mem_append.mp hv with hv | hv
      · have := ihp hty.1 hv
        omega
      · have := ihr hty.2 hv
        omega

theorem eq_leaf_of_mem_vars {κ : Kinding} {θ : Subst} {ty : Ty} {v : TyVar}
    (hty : ty.HasKinds κ) (hv : v ∈ ty.vars) (heq : θ.apply (κ.leaf v) = θ.apply ty) :
    ty = κ.leaf v := by
  cases ty with
  | var w =>
      simp only [vars, List.mem_singleton] at hv
      rw [hv, Kinding.leaf_of_plain hty]
  | number w =>
      simp only [vars, List.mem_singleton] at hv
      rw [hv, Kinding.leaf_of_numeric hty]
  | bool => simp [vars] at hv
  | float => simp [vars] at hv
  | func parameter result =>
      have hsize := congrArg size heq
      simp only [Subst.apply, size] at hsize
      rcases List.mem_append.mp hv with hv | hv
      · have := size_apply_leaf_le (θ := θ) hty.1 hv
        omega
      · have := size_apply_leaf_le (θ := θ) hty.2 hv
        omega

end Ty

namespace Equations

theorem solves_of_solve {equations : Equations} {s : Subst} (h : equations.solve = .ok s) :
    s.Solves equations := by
  fun_induction solve equations generalizing s with
  | case1 => intro equation hmem; simp at hmem
  | case2 left right rest hequate ih =>
      rw [Subst.solves_cons, Ty.eq_of_equate_same hequate]
      exact ⟨rfl, ih h⟩
  | case3 left right rest v ty hequate hoccurs => simp at h
  | case4 left right rest v ty hequate hoccurs s' hs' ih =>
      simp only [Except.ok.injEq] at h
      subst h
      refine Subst.solves_cons.mpr ⟨?_, Subst.solves_subst.mp (ih hs')⟩
      rw [Subst.apply_compose, Subst.apply_compose,
        Ty.apply_single_eq_of_equate_bind hequate hoccurs]
  | case5 left right rest v ty hequate hoccurs error herror ih => simp at h
  | case6 left right rest parameter parameter' result result' hequate ih =>
      obtain ⟨rfl, rfl⟩ := Ty.eq_func_of_equate_split hequate
      obtain ⟨hparameter, hrest⟩ := Subst.solves_cons.mp (ih h)
      obtain ⟨hresult, hrest⟩ := Subst.solves_cons.mp hrest
      refine Subst.solves_cons.mpr ⟨?_, hrest⟩
      rw [Subst.apply, Subst.apply, hparameter, hresult]
  | case7 left right rest hequate => simp at h

theorem within_of_solve {equations : Equations} {κ : Kinding} {s : Subst}
    (hkinds : equations.HasKinds κ) (h : equations.solve = .ok s) : s.Within κ := by
  fun_induction solve equations generalizing s with
  | case1 =>
      simp only [Except.ok.injEq] at h
      exact h ▸ Subst.within_empty κ
  | case2 left right rest hequate ih => exact ih (hasKinds_cons.mp hkinds).2 h
  | case3 left right rest v ty hequate hoccurs => simp at h
  | case4 left right rest v ty hequate hoccurs s' hs' ih =>
      simp only [Except.ok.injEq] at h
      obtain ⟨⟨hleft, hright⟩, hrest⟩ := hasKinds_cons.mp hkinds
      have hsingle := Ty.within_single_of_equate_bind hequate hleft hright
      exact h ▸ (ih (hrest.subst hsingle) hs').compose hsingle
  | case5 left right rest v ty hequate hoccurs error herror ih => simp at h
  | case6 left right rest parameter parameter' result result' hequate ih =>
      obtain ⟨rfl, rfl⟩ := Ty.eq_func_of_equate_split hequate
      obtain ⟨⟨hleft, hright⟩, hrest⟩ := hasKinds_cons.mp hkinds
      refine ih (hasKinds_cons.mpr ⟨⟨hleft.1, hright.1⟩, hasKinds_cons.mpr ⟨?_, hrest⟩⟩) h
      exact ⟨hleft.2, hright.2⟩
  | case7 left right rest hequate => simp at h

theorem solvedOn_of_solve {equations : Equations} {s : Subst} (h : equations.solve = .ok s) :
    s.SolvedOn (· ∈ equations.vars) := by
  fun_induction solve equations generalizing s with
  | case1 =>
      simp only [Except.ok.injEq] at h
      exact h ▸ Subst.solvedOn_empty _
  | case2 left right rest hequate ih =>
      exact (ih h).mono fun v hv => mem_vars_cons.mpr (.inr hv)
  | case3 left right rest v ty hequate hoccurs => simp at h
  | case4 left right rest v ty hequate hoccurs s' hs' ih =>
      simp only [Except.ok.injEq] at h
      subst h
      have hv : v ∈ vars ((left, right) :: rest) := by
        rcases Ty.side_of_equate_bind hequate with ⟨hv, -⟩ | ⟨hv, -⟩
        · exact mem_vars_cons.mpr (.inl (.inl hv))
        · exact mem_vars_cons.mpr (.inl (.inr hv))
      have hty : ∀ w ∈ ty.vars, w ∈ vars ((left, right) :: rest) := by
        intro w hw
        rcases Ty.side_of_equate_bind hequate with ⟨-, rfl⟩ | ⟨-, rfl⟩
        · exact mem_vars_cons.mpr (.inl (.inr hw))
        · exact mem_vars_cons.mpr (.inl (.inl hw))
      refine (ih hs').compose (Subst.solvedOn_single hv hty hoccurs) fun w hw => ?_
      rcases mem_vars_subst hw with ⟨hw, hne⟩ | hw
      · exact ⟨mem_vars_cons.mpr (.inr hw), by simp [hne]⟩
      · have hne : w ≠ v := fun heq => hoccurs (heq ▸ hw)
        exact ⟨hty w hw, by simp [hne]⟩
  | case5 left right rest v ty hequate hoccurs error herror ih => simp at h
  | case6 left right rest parameter parameter' result result' hequate ih =>
      obtain ⟨rfl, rfl⟩ := Ty.eq_func_of_equate_split hequate
      refine (ih h).mono fun v hv => ?_
      simp only [mem_vars_cons, Ty.vars, List.mem_append] at hv ⊢
      rcases hv with (hv | hv) | (hv | hv) | hv
      · exact .inl (.inl (.inl hv))
      · exact .inl (.inr (.inl hv))
      · exact .inl (.inl (.inr hv))
      · exact .inl (.inr (.inr hv))
      · exact .inr hv
  | case7 left right rest hequate => simp at h

theorem absorbs_of_equate_bind {rest : Equations} {κ : Kinding} {θ : Subst} {left right ty : Ty}
    {v : TyVar} (hkinds : HasKinds ((left, right) :: rest) κ)
    (hsolves : θ.Solves ((left, right) :: rest)) (hequate : left.equate right = .bind v ty) :
    θ.Solves (Equations.subst rest (.single v ty)) ∧
      ∀ target, target.HasKinds κ →
        θ.apply ((Subst.single v ty).apply target) = θ.apply target := by
  obtain ⟨⟨hleft, hright⟩, hrest⟩ := hasKinds_cons.mp hkinds
  obtain ⟨heq, hsolvesRest⟩ := Subst.solves_cons.mp hsolves
  have hleaf : θ.apply (κ.leaf v) = θ.apply ty := by
    rcases (Ty.sides_of_equate_bind hequate hleft hright).1 with ⟨rfl, rfl⟩ | ⟨rfl, rfl⟩
    · exact heq
    · exact heq.symm
  refine ⟨Subst.solves_subst.mpr fun equation hmem => ?_,
    fun target htarget => Subst.apply_apply_single hleaf htarget⟩
  obtain ⟨hfirst, hsecond⟩ := hrest equation hmem
  rw [Subst.apply_compose, Subst.apply_compose, Subst.apply_apply_single hleaf hfirst,
    Subst.apply_apply_single hleaf hsecond]
  exact hsolvesRest equation hmem

/-- Equations that have a solution in accordance with the kinds are solved, and that solution
factors through the one that is found. -/
theorem exists_solve {equations : Equations} {κ : Kinding} {θ : Subst}
    (hkinds : equations.HasKinds κ) (hθ : θ.Respects κ) (hsolves : θ.Solves equations) :
    ∃ s, equations.solve = .ok s ∧ ∀ ty, ty.HasKinds κ → θ.apply (s.apply ty) = θ.apply ty := by
  fun_induction solve equations with
  | case1 => exact ⟨.empty, rfl, fun ty _ => by rw [Subst.apply_empty]⟩
  | case2 left right rest hequate ih =>
      exact ih (hasKinds_cons.mp hkinds).2 (Subst.solves_cons.mp hsolves).2
  | case3 left right rest v ty hequate hoccurs =>
      obtain ⟨⟨hleft, hright⟩, -⟩ := hasKinds_cons.mp hkinds
      have heq := (Subst.solves_cons.mp hsolves).1
      -- The type would be the variable itself, and then the equation asks for nothing.
      exfalso
      rcases Ty.sides_of_equate_bind hequate hleft hright with ⟨⟨rfl, rfl⟩ | ⟨rfl, rfl⟩, -⟩
      · have hleaf := Ty.eq_leaf_of_mem_vars hright hoccurs heq
        rw [hleaf, Ty.equate_leaf_self] at hequate
        simp at hequate
      · have hleaf := Ty.eq_leaf_of_mem_vars hleft hoccurs heq.symm
        rw [hleaf, Ty.equate_leaf_self] at hequate
        simp at hequate
  | case4 left right rest v ty hequate hoccurs s hs ih =>
      obtain ⟨⟨hleft, hright⟩, hrest⟩ := hasKinds_cons.mp hkinds
      have hsingle := Ty.within_single_of_equate_bind hequate hleft hright
      obtain ⟨hsolvesRest, habsorbs⟩ := absorbs_of_equate_bind hkinds hsolves hequate
      obtain ⟨s', hs', hfactors⟩ := ih (hrest.subst hsingle) hsolvesRest
      rw [hs, Except.ok.injEq] at hs'
      subst hs'
      refine ⟨_, rfl, fun target htarget => ?_⟩
      rw [Subst.apply_compose, hfactors _ (hsingle.hasKinds_apply htarget),
        habsorbs target htarget]
  | case5 left right rest v ty hequate hoccurs error herror ih =>
      obtain ⟨⟨hleft, hright⟩, hrest⟩ := hasKinds_cons.mp hkinds
      have hsingle := Ty.within_single_of_equate_bind hequate hleft hright
      obtain ⟨hsolvesRest, -⟩ := absorbs_of_equate_bind hkinds hsolves hequate
      obtain ⟨s', hs', -⟩ := ih (hrest.subst hsingle) hsolvesRest
      simp [herror] at hs'
  | case6 left right rest parameter parameter' result result' hequate ih =>
      obtain ⟨rfl, rfl⟩ := Ty.eq_func_of_equate_split hequate
      obtain ⟨⟨hleft, hright⟩, hrest⟩ := hasKinds_cons.mp hkinds
      obtain ⟨heq, hsolvesRest⟩ := Subst.solves_cons.mp hsolves
      simp only [Subst.apply, Ty.func.injEq] at heq
      refine ih (hasKinds_cons.mpr ⟨⟨hleft.1, hright.1⟩, hasKinds_cons.mpr ⟨?_, hrest⟩⟩)
        (Subst.solves_cons.mpr ⟨heq.1, Subst.solves_cons.mpr ⟨heq.2, hsolvesRest⟩⟩)
      exact ⟨hleft.2, hright.2⟩
  | case7 left right rest hequate =>
      obtain ⟨⟨hleft, hright⟩, -⟩ := hasKinds_cons.mp hkinds
      exact absurd (Subst.solves_cons.mp hsolves).1
        (Ty.apply_ne_of_equate_clash hequate hleft hright hθ)

end Equations

theorem apply_eq_of_unify {left right : Ty} {s : Subst} (h : unify left right = .ok s) :
    s.apply left = s.apply right :=
  (Subst.solves_cons.mp (Equations.solves_of_solve h)).1

theorem within_of_unify {left right : Ty} {κ : Kinding} {s : Subst} (hleft : left.HasKinds κ)
    (hright : right.HasKinds κ) (h : unify left right = .ok s) : s.Within κ :=
  Equations.within_of_solve
    (Equations.hasKinds_cons.mpr ⟨⟨hleft, hright⟩, fun equation hmem => by simp at hmem⟩) h

theorem solvedOn_of_unify {left right : Ty} {s : Subst} (h : unify left right = .ok s) :
    s.SolvedOn fun v => v ∈ left.vars ∨ v ∈ right.vars :=
  (Equations.solvedOn_of_solve h).mono fun v hv => by simpa [Equations.vars] using hv

/-- Types that some substitution makes agree in accordance with the kinds are unified, and
that substitution factors through the unifier. -/
theorem exists_unify {left right : Ty} {κ : Kinding} {θ : Subst} (hleft : left.HasKinds κ)
    (hright : right.HasKinds κ) (hθ : θ.Respects κ) (heq : θ.apply left = θ.apply right) :
    ∃ s, unify left right = .ok s ∧
      ∀ ty, ty.HasKinds κ → θ.apply (s.apply ty) = θ.apply ty :=
  Equations.exists_solve
    (Equations.hasKinds_cons.mpr ⟨⟨hleft, hright⟩, fun equation hmem => by simp at hmem⟩) hθ
    (Subst.solves_cons.mpr ⟨heq, fun equation hmem => by simp at hmem⟩)

end Viewlet
