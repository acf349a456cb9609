import Viewlet.Proofs.Typing.Unification

/-!
The recursion behind unification. Functions are unified by their parameters first, and by their
results under what the parameters gave. That can make the results larger than the functions were,
but it ends: either the parameters bound a variable, which is then gone from the results, or they
bound none and the results are parts of the functions. The same elimination of bound variables
makes every unifier idempotent.
-/

namespace Viewlet

/-- Unifies two types, given the unification of other types. -/
def Ty.unifyBy (recur : Ty → Ty → Except UnifyError Subst) (left right : Ty) :
    Except UnifyError Subst :=
  match left.equate right with
  | .same => .ok .empty
  | .bind v ty => if v ∈ ty.vars then .error (.occurs v ty) else .ok (.single v ty)
  | .split parameter parameter' result result' => do
      let s ← recur parameter parameter'
      let t ← recur (s.apply result) (s.apply result')
      return t.compose s
  | .clash => .error (.mismatch left right)

/-- The first pair of types is unified in the course of the second. -/
inductive UnifyCall : Ty × Ty → Ty × Ty → Prop where
  | parameters {parameter parameter' result result'} :
      UnifyCall (parameter, parameter') (.func parameter result, .func parameter' result')
  | results {parameter parameter' result result' s} : unify parameter parameter' = .ok s →
      UnifyCall (s.apply result, s.apply result')
        (.func parameter result, .func parameter' result')

namespace Equations

variable {left right ty : Ty} {rest : Equations} {v : TyVar}

theorem mem_vars_pair {x : TyVar} : x ∈ vars [(left, right)] ↔ x ∈ left.vars ∨ x ∈ right.vars := by
  simp [vars]

theorem subst_empty (equations : Equations) : equations.subst .empty = equations := by
  simp [subst]

theorem subst_append (first second : Equations) (s : Subst) :
    (first ++ second).subst s = first.subst s ++ second.subst s :=
  List.map_append

theorem subst_subst (equations : Equations) (s t : Subst) :
    (equations.subst t).subst s = equations.subst (s.compose t) := by
  simp [subst]

theorem solve_nil : solve [] = .ok .empty := by
  rw [solve]

theorem solve_of_same (h : left.equate right = .same) :
    solve ((left, right) :: rest) = rest.solve := by
  rw [solve]
  split <;> simp_all

theorem solve_of_occurs (h : left.equate right = .bind v ty) (hv : v ∈ ty.vars) :
    solve ((left, right) :: rest) = .error (.occurs v ty) := by
  rw [solve]
  split <;> simp_all

theorem solve_of_bind (h : left.equate right = .bind v ty) (hv : v ∉ ty.vars) :
    solve ((left, right) :: rest) =
      (rest.subst (.single v ty)).solve.map (·.compose (.single v ty)) := by
  rw [solve]
  split <;> simp_all
  split <;> simp_all [Except.map]

theorem solve_of_split {parameter parameter' result result' : Ty}
    (h : left.equate right = .split parameter parameter' result result') :
    solve ((left, right) :: rest) =
      solve ((parameter, parameter') :: (result, result') :: rest) := by
  rw [solve]
  split <;> simp_all

theorem solve_of_clash (h : left.equate right = .clash) :
    solve ((left, right) :: rest) = .error (.mismatch left right) := by
  rw [solve]
  split <;> simp_all

theorem solve_append (first second : Equations) :
    (first ++ second).solve = (do
      let s ← first.solve
      let t ← (second.subst s).solve
      return t.compose s) := by
  fun_induction solve first generalizing second with
  | case1 =>
      change second.solve = (do
        let t ← (second.subst .empty).solve
        return t.compose .empty)
      rw [subst_empty]
      cases second.solve with
      | error error => rfl
      | ok t => exact congrArg Except.ok t.compose_empty.symm
  | case2 left right rest hequate ih =>
      rw [List.cons_append, solve_of_same hequate, ih]
  | case3 left right rest v ty hequate hoccurs =>
      rw [List.cons_append, solve_of_occurs hequate hoccurs]
      rfl
  | case4 left right rest v ty hequate hoccurs s hs ih =>
      rw [List.cons_append, solve_of_bind hequate hoccurs, subst_append, ih, hs]
      change Except.map _ (do
        let t ← ((second.subst (.single v ty)).subst s).solve
        return t.compose s) = (do
        let t ← (second.subst (s.compose (.single v ty))).solve
        return t.compose (s.compose (.single v ty)))
      rw [subst_subst]
      cases (second.subst (s.compose (.single v ty))).solve with
      | error error => rfl
      | ok t => exact congrArg Except.ok (t.compose_assoc s _)
  | case5 left right rest v ty hequate hoccurs error herror ih =>
      rw [List.cons_append, solve_of_bind hequate hoccurs, subst_append, ih, herror]
      rfl
  | case6 left right rest parameter parameter' result result' hequate ih =>
      rw [List.cons_append, solve_of_split hequate]
      exact ih second
  | case7 left right rest hequate =>
      rw [List.cons_append, solve_of_clash hequate]
      rfl

end Equations

section Recursion

variable {left right : Ty}

/-- Unification unifies the parts of functions one after the other. -/
theorem unify_eq_unifyBy (left right : Ty) : unify left right = Ty.unifyBy unify left right := by
  rw [Ty.unifyBy]
  split
  · next hequate => exact (Equations.solve_of_same hequate).trans Equations.solve_nil
  · next v ty hequate =>
      split
      · next hv => exact Equations.solve_of_occurs hequate hv
      · next hv =>
          refine (Equations.solve_of_bind hequate hv).trans ?_
          rw [show Equations.subst [] (.single v ty) = [] from rfl, Equations.solve_nil]
          exact congrArg Except.ok (Subst.empty_compose _)
  · next parameter parameter' result result' hequate =>
      exact (Equations.solve_of_split hequate).trans
        (Equations.solve_append [(parameter, parameter')] [(result, result')])
  · next hequate => exact Equations.solve_of_clash hequate

theorem unify_func {parameter parameter' result result' : Ty} {s t : Subst}
    (hparameters : unify parameter parameter' = .ok s)
    (hresults : unify (s.apply result) (s.apply result') = .ok t) :
    unify (.func parameter result) (.func parameter' result') = .ok (t.compose s) := by
  rw [unify_eq_unifyBy]
  change (do
    let s ← unify parameter parameter'
    let t ← unify (s.apply result) (s.apply result')
    return t.compose s) = _
  rw [hparameters]
  change (do
    let t ← unify (s.apply result) (s.apply result')
    return t.compose s) = _
  rw [hresults]
  rfl

theorem Ty.unifyBy_congr {f : Ty → Ty → Except UnifyError Subst}
    (h : ∀ callee, UnifyCall callee (left, right) → f callee.1 callee.2 = unify callee.1 callee.2) :
    Ty.unifyBy f left right = Ty.unifyBy unify left right := by
  rw [Ty.unifyBy, Ty.unifyBy]
  cases hequate : left.equate right with
  | same => rfl
  | bind v ty => rfl
  | clash => rfl
  | split parameter parameter' result result' =>
      obtain ⟨rfl, rfl⟩ := Ty.eq_func_of_equate_split hequate
      have hparameters : f parameter parameter' = unify parameter parameter' := h _ .parameters
      dsimp only
      rw [hparameters]
      cases hs : unify parameter parameter' with
      | error error => rfl
      | ok s =>
          have hresults : f (s.apply result) (s.apply result') = _ := h _ (.results hs)
          change (do
            let t ← f (s.apply result) (s.apply result')
            return t.compose s) = _
          rw [hresults]
          rfl

theorem Subst.SolvedOn.of_mem_vars_apply {s : Subst} {domain : TyVar → Prop} {ty : Ty} {x : TyVar}
    (h : s.SolvedOn domain) (hx : x ∈ (s.apply ty).vars) :
    (x ∈ ty.vars ∨ domain x) ∧ s.get? x = none := by
  rcases Subst.mem_vars_apply.mp hx with ⟨hmem, hunbound⟩ | ⟨v, -, image, himage, hmem⟩
  · exact ⟨.inl hmem, hunbound⟩
  · obtain ⟨hdomain, hunbound⟩ := h.put himage hmem
    exact ⟨.inr hdomain, hunbound⟩

theorem Subst.SolvedOn.apply_apply {s : Subst} {domain : TyVar → Prop} (h : s.SolvedOn domain)
    (ty : Ty) : s.apply (s.apply ty) = s.apply ty :=
  Subst.apply_eq_self fun _ hx => (h.of_mem_vars_apply hx).2

/-- What is unified in the course of a pair has fewer variables, or no more of them and a smaller
size. -/
theorem UnifyCall.decreases {callee caller : Ty × Ty} (h : UnifyCall callee caller) :
    Prod.Lex (· < ·) (· < ·) (Equations.varCount [callee], Equations.size [callee])
      (Equations.varCount [caller], Equations.size [caller]) := by
  cases h with
  | @parameters parameter parameter' result result' =>
      refine Equations.decreases_of_subset (fun x hx => ?_) ?_
      · simp only [Equations.mem_vars_pair, Ty.vars, List.mem_append] at hx ⊢
        exact hx.imp .inl .inl
      · have := result.size_pos
        simp only [Equations.size, Ty.size, List.foldr_cons, List.foldr_nil]
        omega
  | @results parameter parameter' result result' s hs =>
      have hsolved := solvedOn_of_unify hs
      have hvars : ∀ x ∈ Equations.vars [(s.apply result, s.apply result')],
          x ∈ Equations.vars [(.func parameter result, .func parameter' result')] ∧
            s.get? x = none := by
        intro x hx
        simp only [Equations.mem_vars_pair, Ty.vars, List.mem_append] at hx ⊢
        rcases hx with hx | hx
        · obtain ⟨hmem, hunbound⟩ := hsolved.of_mem_vars_apply hx
          exact ⟨by grind, hunbound⟩
        · obtain ⟨hmem, hunbound⟩ := hsolved.of_mem_vars_apply hx
          exact ⟨by grind, hunbound⟩
      by_cases hnone : ∀ v, s.get? v = none
      · refine Equations.decreases_of_subset (fun x hx => (hvars x hx).1) ?_
        rw [Subst.apply_eq_self fun v _ => hnone v, Subst.apply_eq_self fun v _ => hnone v]
        have := parameter.size_pos
        simp only [Equations.size, Ty.size, List.foldr_cons, List.foldr_nil]
        omega
      · obtain ⟨v, hv⟩ := Classical.not_forall.mp hnone
        obtain ⟨image, himage⟩ := Option.ne_none_iff_exists'.mp hv
        refine .left _ _ (Ty.length_ordered_lt (fun x hx => (hvars x hx).1) ?_
          fun hmem => hv (hvars v hmem).2)
        simp only [Equations.mem_vars_pair, Ty.vars, List.mem_append]
        exact (hsolved.bound himage).imp .inl .inl

theorem wellFounded_unifyCall : WellFounded UnifyCall :=
  Subrelation.wf UnifyCall.decreases
    (InvImage.wf (fun pair : Ty × Ty => (Equations.varCount [pair], Equations.size [pair]))
      (Prod.lex Nat.lt_wfRel Nat.lt_wfRel).wf)

theorem eq_unify_of_unifyBy {f : Ty → Ty → Except UnifyError Subst}
    (hf : ∀ left right, f left right = Ty.unifyBy f left right) (pair : Ty × Ty) :
    f pair.1 pair.2 = unify pair.1 pair.2 := by
  induction pair using wellFounded_unifyCall.induction with
  | h pair ih => rw [hf, Ty.unifyBy_congr ih, ← unify_eq_unifyBy]

/-- The recursion on the parts of functions ends for every pair of types, also where variables are
used at both kinds, and only unification obeys it. What it gives binds and puts in variables of the
two types only, puts in none that it binds, and so changes nothing the second time. -/
theorem unify_recursion_solved (left right : Ty) :
    Acc UnifyCall (left, right) ∧
    (∀ f : Ty → Ty → Except UnifyError Subst,
      (∀ left right, f left right = Ty.unifyBy f left right) ↔ f = unify) ∧
    ∀ s, unify left right = .ok s →
      s.SolvedOn (fun v => v ∈ left.vars ∨ v ∈ right.vars) ∧
        ∀ ty, s.apply (s.apply ty) = s.apply ty := by
  refine ⟨wellFounded_unifyCall.apply _, fun f => ⟨fun hf => ?_, ?_⟩, fun s hs => ?_⟩
  · funext left right
    exact eq_unify_of_unifyBy hf (left, right)
  · rintro rfl
    exact unify_eq_unifyBy
  · exact ⟨solvedOn_of_unify hs, (solvedOn_of_unify hs).apply_apply⟩

/-- The parameters bind a variable to a type that uses another one at both kinds, and with it the
results become larger than the functions were. -/
theorem unify_recursion_solved_larger :
    let image : Ty := .func (.func (.var 1) (.number 1)) (.func (.number 1) (.var 1))
    let left : Ty := .func (.var 0) (.func (.var 0) (.var 0))
    let right : Ty := .func image (.var 2)
    let s : Subst := ⟨[(0, image), (2, .func image image)]⟩
    UnifyCall (.func image image, .var 2) (left, right) ∧
      Equations.size [(left, right)] < Equations.size [(.func image image, .var 2)] ∧
      unify left right = .ok s ∧ s.SolvedOn (fun v => v ∈ left.vars ∨ v ∈ right.vars) ∧
      ∀ ty, s.apply (s.apply ty) = s.apply ty := by
  intro image left right s
  have hparameters : unify (.var 0) image = .ok (.single 0 image) :=
    (unify_eq_unifyBy _ _).trans rfl
  have hresults : unify (.func image image) (.var 2) = .ok (.single 2 (.func image image)) :=
    (unify_eq_unifyBy _ _).trans rfl
  have hs : unify left right =
      .ok ((Subst.single 2 (.func image image)).compose (.single 0 image)) :=
    unify_func hparameters hresults
  have hcall : UnifyCall (.func image image, .var 2) (left, right) :=
    @UnifyCall.results _ _ (.func (.var 0) (.var 0)) (.var 2) _ hparameters
  exact ⟨hcall, by decide, hs, (unify_recursion_solved left right).2.2 s hs⟩

end Recursion

end Viewlet
