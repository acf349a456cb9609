import Viewlet.Proofs.Typing.Instances

namespace Viewlet

/-- The substitution respects the kinds and spares all schemes of the environment. -/
structure TypeEnv.Admits (env : TypeEnv) (κ : Kinding) (θ : Subst) : Prop where
  respects : θ.Respects κ
  spares : ∀ {binding}, binding ∈ env.bindings → θ.Spares binding.2

namespace TypeEnv

variable {env : TypeEnv} {κ : Kinding} {θ : Subst}

theorem admits_empty (env : TypeEnv) (κ : Kinding) : env.Admits κ .empty where
  respects := Subst.respects_empty κ
  spares _ v image h := by simp at h

theorem Admits.insert (h : env.Admits κ θ) (name : String) (ty : Ty) :
    (env.insert name ⟨[], ty⟩).Admits κ θ where
  respects := h.respects
  spares hmem := by
    rcases mem_insert hmem with rfl | hmem
    · exact fun v image _ => ⟨List.not_mem_nil, fun _ w _ => List.not_mem_nil⟩
    · exact h.spares hmem

end TypeEnv

namespace Infer

section Stages

variable {env : TypeEnv} {κ κ₁ κ₂ : Kinding} {next next₁ next₂ : TyVar} {s t θ : Subst} {ty : Ty}

theorem Advance.admits (hfits : env.Fits κ next) (hstage : Stage env κ next s κ₁ next₁)
    (h : Advance env next s κ₁ next₁ t κ₂ next₂) (hθ : (env.subst (t.compose s)).Admits κ₂ θ) :
    (env.subst s).Admits κ₁ (θ.compose t) where
  respects := by
    refine (hθ.respects.compose h.within).mono fun v hv => ?_
    have hlt : v < next₁ := by
      refine Nat.not_le.mp fun hle => ?_
      rw [hstage.fresh v hle] at hv
      cases hv
    rw [h.kinds v hlt, hv]
  spares hmem := h.spares hfits (fun _ hbinding => hθ.spares hbinding) _ hmem

theorem Stage.settled_apply (hfits : env.Fits κ next) (hstage : Stage env κ next s κ₁ next₁)
    (hkinds : ty.HasKinds κ) (hfree : ∀ v ∈ ty.vars, v ∈ env.freeVars) :
    Settled env next s κ₁ next₁ (s.apply ty) where
  kinds := by
    refine hstage.within.hasKinds_apply (hkinds.congr fun v hv => ?_)
    exact hstage.kinds v (hfits.lt_of_free (hfree v hv))
  vars hv := by
    rcases Subst.mem_vars_apply.mp hv with ⟨hv, hunbound⟩ | ⟨w, hw, image, himage, hv⟩
    · exact ⟨.inl (hfree _ hv), hunbound⟩
    · exact hstage.solved.put himage hv

end Stages

section Inserting

variable {env : TypeEnv} {κ κ' : Kinding} {next next' : TyVar} {s : Subst} {ty : Ty} {name : String}

theorem available_of_insert {v : TyVar} (hle : next + 1 ≤ next')
    (hv : (env.insert name ⟨[], .var next⟩).Available (next + 1) next' v) :
    env.Available next next' v := by
  rcases hv with hv | ⟨hlower, hupper⟩
  · rcases TypeEnv.mem_freeVars_insert hv with hv | hv
    · have hv : v = next := by simpa [Ty.vars] using hv
      exact .inr ⟨Nat.le_of_eq hv.symm, hv ▸ hle⟩
    · exact .inl hv
  · exact .inr ⟨Nat.le_of_succ_le hlower, hupper⟩

theorem Stage.of_insert
    (h : Stage (env.insert name ⟨[], .var next⟩) (κ.update next false) (next + 1) s κ' next') :
    Stage env κ next s κ' next' where
  le := Nat.le_of_succ_le h.le
  kinds v hv := by
    rw [h.kinds v (Nat.lt_succ_of_lt hv), Kinding.update_of_ne (Nat.ne_of_lt hv)]
  fresh := h.fresh
  within := h.within
  solved := h.solved.mono fun _ hv => available_of_insert h.le hv

theorem Settled.of_insert (hle : next + 1 ≤ next')
    (h : Settled (env.insert name ⟨[], .var next⟩) (next + 1) s κ' next' ty) :
    Settled env next s κ' next' ty where
  kinds := h.kinds
  vars hv := ⟨available_of_insert hle (h.vars hv).1, (h.vars hv).2⟩

theorem Stage.settled_inserted (hfits : env.Fits κ next)
    (h : Stage (env.insert name ⟨[], .var next⟩) (κ.update next false) (next + 1) s κ' next') :
    Settled (env.insert name ⟨[], .var next⟩) (next + 1) s κ' next' (s.apply (.var next)) := by
  refine h.settled_apply (hfits.insert name) (by simp [Ty.HasKinds]) fun v hv => ?_
  refine TypeEnv.mem_freeVars.mpr ⟨(name, ⟨[], .var next⟩), List.mem_cons_self, hv, ?_⟩
  exact List.not_mem_nil

end Inserting

/-- At the stage the node has the type, and under every substitution that is still admitted
it has what the substitution makes of the type. -/
structure Outcome (env : TypeEnv) (κ : Kinding) (next : TyVar) (s : Subst) (κ' : Kinding)
    (next' : TyVar) (node : Node) (ty : Ty) : Prop where
  stage : Stage env κ next s κ' next'
  settled : Settled env next s κ' next' ty
  typed : ∀ θ, (env.subst s).Admits κ' θ →
    HasType ((env.subst s).subst θ) node (θ.apply ty)

namespace Outcome

variable {env : TypeEnv} {κ κ₁ κ₂ : Kinding} {next next₁ next₂ : TyVar} {s t : Subst}
  {node left right : Node} {ty leftTy rightTy : Ty}

theorem hasType (h : Outcome env κ next s κ₁ next₁ node ty) : HasType (env.subst s) node ty := by
  simpa using h.typed .empty (TypeEnv.admits_empty _ _)

theorem advance (hfits : env.Fits κ next) (h : Outcome env κ next s κ₁ next₁ node ty)
    (hstep : Advance env next s κ₁ next₁ t κ₂ next₂) :
    Outcome env κ next (t.compose s) κ₂ next₂ node (t.apply ty) where
  stage := h.stage.advance hfits hstep
  settled := h.settled.advance hfits h.stage hstep
  typed θ hθ := by
    have htyped := h.typed _ (hstep.admits hfits h.stage hθ)
    rwa [TypeEnv.subst_compose, Subst.apply_compose, ← TypeEnv.subst_compose env t s] at htyped

theorem of_part (hfits : env.Fits κ next) (hstage : Stage env κ next s κ₁ next₁)
    (h : Outcome (env.subst s) κ₁ next₁ t κ₂ next₂ node ty) :
    Outcome env κ next (t.compose s) κ₂ next₂ node ty where
  stage := hstage.advance hfits (hstage.advance_of_part hfits h.stage)
  settled := hstage.settled_of_part hfits h.stage.le h.settled
  typed := by
    rw [TypeEnv.subst_compose]
    exact h.typed

theorem draw (hfits : env.Fits κ next) (h : Outcome env κ next s κ₁ next₁ node ty)
    (numeric : Bool) :
    Outcome env κ next s (κ₁.update next₁ numeric) (next₁ + 1) node ty := by
  simpa using h.advance hfits (h.stage.draw numeric)

theorem solve (hfits : env.Fits κ next) (h : Outcome env κ next s κ₁ next₁ node ty)
    (hleft : Settled env next s κ₁ next₁ leftTy) (hright : Settled env next s κ₁ next₁ rightTy)
    (hunify : Viewlet.unify leftTy rightTy = .ok t) :
    Outcome env κ next (t.compose s) κ₁ next₁ node (t.apply ty) :=
  h.advance hfits (hleft.unify h.stage hright hunify)

theorem pair (hfits : env.Fits κ next) (hleft : Outcome env κ next s κ₁ next₁ left leftTy)
    (hright : Outcome (env.subst s) κ₁ next₁ t κ₂ next₂ right rightTy) :
    Outcome env κ next (t.compose s) κ₂ next₂ left (t.apply leftTy) ∧
      Outcome env κ next (t.compose s) κ₂ next₂ right rightTy :=
  ⟨hleft.advance hfits (hleft.stage.advance_of_part hfits hright.stage),
    hright.of_part hfits hleft.stage⟩

section Rules

variable {name : String} {callee argument body operand : Node} {op : BinOp}
  {conditions branches : List Node} {argumentTy resultTy bodyTy : Ty} {scheme : Scheme}

theorem integer (hfits : env.Fits κ next) (value : Int64) :
    Outcome env κ next .empty (κ.update next true) (next + 1) (.integer value) (.number next) where
  stage := .drawn hfits true
  settled := (Stage.refl hfits).settled_number hfits
  typed θ hθ := .integer (hθ.respects next (by simp))

theorem float (hfits : env.Fits κ next) (value : Float) :
    Outcome env κ next .empty κ next (.float value) .float where
  stage := Stage.refl hfits
  settled := ⟨trivial, fun hv => by simp [Ty.vars] at hv⟩
  typed _ _ := .float

theorem boolean (hfits : env.Fits κ next) (value : Bool) :
    Outcome env κ next .empty κ next (.boolean value) .bool where
  stage := Stage.refl hfits
  settled := .bool
  typed _ _ := .boolean

theorem var (hfits : env.Fits κ next) (h : env.get? name = some scheme) :
    Outcome env κ next .empty (scheme.kindsFrom κ next) (next + scheme.vars.length) (.var name)
      (scheme.instanceFrom next) where
  stage := .instantiate hfits scheme
  settled := .instantiate hfits h
  typed θ hθ := by
    rw [TypeEnv.subst_empty] at hθ ⊢
    have hmem := TypeEnv.mem_of_get? h
    refine .var ?_ (Scheme.hasInstance_apply_instanceFrom (hfits.kinds hmem) hθ.respects
      (hθ.spares hmem))
    rw [TypeEnv.get?_subst, h]
    rfl

theorem typed_of_insert
    (h : Outcome (env.insert name ⟨[], .var next⟩) (κ.update next false) (next + 1) s κ₁ next₁ body
      bodyTy) {θ : Subst} (hθ : (env.subst s).Admits κ₁ θ) :
    HasType (((env.subst s).subst θ).insert name ⟨[], θ.apply (s.apply (.var next))⟩) body
      (θ.apply bodyTy) := by
  rw [← TypeEnv.subst_insert, ← TypeEnv.subst_insert]
  refine h.typed θ ?_
  rw [TypeEnv.subst_insert]
  exact hθ.insert name _

theorem function (hfits : env.Fits κ next)
    (h : Outcome (env.insert name ⟨[], .var next⟩) (κ.update next false) (next + 1) s κ₁ next₁ body
      bodyTy) :
    Outcome env κ next s κ₁ next₁ (.function name body) (.func (s.apply (.var next)) bodyTy) where
  stage := h.stage.of_insert
  settled := ((h.stage.settled_inserted hfits).of_insert h.stage.le).func
    (h.settled.of_insert h.stage.le)
  typed _ hθ := .function (h.typed_of_insert hθ)

theorem declaration
    (h : Outcome (env.insert name ⟨[], .var next⟩) (κ.update next false) (next + 1) s κ₁ next₁ body
      bodyTy) (hself : s.apply (.var next) = bodyTy) :
    Outcome env κ next s κ₁ next₁ (.declaration name body) bodyTy where
  stage := h.stage.of_insert
  settled := h.settled.of_insert h.stage.le
  typed _ hθ := .declaration (by simpa only [hself] using h.typed_of_insert hθ)

theorem apply (hcallee : Outcome env κ next s κ₁ next₁ callee (.func argumentTy resultTy))
    (hargument : Outcome env κ next s κ₁ next₁ argument argumentTy) :
    Outcome env κ next s κ₁ next₁ (.apply callee argument) resultTy where
  stage := hcallee.stage
  settled := ⟨hcallee.settled.kinds.2, fun hv => hcallee.settled.vars (by simp [Ty.vars, hv])⟩
  typed θ hθ := .apply (hcallee.typed θ hθ) (hargument.typed θ hθ)

theorem arithmetic (hop : op.isArithmetic = true) (hnumeric : ty.isNumeric = true)
    (hleft : Outcome env κ next s κ₁ next₁ left ty)
    (hright : Outcome env κ next s κ₁ next₁ right ty) :
    Outcome env κ next s κ₁ next₁ (.binary op left right) ty where
  stage := hleft.stage
  settled := hleft.settled
  typed θ hθ := .arithmetic hop (hθ.respects.isNumeric_apply hleft.settled.kinds hnumeric)
    (hleft.typed θ hθ) (hright.typed θ hθ)

theorem comparison (hop : op.isComparison = true) (hnumeric : ty.isNumeric = true)
    (hleft : Outcome env κ next s κ₁ next₁ left ty)
    (hright : Outcome env κ next s κ₁ next₁ right ty) :
    Outcome env κ next s κ₁ next₁ (.binary op left right) .bool where
  stage := hleft.stage
  settled := .bool
  typed θ hθ := .comparison hop (hθ.respects.isNumeric_apply hleft.settled.kinds hnumeric)
    (hleft.typed θ hθ) (hright.typed θ hθ)

theorem logical (hop : op.isLogical = true) (hleft : Outcome env κ next s κ₁ next₁ left .bool)
    (hright : Outcome env κ next s κ₁ next₁ right .bool) :
    Outcome env κ next s κ₁ next₁ (.binary op left right) .bool where
  stage := hleft.stage
  settled := .bool
  typed θ hθ := .logical hop (hleft.typed θ hθ) (hright.typed θ hθ)

theorem negation (h : Outcome env κ next s κ₁ next₁ operand .bool) :
    Outcome env κ next s κ₁ next₁ (.negation operand) .bool where
  stage := h.stage
  settled := .bool
  typed θ hθ := .negation (h.typed θ hθ)

theorem ifElse (hstage : Stage env κ next s κ₁ next₁) (hty : Settled env next s κ₁ next₁ ty)
    (hconditions : ∀ condition ∈ conditions, Outcome env κ next s κ₁ next₁ condition .bool)
    (hbranches : ∀ branch ∈ branches, Outcome env κ next s κ₁ next₁ branch ty) :
    Outcome env κ next s κ₁ next₁ (.ifElse conditions branches) ty where
  stage := hstage
  settled := hty
  typed θ hθ := .ifElse (fun condition hmem => (hconditions condition hmem).typed θ hθ)
    fun branch hmem => (hbranches branch hmem).typed θ hθ

end Rules

end Outcome

end Infer

end Viewlet
