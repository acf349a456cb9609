import Viewlet.Proofs.Typing.Soundness

namespace Viewlet

namespace Infer

/-- What `θ` does with the variables drawn before, `ρ` does after `s`. -/
structure Completes (κ : Kinding) (next : TyVar) (s : Subst) (κ' : Kinding) (θ ρ : Subst) :
    Prop where
  respects : ρ.Respects κ'
  agrees : ∀ v, v < next → ρ.get? v = θ.get? v
  factors : ∀ {ty : Ty}, ty.HasKinds κ → (∀ v ∈ ty.vars, v < next) →
    ρ.apply (s.apply ty) = θ.apply ty

section Completing

variable {env : TypeEnv} {κ κ₁ κ₂ : Kinding} {next next₁ next₂ : TyVar} {s t θ ρ ρ' : Subst}
  {ty left right : Ty}

theorem Completes.of_agrees (hρ : ρ.Respects κ₁) (hagrees : ∀ v, v < next → ρ.get? v = θ.get? v) :
    Completes κ next .empty κ₁ θ ρ where
  respects := hρ
  agrees := hagrees
  factors _ hbelow := by
    rw [Subst.apply_empty]
    exact Subst.apply_congr fun v hv => hagrees v (hbelow v hv)

theorem Completes.trans {next₀ : TyVar} {κ₀ : Kinding} {u : Subst} (hfits : env.Fits κ₀ next₀)
    (hle : next₀ ≤ next) (hstep : Advance env next₀ u κ next s κ₁ next₁)
    (h : Completes κ next s κ₁ θ ρ) (h' : Completes κ₁ next₁ t κ₂ ρ ρ') :
    Completes κ next (t.compose s) κ₂ θ ρ' where
  respects := h'.respects
  agrees v hv := (h'.agrees v (Nat.lt_of_lt_of_le hv hstep.le)).trans (h.agrees v hv)
  factors {ty} hkinds hbelow := by
    obtain ⟨hkinds', hbelow'⟩ := hstep.keeps hfits hle hkinds hbelow
    rw [Subst.apply_compose, h'.factors hkinds' hbelow', h.factors hkinds hbelow]

theorem Completes.stage_trans (hfits : env.Fits κ next) (hstage : Stage env κ next s κ₁ next₁)
    (h : Completes κ next s κ₁ θ ρ) (h' : Completes κ₁ next₁ t κ₂ ρ ρ') :
    Completes κ next (t.compose s) κ₂ θ ρ' :=
  h.trans hfits (Nat.le_refl _) hstage.toAdvance h'

theorem Completes.draw (hρ : ρ.Respects κ₁) {numeric : Bool}
    (hnumeric : numeric = true → ty.isNumeric = true) :
    Completes κ₁ next₁ .empty (κ₁.update next₁ numeric) ρ (ρ.insert next₁ ty) := by
  refine .of_agrees (fun v hv => ?_) fun v hv => ?_
  · rw [Subst.apply, Subst.get?_insert]
    by_cases hnext : v = next₁
    · subst hnext
      rw [Kinding.update_same] at hv
      simpa using hnumeric hv
    · rw [Kinding.update_of_ne hnext] at hv
      rw [if_neg hnext]
      exact hρ v hv
  · rw [Subst.get?_insert, if_neg (Nat.ne_of_lt hv)]

theorem Completes.solve (next₁ : TyVar) (hρ : ρ.Respects κ₁) (hleft : left.HasKinds κ₁)
    (hright : right.HasKinds κ₁) (heq : ρ.apply left = ρ.apply right) :
    ∃ t, Viewlet.unify left right = .ok t ∧ Completes κ₁ next₁ t κ₁ ρ ρ := by
  obtain ⟨t, hunify, habsorbs⟩ := exists_unify hleft hright hρ heq
  exact ⟨t, hunify, hρ, fun _ _ => rfl, fun hkinds _ => habsorbs _ hkinds⟩

theorem Completes.solve_bool (next₁ : TyVar) (hρ : ρ.Respects κ₁) (hty : ty.HasKinds κ₁)
    (heq : ρ.apply ty = .bool) :
    ∃ t, Viewlet.unify ty .bool = .ok t ∧ Completes κ₁ next₁ t κ₁ ρ ρ :=
  Completes.solve next₁ hρ hty (show Ty.HasKinds κ₁ .bool from trivial) heq

theorem Completes.subst_eq (hfits : env.Fits κ next) (h : Completes κ next s κ₁ θ ρ) :
    (env.subst s).subst ρ = env.subst θ := by
  rw [← TypeEnv.subst_compose]
  refine TypeEnv.subst_congr fun binding hmem => ?_
  rw [Subst.apply_compose]
  exact h.factors (hfits.kinds hmem) fun v hv => hfits.below hmem hv

theorem Completes.apply_settled (hfits : env.Fits κ next) (hstage : Stage env κ next s κ₁ next₁)
    (h : Completes κ₁ next₁ t κ₂ ρ ρ') (hty : Settled env next s κ₁ next₁ ty) :
    ρ'.apply (t.apply ty) = ρ.apply ty :=
  h.factors hty.kinds fun _ hv => hfits.lt_of_available hstage.le (hty.vars hv).1

/-- The factor is admitted by the environment that the stage has arrived at: a variable over
which a scheme is general would have been captured before. -/
theorem Completes.admits (hfits : env.Fits κ next) (hstage : Stage env κ next s κ₁ next₁)
    (hθ : env.Admits κ θ) (h : Completes κ next s κ₁ θ ρ) : (env.subst s).Admits κ₁ ρ where
  respects := h.respects
  spares {binding} hmem v image hv := by
    obtain ⟨source, hsource, rfl⟩ := TypeEnv.mem_subst.mp hmem
    have hspares := hθ.spares hsource
    refine ⟨fun hgeneral => ?_, fun hoccurs w hw => ?_⟩
    · rw [h.agrees v (hfits.generalBelow hsource hgeneral), Scheme.get?_of_spares hspares hgeneral]
        at hv
      cases hv
    · -- `w` stands in what `θ` makes of a variable `u` of the scheme
      have hfrom : ∃ u ∈ source.2.ty.vars, w ∈ (θ.apply (κ.leaf u)).vars ∧
          (w = u → w ∉ source.2.vars) := by
        have hleaf : ∀ u ∈ source.2.ty.vars,
            ρ.apply (s.apply (κ.leaf u)) = θ.apply (κ.leaf u) := by
          intro u hu
          refine h.factors (Kinding.hasKinds_leaf κ u) fun x hx => ?_
          have hx : x = u := by simpa using hx
          exact hx ▸ hfits.below hsource hu
        rcases Subst.mem_vars_apply.mp hoccurs with ⟨hoccurs, hunbound⟩ |
          ⟨u, hu, image', himage', hoccurs⟩
        · refine ⟨v, hoccurs, ?_, fun heq hgeneral => ?_⟩
          · rw [← hleaf v hoccurs, Kinding.apply_leaf κ s, hunbound, Option.getD_none,
              Kinding.apply_leaf, hv, Option.getD_some]
            exact hw
          · rw [heq] at hgeneral
            rw [h.agrees v (hfits.generalBelow hsource hgeneral),
              Scheme.get?_of_spares hspares hgeneral] at hv
            cases hv
        · refine ⟨u, hu, ?_, fun heq => ?_⟩
          · rw [← hleaf u hu, Kinding.apply_leaf κ s, himage', Option.getD_some]
            exact Subst.mem_vars_apply.mpr (.inr ⟨v, hoccurs, image, hv, hw⟩)
          · rw [heq]
            exact fun hgeneral =>
              hfits.not_available hsource hgeneral (hstage.solved.bound himage')
      obtain ⟨u, hu, hw, hself⟩ := hfrom
      rcases Subst.mem_vars_apply.mp hw with ⟨hw, -⟩ | ⟨x, hx, image', himage', hw⟩
      · exact hself (by simpa using hw)
      · have hx : x = u := by simpa using hx
        exact (hspares x image' himage').2 (hx ▸ hu) w hw

end Completing

/-- The inference of the node succeeds, and its type becomes the given one by a factor of
`θ`. -/
def Succeeds (env : TypeEnv) (κ : Kinding) (next : TyVar) (θ : Subst) (node : Node) (ty : Ty) :
    Prop :=
  ∃ s found next' κ' ρ, (Infer.node env node).Yields next (s, found) next' ∧
    Outcome env κ next s κ' next' node found ∧ Completes κ next s κ' θ ρ ∧ ρ.apply found = ty

/-- Every type of the node under an admitted substitution is found. -/
def CompleteAt (node : Node) : Prop :=
  ∀ {env κ next θ ty}, TypeEnv.Fits env κ next → TypeEnv.Admits env κ θ →
    HasType (env.subst θ) node ty → Succeeds env κ next θ node ty

section Parts

variable {env : TypeEnv} {κ κ₁ : Kinding} {next next₁ : TyVar} {s t θ ρ : Subst} {note : Note}
  {node left right : Node} {ty leftTy rightTy resultTy : Ty} {name : String}
  {conditions branches : List Node}

theorem CompleteAt.part (h : CompleteAt node) (hfits : env.Fits κ next)
    (hstage : Stage env κ next s κ₁ next₁) (hθ : env.Admits κ θ)
    (hρ : Completes κ next s κ₁ θ ρ) (htyped : HasType (env.subst θ) node ty) :
    Succeeds (env.subst s) κ₁ next₁ ρ node ty := by
  refine h (hstage.fits hfits) (hρ.admits hfits hstage hθ) ?_
  rwa [hρ.subst_eq hfits]

theorem CompleteAt.pair (hleft : CompleteAt left) (hright : CompleteAt right)
    (hfits : env.Fits κ next) (hθ : env.Admits κ θ) (hleftTy : HasType (env.subst θ) left leftTy)
    (hrightTy : HasType (env.subst θ) right rightTy) :
    ∃ s₁ found₁ next₁ κ₁ s₂ found₂ next₂ κ₂ ρ,
      (Infer.node env left).Yields next (s₁, found₁) next₁ ∧
      Outcome env κ next s₁ κ₁ next₁ left found₁ ∧
      (Infer.node (env.subst s₁) right).Yields next₁ (s₂, found₂) next₂ ∧
      Outcome (env.subst s₁) κ₁ next₁ s₂ κ₂ next₂ right found₂ ∧
      Completes κ next (s₂.compose s₁) κ₂ θ ρ ∧
      ρ.apply (s₂.apply found₁) = leftTy ∧ ρ.apply found₂ = rightTy := by
  obtain ⟨s₁, found₁, next₁, κ₁, ρ₁, hrun₁, h₁, hρ₁, rfl⟩ := hleft hfits hθ hleftTy
  obtain ⟨s₂, found₂, next₂, κ₂, ρ₂, hrun₂, h₂, hρ₂, rfl⟩ :=
    hright.part hfits h₁.stage hθ hρ₁ hrightTy
  exact ⟨s₁, found₁, next₁, κ₁, s₂, found₂, next₂, κ₂, ρ₂, hrun₁, h₁, hrun₂, h₂,
    hρ₁.stage_trans hfits h₁.stage hρ₂, hρ₂.apply_settled hfits h₁.stage h₁.settled, rfl⟩

theorem CompleteAt.apply {callee argument : Node} {argumentTy : Ty}
    (hcompletec : CompleteAt callee) (hcompletea : CompleteAt argument) (hfits : env.Fits κ next)
    (hθ : env.Admits κ θ) (hcallee : HasType (env.subst θ) callee (.func argumentTy ty))
    (hargument : HasType (env.subst θ) argument argumentTy) :
    Succeeds env κ next θ (.apply callee argument) ty := by
  obtain ⟨s₁, found₁, next₁, κ₁, s₂, found₂, next₂, κ₂, ρ, hrun₁, h₁, hrun₂, h₂, hρ, hty₁,
    hty₂⟩ := hcompletec.pair hcompletea hfits hθ hcallee hargument
  obtain ⟨hcallee, hargument⟩ := h₁.pair hfits h₂
  -- the variable drawn for the result stands for the type of the node
  have hdraw : Completes κ₂ next₂ .empty (κ₂.update next₂ false) ρ (ρ.insert next₂ ty) :=
    .draw hρ.respects (by simp)
  have hcallee' := hcallee.draw hfits false
  have hargument' := hargument.draw hfits false
  have hresult := hargument.stage.settled_var hfits
  have hfunc := hargument'.settled.func hresult
  have hty₁' := hdraw.apply_settled hfits hcallee.stage hcallee.settled
  have hty₂' := hdraw.apply_settled hfits hargument.stage hargument.settled
  rw [Subst.apply_empty] at hty₁' hty₂'
  have heq : (ρ.insert next₂ ty).apply (s₂.apply found₁) =
      (ρ.insert next₂ ty).apply (.func found₂ (.var next₂)) := by
    rw [Subst.apply_func, Subst.apply_insert_var, hty₁', hty₂', hty₁, hty₂]
  obtain ⟨s₃, hunify, hρ₃⟩ := Completes.solve (next₂ + 1) hdraw.respects
    hcallee'.settled.kinds hfunc.kinds heq
  have hall := (hρ.stage_trans hfits hcallee.stage hdraw).stage_trans hfits
    (by simpa using hcallee'.stage) hρ₃
  rw [Subst.empty_compose, ← Subst.compose_assoc] at hall
  refine ⟨_, _, _, _, _, yields_apply.mpr ⟨s₁, found₁, next₁, s₂, found₂, next₂, s₃, hrun₁,
    hrun₂, hunify, rfl, rfl, rfl⟩, h₁.call hfits h₂ hunify, hall, ?_⟩
  rw [Subst.compose_assoc, Subst.apply_compose, hresult.apply_eq,
    hρ₃.apply_settled hfits hargument'.stage hresult, Subst.apply_insert_var]

theorem CompleteAt.numeric {op : BinOp} (hcompletel : CompleteAt left)
    (hcompleter : CompleteAt right) (hfits : env.Fits κ next) (hθ : env.Admits κ θ)
    (hop : op.isLogical = false) (hnumeric : ty.isNumeric = true)
    (hleft : HasType (env.subst θ) left ty) (hright : HasType (env.subst θ) right ty) :
    Succeeds env κ next θ (.binary op left right) (if op.isComparison then .bool else ty) := by
  obtain ⟨s₁, found₁, next₁, κ₁, s₂, found₂, next₂, κ₂, ρ, hrun₁, h₁, hrun₂, h₂, hρ, hty₁,
    hty₂⟩ := hcompletel.pair hcompleter hfits hθ hleft hright
  obtain ⟨hleft, hright⟩ := h₁.pair hfits h₂
  obtain ⟨s₃, hfirst, hρ₃⟩ := Completes.solve next₂ hρ.respects
    hleft.settled.kinds hright.settled.kinds (hty₁.trans hty₂.symm)
  have hright' := hright.solve hfits hleft.settled hright.settled hfirst
  have hty₃ : ρ.apply (s₃.apply found₂) = ty := by
    rw [hρ₃.apply_settled hfits hright.stage hright.settled, hty₂]
  have hρ' := hρ.stage_trans hfits hright.stage hρ₃
  -- the variable drawn for the operands stands for their type
  have hdraw : Completes κ₂ next₂ .empty (κ₂.update next₂ true) ρ
      (ρ.insert next₂ ty) := .draw hρ.respects fun _ => hnumeric
  have hdrawn := hright'.draw hfits true
  have hty₄ : (ρ.insert next₂ ty).apply (s₃.apply found₂) = ty := by
    have happly := hdraw.apply_settled hfits hright'.stage hright'.settled
    rwa [Subst.apply_empty, hty₃] at happly
  obtain ⟨s₄, hsecond, hρ₄⟩ := Completes.solve (next₂ + 1) hdraw.respects
    hdrawn.settled.kinds
    (show Ty.HasKinds (κ₂.update next₂ true) (.number next₂) by simp [Ty.HasKinds])
    (hty₄.trans (Subst.apply_insert_number ρ next₂ ty).symm)
  have hfound := h₁.compute hfits hop h₂ hfirst hsecond
  have hall := (hρ'.stage_trans hfits hright'.stage hdraw).stage_trans hfits
    (by simpa using hdrawn.stage) hρ₄
  rw [Subst.empty_compose, ← Subst.compose_assoc, ← Subst.compose_assoc] at hall
  refine ⟨_, _, _, _, _, (yields_numeric hop).mpr ⟨s₁, found₁, next₁, s₂, found₂, next₂, s₃,
    s₄, hrun₁, hrun₂, hfirst, hsecond, rfl, rfl, rfl⟩, hfound, hall, ?_⟩
  cases op.isComparison with
  | true => rfl
  | false =>
      rw [Subst.compose_assoc, Subst.compose_assoc]
      simp only [Bool.false_eq_true, if_false]
      rw [Subst.apply_compose, hright'.settled.apply_eq,
        hρ₄.apply_settled hfits hdrawn.stage hdrawn.settled, hty₄]

theorem CompleteAt.logical {op : BinOp} (hcompletel : CompleteAt left)
    (hcompleter : CompleteAt right) (hfits : env.Fits κ next) (hθ : env.Admits κ θ)
    (hop : op.isLogical = true) (hleft : HasType (env.subst θ) left .bool)
    (hright : HasType (env.subst θ) right .bool) :
    Succeeds env κ next θ (.binary op left right) .bool := by
  obtain ⟨s₁, found₁, next₁, κ₁, s₂, found₂, next₂, κ₂, ρ, hrun₁, h₁, hrun₂, h₂, hρ, hty₁,
    hty₂⟩ := hcompletel.pair hcompleter hfits hθ hleft hright
  obtain ⟨hleft, hright⟩ := h₁.pair hfits h₂
  obtain ⟨s₃, hfirst, hρ₃⟩ :=
    Completes.solve_bool next₂ hρ.respects hleft.settled.kinds hty₁
  have hright' := hright.solve hfits hleft.settled .bool hfirst
  obtain ⟨s₄, hsecond, hρ₄⟩ :=
    Completes.solve_bool next₂ hρ.respects hright'.settled.kinds
      ((hρ₃.apply_settled hfits hright.stage hright.settled).trans hty₂)
  have hall := (hρ.stage_trans hfits hright.stage hρ₃).stage_trans hfits hright'.stage hρ₄
  rw [← Subst.compose_assoc, ← Subst.compose_assoc] at hall
  exact ⟨_, _, _, _, _, (yields_logical hop).mpr ⟨s₁, found₁, next₁, s₂, found₂, s₃, s₄,
    hrun₁, hrun₂, hfirst, hsecond, rfl, rfl⟩, h₁.connect hfits hop h₂ hfirst hsecond, hall,
    rfl⟩

theorem CompleteAt.body (h : CompleteAt node) (hfits : env.Fits κ next) (hθ : env.Admits κ θ)
    (htyped : HasType ((env.subst θ).insert name ⟨[], leftTy⟩) node ty) :
    ∃ s found next' κ' ρ,
      (Infer.node (env.insert name ⟨[], .var next⟩) node).Yields (next + 1) (s, found) next' ∧
      Outcome (env.insert name ⟨[], .var next⟩) (κ.update next false) (next + 1) s κ' next' node
        found ∧
      Completes κ next s κ' θ ρ ∧ ρ.apply (s.apply (.var next)) = leftTy ∧
      ρ.apply found = ty := by
  have hstart := Stage.drawn hfits false
  have hdraw : Completes κ next .empty (κ.update next false) θ (θ.insert next leftTy) :=
    .draw hθ.respects (by simp)
  have hadmits := hdraw.admits hfits hstart hθ
  have henv := hdraw.subst_eq hfits
  rw [TypeEnv.subst_empty] at hadmits henv
  have htyped' :
      HasType ((env.insert name ⟨[], .var next⟩).subst (θ.insert next leftTy)) node ty := by
    rwa [TypeEnv.subst_insert, henv, Subst.apply_insert_var]
  obtain ⟨s, found, next', κ', ρ, hrun, hfound, hρ, rfl⟩ :=
    h (hfits.insert name) (hadmits.insert name _) htyped'
  have hself : ρ.apply (s.apply (.var next)) = leftTy := by
    rw [hρ.factors (by simp [Ty.HasKinds]) (by simp [Ty.vars]), Subst.apply_insert_var]
  refine ⟨s, found, next', κ', ρ, hrun, hfound, ?_, hself, rfl⟩
  simpa using hdraw.stage_trans hfits hstart hρ

theorem conditions_succeed (hcomplete : ∀ condition ∈ conditions, CompleteAt condition)
    (hfits : env.Fits κ next) (hθ : env.Admits κ θ)
    (htyped : ∀ condition ∈ conditions, HasType (env.subst θ) condition .bool)
    (hstage : Stage env κ next t κ₁ next₁) (hρ : Completes κ next t κ₁ θ ρ) :
    ∃ r next₂ κ₂ ρ', (conditionsFrom env note t conditions).Yields next₁ (r.compose t) next₂ ∧
      Advance env next t κ₁ next₁ r κ₂ next₂ ∧ Completes κ₁ next₁ r κ₂ ρ ρ' ∧
      ∀ condition ∈ conditions, Outcome env κ next (r.compose t) κ₂ next₂ condition .bool := by
  induction conditions generalizing t κ₁ next₁ ρ with
  | nil =>
      exact ⟨.empty, next₁, κ₁, ρ, by simp [yields_conditions_nil], hstage.idle,
        .of_agrees hρ.respects fun _ _ => rfl, fun condition hmem => absurd hmem List.not_mem_nil⟩
  | cons condition rest ih =>
      obtain ⟨s₁, ty, next', κ', ρ₁, hrun, h, hρ₁, hty⟩ :=
        CompleteAt.part (hcomplete condition List.mem_cons_self) hfits hstage hθ hρ
          (htyped condition List.mem_cons_self)
      obtain ⟨s₂, hunify, hρ₂⟩ :=
        Completes.solve_bool next' hρ₁.respects h.settled.kinds hty
      have hpart := h.meet (hstage.fits hfits) hunify
      have hstep := hstage.advance_of_part hfits hpart.stage
      have hcondition := hpart.of_part hfits hstage
      have hρ' := hρ₁.stage_trans (hstage.fits hfits) h.stage hρ₂
      obtain ⟨r, next₂, κ₂, ρ', hrest, hadvance, hρ'', hfound⟩ :=
        ih (fun node hmem => hcomplete node (List.mem_cons_of_mem _ hmem))
          (fun node hmem => htyped node (List.mem_cons_of_mem _ hmem)) hcondition.stage
          (hρ.stage_trans hfits hstage hρ')
      refine ⟨r.compose (s₂.compose s₁), next₂, κ₂, ρ', ?_, ?_, ?_, fun node hmem => ?_⟩
      · rw [Subst.compose_assoc]
        refine yields_conditions_cons.mpr ⟨s₁, ty, next', s₂, hrun, hunify, ?_⟩
        rwa [Subst.compose_assoc] at hrest ⊢
      · exact hstep.trans hadvance fun v hv => hfits.lt_of_available hcondition.stage.le hv
      · exact hρ'.trans hfits hstage.le hstep hρ''
      · rw [Subst.compose_assoc]
        rcases List.mem_cons.mp hmem with rfl | hmem
        · exact hcondition.advance hfits hadvance
        · exact hfound node hmem

theorem branches_succeed (hcomplete : ∀ branch ∈ branches, CompleteAt branch)
    (hfits : env.Fits κ next) (hθ : env.Admits κ θ)
    (htyped : ∀ branch ∈ branches, HasType (env.subst θ) branch ty)
    (hstage : Stage env κ next t κ₁ next₁) (hρ : Completes κ next t κ₁ θ ρ)
    (hresult : Settled env next t κ₁ next₁ (t.apply resultTy))
    (hty : ρ.apply (t.apply resultTy) = ty) :
    ∃ r next₂ κ₂ ρ', (branchesFrom env note resultTy t branches).Yields next₁ (r.compose t) next₂ ∧
      Advance env next t κ₁ next₁ r κ₂ next₂ ∧ Completes κ₁ next₁ r κ₂ ρ ρ' ∧
      ∀ branch ∈ branches, Outcome env κ next (r.compose t) κ₂ next₂ branch
        ((r.compose t).apply resultTy) := by
  induction branches generalizing t κ₁ next₁ ρ with
  | nil =>
      exact ⟨.empty, next₁, κ₁, ρ, by simp [yields_branches_nil], hstage.idle,
        .of_agrees hρ.respects fun _ _ => rfl, fun branch hmem => absurd hmem List.not_mem_nil⟩
  | cons branch rest ih =>
      obtain ⟨s₁, found, next', κ', ρ₁, hrun, h, hρ₁, hfound⟩ :=
        CompleteAt.part (hcomplete branch List.mem_cons_self) hfits hstage hθ hρ
          (htyped branch List.mem_cons_self)
      have hpart := hstage.advance_of_part hfits h.stage
      have hresult₁ := hresult.advance hfits hstage hpart
      rw [← Subst.apply_compose] at hresult₁
      have hty₁ : ρ₁.apply ((s₁.compose t).apply resultTy) = ty := by
        rw [Subst.apply_compose, hρ₁.apply_settled hfits hstage hresult, hty]
      obtain ⟨s₂, hunify, hρ₂⟩ := Completes.solve next' hρ₁.respects hresult₁.kinds
        h.settled.kinds (hty₁.trans hfound.symm)
      obtain ⟨hbranch, hstep⟩ := h.join hfits hstage hresult hunify
      have hρ' := hρ₁.trans hfits hstage.le hpart hρ₂
      have hty₂ : ρ₁.apply ((s₂.compose (s₁.compose t)).apply resultTy) = ty := by
        rw [Subst.apply_compose, hρ₂.apply_settled hfits (hstage.advance hfits hpart) hresult₁,
          hty₁]
      have hall : Completes κ next (s₂.compose (s₁.compose t)) κ' θ ρ₁ := by
        rw [← Subst.compose_assoc]
        exact hρ.stage_trans hfits hstage hρ'
      obtain ⟨r, next₂, κ₂, ρ', hrest, hadvance, hρ'', hothers⟩ :=
        ih (fun node hmem => hcomplete node (List.mem_cons_of_mem _ hmem))
          (fun node hmem => htyped node (List.mem_cons_of_mem _ hmem)) hbranch.stage hall
          hbranch.settled hty₂
      rw [← Subst.compose_assoc s₂] at hbranch hadvance hrest hothers
      refine ⟨r.compose (s₂.compose s₁), next₂, κ₂, ρ', ?_, ?_, ?_, fun node hmem => ?_⟩
      · rw [Subst.compose_assoc]
        refine yields_branches_cons.mpr ⟨s₁, found, next', s₂, hrun, hunify, ?_⟩
        rwa [Subst.compose_assoc s₂] at hrest ⊢
      · exact hstep.trans hadvance fun v hv => hfits.lt_of_available hbranch.stage.le hv
      · exact hρ'.trans hfits hstage.le hstep hρ''
      · rw [Subst.compose_assoc]
        rcases List.mem_cons.mp hmem with rfl | hmem
        · rw [Subst.apply_compose]
          exact hbranch.advance hfits hadvance
        · exact hothers node hmem

theorem ifElse_succeeds (hcompletec : ∀ condition ∈ conditions, CompleteAt condition)
    (hcompleteb : ∀ branch ∈ branches, CompleteAt branch) (hfits : env.Fits κ next)
    (hθ : env.Admits κ θ)
    (hconditions : ∀ condition ∈ conditions, HasType (env.subst θ) condition .bool)
    (hbranches : ∀ branch ∈ branches, HasType (env.subst θ) branch ty) :
    Succeeds env κ next θ (.ifElse conditions branches) ty := by
  have hstart := Stage.drawn hfits false
  have hresult := (Stage.refl hfits).settled_var hfits
  have hdraw : Completes κ next .empty (κ.update next false) θ (θ.insert next ty) :=
    .draw hθ.respects (by simp)
  obtain ⟨r₁, next₁, κ₁, ρ₁, hrun₁, hstep₁, hρ₁, hfound₁⟩ :=
    conditions_succeed hcompletec hfits hθ hconditions hstart hdraw
  have hstage₁ := hstart.advance hfits hstep₁
  have hresult₁ := hresult.advance hfits hstart hstep₁
  have hty₁ := (hρ₁.apply_settled hfits hstart hresult).trans
    (Subst.apply_insert_var θ next ty)
  rw [Subst.compose_empty] at hrun₁ hfound₁ hstage₁ hresult₁
  have hall₁ := hdraw.stage_trans hfits hstart hρ₁
  rw [Subst.compose_empty] at hall₁
  obtain ⟨r₂, next₂, κ₂, ρ₂, hrun₂, hstep₂, hρ₂, hfound₂⟩ :=
    branches_succeed hcompleteb hfits hθ hbranches hstage₁ hall₁ hresult₁ hty₁
  have hresult₂ := hresult₁.advance hfits hstage₁ hstep₂
  rw [← Subst.apply_compose] at hresult₂
  refine ⟨_, _, _, _, ρ₂, yields_ifElse.mpr ⟨r₁, next₁, hrun₁, hrun₂, rfl⟩,
    .ifElse (hstage₁.advance hfits hstep₂) hresult₂ (fun condition hmem => ?_) hfound₂,
    hall₁.stage_trans hfits hstage₁ hρ₂, ?_⟩
  · exact (hfound₁ condition hmem).advance hfits hstep₂
  · rw [Subst.apply_compose, hρ₂.apply_settled hfits hstage₁ hresult₁, hty₁]

end Parts

/-- Inference is complete: an induction over the node, from any environment that fits. -/
theorem completeAt (node : Node) : CompleteAt node := by
  induction node with
  | integer value =>
      intro env κ next θ ty hfits hθ htyped
      cases htyped with
      | integer hnumeric =>
          exact ⟨.empty, .number next, next + 1, _, θ.insert next ty,
            yields_integer.mpr ⟨rfl, rfl, rfl⟩, .integer hfits value,
            .draw hθ.respects fun _ => hnumeric, Subst.apply_insert_number θ next ty⟩
  | float value =>
      intro env κ next θ ty hfits hθ htyped
      cases htyped
      exact ⟨.empty, .float, next, κ, θ, yields_float.mpr ⟨rfl, rfl, rfl⟩, .float hfits value,
        .of_agrees hθ.respects fun _ _ => rfl, rfl⟩
  | boolean value =>
      intro env κ next θ ty hfits hθ htyped
      cases htyped
      exact ⟨.empty, .bool, next, κ, θ, yields_boolean.mpr ⟨rfl, rfl, rfl⟩, .boolean hfits value,
        .of_agrees hθ.respects fun _ _ => rfl, rfl⟩
  | noValue =>
      intro env κ next θ ty hfits hθ htyped
      cases htyped
  | binary op left right ihl ihr =>
      intro env κ next θ ty hfits hθ htyped
      cases htyped with
      | arithmetic hop hoperand hleft hright =>
          have hlogical : op.isLogical = false ∧ op.isComparison = false := by
            cases op <;> simp_all [BinOp.isArithmetic, BinOp.isLogical, BinOp.isComparison]
          simpa [hlogical.2] using ihl.numeric ihr hfits hθ hlogical.1 hoperand hleft hright
      | comparison hop hoperand hleft hright =>
          have hlogical : op.isLogical = false := by
            cases op <;> simp_all [BinOp.isLogical, BinOp.isComparison]
          simpa [hop] using ihl.numeric ihr hfits hθ hlogical hoperand hleft hright
      | logical hop hleft hright => exact ihl.logical ihr hfits hθ hop hleft hright
  | negation operand ih =>
      intro env κ next θ ty hfits hθ htyped
      cases htyped with
      | negation hoperand =>
          obtain ⟨s₁, found, next', κ', ρ, hrun, h, hρ, hty⟩ := ih hfits hθ hoperand
          obtain ⟨s₂, hunify, hρ₂⟩ :=
            Completes.solve_bool next' hρ.respects h.settled.kinds hty
          exact ⟨_, _, _, _, ρ, yields_negation.mpr ⟨s₁, found, s₂, hrun, hunify, rfl, rfl⟩,
            (h.meet hfits hunify).negation, hρ.stage_trans hfits h.stage hρ₂, rfl⟩
  | ifElse conditions branches ihc ihb =>
      intro env κ next θ ty hfits hθ htyped
      cases htyped with
      | ifElse hconditions hbranches =>
          exact ifElse_succeeds ihc ihb hfits hθ hconditions hbranches
  | var name =>
      intro env κ next θ ty hfits hθ htyped
      cases htyped with
      | var hscheme hinstance =>
          rw [TypeEnv.get?_subst, Option.map_eq_some_iff] at hscheme
          obtain ⟨scheme, hscheme, rfl⟩ := hscheme
          have hmem := TypeEnv.mem_of_get? hscheme
          obtain ⟨ρ, hρ, hagrees, hty⟩ := Scheme.exists_apply_instanceFrom_eq (hfits.kinds hmem)
            (fun _ hv => hfits.below hmem hv) hθ.respects (hθ.spares hmem) hinstance
          exact ⟨_, _, _, _, ρ, yields_var.mpr ⟨scheme, hscheme, rfl, rfl, rfl⟩,
            .var hfits hscheme, .of_agrees hρ hagrees, hty⟩
  | function parameter body ih =>
      intro env κ next θ ty hfits hθ htyped
      cases htyped with
      | function hbody =>
          obtain ⟨s, found, next', κ', ρ, hrun, h, hρ, hself, hty⟩ := ih.body hfits hθ hbody
          refine ⟨_, _, _, _, ρ, yields_function.mpr ⟨found, hrun, rfl⟩, .function hfits h, hρ, ?_⟩
          rw [Subst.apply_func, hself, hty]
  | apply callee argument ihc iha =>
      intro env κ next θ ty hfits hθ htyped
      cases htyped with
      | apply hcallee hargument =>
          exact ihc.apply iha hfits hθ hcallee hargument
  | declaration name body ih =>
      intro env κ next θ ty hfits hθ htyped
      cases htyped with
      | declaration hbody =>
          obtain ⟨s₁, found, next', κ', ρ, hrun, h, hρ, hself, hty⟩ := ih.body hfits hθ hbody
          have hsettled := h.stage.settled_inserted hfits
          obtain ⟨s₂, hunify, hρ₂⟩ := Completes.solve next' hρ.respects hsettled.kinds
            h.settled.kinds (hself.trans hty.symm)
          refine ⟨_, _, _, _, ρ, yields_declaration.mpr ⟨s₁, found, s₂, hrun, hunify, rfl, rfl⟩,
            h.declare hfits hunify, hρ.stage_trans hfits h.stage.of_insert hρ₂, ?_⟩
          rw [Subst.apply_compose, h.settled.apply_eq,
            hρ₂.apply_settled (hfits.insert name) h.stage h.settled, hty]
  | typeName name =>
      intro env κ next θ ty hfits hθ htyped
      cases htyped
  | typeDefinition name parameters constructors =>
      intro env κ next θ ty hfits hθ htyped
      cases htyped
  | construction constructor arguments =>
      intro env κ next θ ty hfits hθ htyped
      cases htyped

section Programs

variable {env : TypeEnv} {next : TyVar}

/-- A unit that has a type is entered. -/
theorem exists_yields_unit (hclosed : ClosedAt env next) {node : Node} {ty : Ty}
    (htyped : HasType env node ty) :
    ∃ env' next', (unit env node).Yields next env' next' := by
  obtain ⟨κ, hfits, -⟩ := hclosed
  have hadmits : env.Admits κ .empty := TypeEnv.admits_empty env κ
  obtain ⟨s, found, next', κ', ρ, hrun, -⟩ :=
    completeAt node hfits hadmits (by rwa [TypeEnv.subst_empty])
  cases hentry : node.entry? with
  | none => exact ⟨env, next, yields_unit.mpr (.inl ⟨hentry, rfl, rfl⟩)⟩
  | some name =>
      exact ⟨_, next', yields_unit.mpr (.inr ⟨name, s, found, hentry, hrun, rfl⟩)⟩

end Programs

end Infer

/-- If a node has a type under a substitution of the free variables of the environment, its
inference succeeds, and a substitution that respects the kinds makes the type inferred this
type, and does after the substitution inferred what the given one does. A program is rejected at
one of its units, which has no type under the schemes of those before it. -/
theorem inference_principal :
    (∀ (env : TypeEnv) (next : TyVar), env.WellFormed next →
      ∀ (node : Node) (θ : Subst) (ty : Ty),
        (∀ v image, θ.get? v = some image → v ∈ env.freeVars) →
        (∀ binding ∈ env.bindings, ∀ v ∈ binding.2.ty.numericVars,
          (θ.apply (.number v)).isNumeric = true) →
        (∀ binding ∈ env.bindings, θ.Spares binding.2) →
        HasType (env.subst θ) node ty →
        ∃ (s : Subst) (found : Ty) (next' : TyVar) (ρ : Subst) (κ : Kinding),
          (Infer.node env node).Yields next (s, found) next' ∧
          (∀ binding ∈ env.bindings, binding.2.ty.HasKinds κ) ∧ s.Within κ ∧ found.HasKinds κ ∧
          ρ.Respects κ ∧ ty = ρ.apply found ∧
          ∀ v ∈ env.freeVars, θ.apply (κ.leaf v) = ρ.apply (s.apply (κ.leaf v))) ∧
    (∀ (before : List Node) (env : TypeEnv) (node : Node) (error : TypeError),
      inferTop before = .ok env → inferTop (before ++ [node]) = .error error →
      ∀ ty, ¬HasType env node ty) ∧
    (∀ (nodes : List Node) (error : TypeError), inferTop nodes = .error error →
      ∃ before node after env, nodes = before ++ node :: after ∧ inferTop before = .ok env ∧
        inferTop (before ++ [node]) = .error error) := by
  refine ⟨?_, ?_, ?_⟩
  · intro env next hwell node θ ty hbound hnumeric hspares htyped
    obtain ⟨κ, hfits⟩ := hwell.exists_fits
    have hrespects : θ.Respects κ := by
      intro v hkind
      cases hv : θ.get? v with
      | none => simp [Subst.apply, hv, Ty.isNumeric]
      | some image =>
          obtain ⟨binding, hmem, hoccurs, -⟩ := TypeEnv.mem_freeVars.mp (hbound v image hv)
          exact hnumeric binding hmem v
            ((Ty.mem_numericVars_of_hasKinds (hfits.kinds hmem)).mpr ⟨hoccurs, hkind⟩)
    obtain ⟨s, found, next', κ', ρ, hrun, h, hρ, hty⟩ :=
      Infer.completeAt node hfits ⟨hrespects, fun hmem => hspares _ hmem⟩ htyped
    refine ⟨s, found, next', ρ, κ', hrun, fun binding hmem => ?_, h.stage.within, h.settled.kinds,
      hρ.respects, hty.symm, fun v hv => ?_⟩
    · exact (hfits.kinds hmem).congr fun v hv => h.stage.kinds v (hfits.below hmem hv)
    · have hlt := hfits.lt_of_free hv
      have hleaf : κ'.leaf v = κ.leaf v := by rw [Kinding.leaf, Kinding.leaf, h.stage.kinds v hlt]
      rw [hleaf]
      exact (hρ.factors (Kinding.hasKinds_leaf κ v) (by simpa using hlt)).symm
  · intro before env node error hbefore hrejected ty htyped
    obtain ⟨next, hunits⟩ := inferTop_eq_ok.mp hbefore
    have hclosed := Infer.closedAt_of_units (Infer.closedAt_empty 0) hunits
    obtain ⟨env', next', hunit⟩ := Infer.exists_yields_unit hclosed htyped
    have haccepted : inferTop (before ++ [node]) = .ok env' := by
      rw [inferTop_eq_ok, Infer.units_append]
      refine ⟨next', Infer.yields_bind.mpr ⟨env, next, hunits, ?_⟩⟩
      rwa [Infer.units_singleton]
    cases haccepted.symm.trans hrejected
  · intro nodes error hrejected
    obtain ⟨next, hrun⟩ := inferTop_eq_error.mp hrejected
    obtain ⟨before, node, after, env, middle, rfl, hbefore, hfails⟩ :=
      Infer.exists_failing_unit hrun
    refine ⟨before, node, after, env, rfl, inferTop_eq_ok.mpr ⟨middle, hbefore⟩, ?_⟩
    rw [inferTop_eq_error, Infer.units_append]
    refine ⟨next, Infer.fails_bind_of_yields hbefore ?_⟩
    rwa [Infer.units_singleton]

/-- With a numeric variable of the environment replaced, a call of the general identity has the
type put in; and the negation of an integer, at which a program is rejected, has no type. -/
theorem inference_principal_identity :
    (∃ (s : Subst) (found : Ty) (next' : TyVar) (ρ : Subst) (κ : Kinding),
      (Infer.node ⟨[("id", ⟨[0], .func (.var 0) (.var 0)⟩), ("x", ⟨[], .number 1⟩)]⟩
        (.apply (.var "id") (.binary .add (.var "x") (.integer 1)))).Yields 2 (s, found) next' ∧
      (∀ binding ∈ [("id", ⟨[0], .func (.var 0) (.var 0)⟩), ("x", ⟨[], .number 1⟩)],
        (binding : String × Scheme).2.ty.HasKinds κ) ∧ s.Within κ ∧ found.HasKinds κ ∧
      ρ.Respects κ ∧ .float = ρ.apply found ∧
      ∀ v ∈ [1], (Subst.single 1 .float).apply (κ.leaf v) = ρ.apply (s.apply (κ.leaf v))) ∧
    (∀ ty, ¬HasType ⟨[("id", ⟨[1], .func (.var 1) (.var 1)⟩)]⟩
      (.declaration "view" (.negation (.apply (.var "id") (.integer 1)))) ty) ∧
    ∃ before node after env,
      [.declaration "id" (.function "x" (.var "x")),
        .declaration "view" (.negation (.apply (.var "id") (.integer 1))),
        .declaration "last" (.integer 1)] = before ++ node :: after ∧
      inferTop before = .ok env ∧
      inferTop (before ++ [node]) = .error (.mismatch (.number 4) .bool
        (some (.expression (.negation (.apply (.var "id") (.integer 1)))))) := by
  have hid := Infer.yields_unit_identity .empty "id" "x" 0
  have hview : (Infer.unit ⟨[("id", ⟨[1], .func (.var 1) (.var 1)⟩)]⟩
      (.declaration "view" (.negation (.apply (.var "id") (.integer 1))))).Fails 2
      (.mismatch (.number 4) .bool
        (some (.expression (.negation (.apply (.var "id") (.integer 1)))))) 6 := by
    refine Infer.fails_bind (Infer.fails_bind_of_yields rfl (Infer.fails_bind ?_))
    refine Infer.fails_bind_of_yields (Infer.yields_call_identity rfl 1 3) (Infer.fails_bind ?_)
    have hclash : unify (.number 4) .bool = .error (.mismatch (.number 4) .bool) :=
      (unify_eq_unifyBy _ _).trans rfl
    exact Infer.fails_unify hclash _ 6
  refine ⟨?_, ?_, ?_⟩
  · have hwell : TypeEnv.WellFormed
        ⟨[("id", ⟨[0], .func (.var 0) (.var 0)⟩), ("x", ⟨[], .number 1⟩)]⟩ 2 := by
      refine ⟨⟨fun v => v == 1, ?_⟩, ?_, ?_, ?_⟩ <;>
        simp [Ty.HasKinds, Ty.vars, TypeEnv.freeVars]
    have hid : Scheme.HasInstance ⟨[0], .func (.var 0) (.var 0)⟩ (.func .float .float) := by
      refine ⟨.single 0 .float, fun v image hv => ?_, by simp [Ty.numericVars],
        by simp [Subst.apply]⟩
      simp only [Subst.get?_single, Option.ite_none_right_eq_some] at hv
      simp [hv.1]
    have htyped : HasType
        (TypeEnv.subst ⟨[("id", ⟨[0], .func (.var 0) (.var 0)⟩), ("x", ⟨[], .number 1⟩)]⟩
          (.single 1 .float))
        (.apply (.var "id") (.binary .add (.var "x") (.integer 1))) .float :=
      .apply (.var rfl hid)
        (.arithmetic rfl rfl (.var rfl (Scheme.hasInstance_mono.mpr rfl)) (.integer rfl))
    refine inference_principal.1 _ 2 hwell _ (.single 1 .float) _ (fun v image hv => ?_) ?_ ?_
      htyped
    · simp only [Subst.get?_single, Option.ite_none_right_eq_some] at hv
      simp [hv.1, TypeEnv.freeVars, Ty.vars]
    · simp [Ty.numericVars, Subst.apply, Ty.isNumeric]
    · simp +contextual [Subst.Spares, Ty.vars]
  · exact inference_principal.2.1 [.declaration "id" (.function "x" (.var "x"))] _ _ _
      (inferTop_eq_ok.mpr ⟨2, Infer.yields_units_cons.mpr ⟨_, _, hid, rfl⟩⟩)
      (inferTop_eq_error.mpr ⟨6, Infer.fails_bind_of_yields hid (Infer.fails_bind hview)⟩)
  · exact inference_principal.2.2 _ _
      (inferTop_eq_error.mpr ⟨6, Infer.fails_bind_of_yields hid (Infer.fails_bind hview)⟩)

end Viewlet
