import Viewlet.Proofs.Syntax
import Viewlet.Proofs.Typing.InferenceRun
import Viewlet.Proofs.Typing.Outcome
import Viewlet.Proofs.Typing.UnifierRecursion

namespace Viewlet

namespace Infer

/-- A stage that continues another. -/
def Extends (env : TypeEnv) (next : TyVar) (t : Subst) (κ₁ : Kinding) (next₁ : TyVar) (s : Subst)
    (κ₂ : Kinding) (next₂ : TyVar) : Prop :=
  ∃ r : Subst, s = r.compose t ∧ Advance env next t κ₁ next₁ r κ₂ next₂

section Extending

variable {env : TypeEnv} {κ κ₁ κ₂ κ₃ : Kinding} {next next₁ next₂ next₃ : TyVar} {s t u : Subst}
  {node : Node} {ty : Ty}

theorem Extends.refl (h : Stage env κ next t κ₁ next₁) :
    Extends env next t κ₁ next₁ t κ₁ next₁ :=
  ⟨.empty, by simp, h.idle⟩

theorem Extends.trans (hfits : env.Fits κ next) (hstage : Stage env κ next t κ₁ next₁)
    (h : Extends env next t κ₁ next₁ s κ₂ next₂) (h' : Extends env next s κ₂ next₂ u κ₃ next₃) :
    Extends env next t κ₁ next₁ u κ₃ next₃ := by
  obtain ⟨r, rfl, hr⟩ := h
  obtain ⟨r', rfl, hr'⟩ := h'
  refine ⟨r'.compose r, (Subst.compose_assoc _ _ _).symm, hr.trans hr' fun v hv => ?_⟩
  exact hfits.lt_of_available (Nat.le_trans hstage.le hr.le) hv

theorem Extends.stage (hfits : env.Fits κ next) (hstage : Stage env κ next t κ₁ next₁)
    (h : Extends env next t κ₁ next₁ s κ₂ next₂) : Stage env κ next s κ₂ next₂ := by
  obtain ⟨r, rfl, hr⟩ := h
  exact hstage.advance hfits hr

theorem Settled.extend (hfits : env.Fits κ next) (hstage : Stage env κ next t κ₁ next₁)
    (hty : Settled env next t κ₁ next₁ ty) (h : Extends env next t κ₁ next₁ s κ₂ next₂) :
    Settled env next s κ₂ next₂ (s.apply ty) := by
  obtain ⟨r, rfl, hr⟩ := h
  rw [Subst.apply_compose, hty.apply_eq]
  exact hty.advance hfits hstage hr

theorem Outcome.extend (hfits : env.Fits κ next) (h : Outcome env κ next t κ₁ next₁ node ty)
    (hextends : Extends env next t κ₁ next₁ s κ₂ next₂) :
    Outcome env κ next s κ₂ next₂ node (s.apply ty) := by
  obtain ⟨r, rfl, hr⟩ := hextends
  rw [Subst.apply_compose, h.settled.apply_eq]
  exact h.advance hfits hr

end Extending

namespace Outcome

variable {env : TypeEnv} {κ κ₁ κ₂ : Kinding} {next next₁ next₂ : TyVar} {s₁ s₂ s₃ s₄ t : Subst}
  {callee argument left right body condition branch : Node}
  {calleeTy argumentTy leftTy rightTy bodyTy ty resultTy : Ty} {op : BinOp}
  {name : String}

theorem call (hfits : env.Fits κ next) (hcallee : Outcome env κ next s₁ κ₁ next₁ callee calleeTy)
    (hargument : Outcome (env.subst s₁) κ₁ next₁ s₂ κ₂ next₂ argument argumentTy)
    (hunify : Viewlet.unify (s₂.apply calleeTy) (.func argumentTy (.var next₂)) = .ok s₃) :
    Outcome env κ next ((s₃.compose s₂).compose s₁) (κ₂.update next₂ false) (next₂ + 1)
      (.apply callee argument) (((s₃.compose s₂).compose s₁).apply (.var next₂)) := by
  obtain ⟨hcallee, hargument⟩ := hcallee.pair hfits hargument
  have hresult := hargument.stage.settled_var hfits
  have hcallee := hcallee.draw hfits false
  have hargument := hargument.draw hfits false
  have hfunc := hargument.settled.func hresult
  have hcallee' := hcallee.solve hfits hcallee.settled hfunc hunify
  have hargument' := hargument.solve hfits hcallee.settled hfunc hunify
  rw [apply_eq_of_unify hunify] at hcallee'
  rw [Subst.compose_assoc, Subst.apply_compose, hresult.apply_eq]
  exact hcallee'.apply hargument'

theorem connect (hfits : env.Fits κ next) (hop : op.isLogical = true)
    (hleft : Outcome env κ next s₁ κ₁ next₁ left leftTy)
    (hright : Outcome (env.subst s₁) κ₁ next₁ s₂ κ₂ next₂ right rightTy)
    (hfirst : Viewlet.unify (s₂.apply leftTy) .bool = .ok s₃)
    (hsecond : Viewlet.unify (s₃.apply rightTy) .bool = .ok s₄) :
    Outcome env κ next (((s₄.compose s₃).compose s₂).compose s₁) κ₂ next₂
      (.binary op left right) .bool := by
  obtain ⟨hleft, hright⟩ := hleft.pair hfits hright
  have hleft' := hleft.solve hfits hleft.settled .bool hfirst
  have hright' := hright.solve hfits hleft.settled .bool hfirst
  have hleft'' := hleft'.solve hfits hright'.settled .bool hsecond
  have hright'' := hright'.solve hfits hright'.settled .bool hsecond
  rw [apply_eq_of_unify hfirst] at hleft''
  rw [apply_eq_of_unify hsecond] at hright''
  rw [Subst.compose_assoc, Subst.compose_assoc]
  exact hleft''.logical hop hright''

theorem compute (hfits : env.Fits κ next) (hop : op.isLogical = false)
    (hleft : Outcome env κ next s₁ κ₁ next₁ left leftTy)
    (hright : Outcome (env.subst s₁) κ₁ next₁ s₂ κ₂ next₂ right rightTy)
    (hfirst : Viewlet.unify (s₂.apply leftTy) rightTy = .ok s₃)
    (hsecond : Viewlet.unify (s₃.apply rightTy) (.number next₂) = .ok s₄) :
    Outcome env κ next (((s₄.compose s₃).compose s₂).compose s₁) (κ₂.update next₂ true)
      (next₂ + 1) (.binary op left right) (if op.isComparison then .bool else
        (((s₄.compose s₃).compose s₂).compose s₁).apply (s₃.apply rightTy)) := by
  obtain ⟨hleft, hright⟩ := hleft.pair hfits hright
  have hleft' := hleft.solve hfits hleft.settled hright.settled hfirst
  have hright' := hright.solve hfits hleft.settled hright.settled hfirst
  rw [apply_eq_of_unify hfirst] at hleft'
  have hnumber := hleft'.stage.settled_number hfits
  have hleft' := hleft'.draw hfits true
  have hright' := hright'.draw hfits true
  have hleft'' := hleft'.solve hfits hright'.settled hnumber hsecond
  have hright'' := hright'.solve hfits hright'.settled hnumber hsecond
  have hnumeric : (s₄.apply (s₃.apply rightTy)).isNumeric = true := by
    rw [apply_eq_of_unify hsecond]
    exact (within_of_unify hright'.settled.kinds hnumber.kinds hsecond).respects _ (by simp)
  rw [Subst.compose_assoc, Subst.compose_assoc, Subst.apply_compose s₄, hright'.settled.apply_eq]
  cases hcomparison : op.isComparison with
  | true => exact hleft''.comparison hcomparison hnumeric hright''
  | false =>
      exact hleft''.arithmetic (BinOp.isArithmetic_of_not hop hcomparison) hnumeric hright''

theorem declare (hfits : env.Fits κ next)
    (hbody : Outcome (env.insert name ⟨[], .var next⟩) (κ.update next false) (next + 1) s₁ κ₁ next₁
      body bodyTy) (hunify : Viewlet.unify (s₁.apply (.var next)) bodyTy = .ok s₂) :
    Outcome env κ next (s₂.compose s₁) κ₁ next₁ (.declaration name body)
      ((s₂.compose s₁).apply bodyTy) := by
  have hself := hbody.stage.settled_inserted hfits
  have hbody' := hbody.solve (hfits.insert name) hself hbody.settled hunify
  rw [Subst.apply_compose, hbody.settled.apply_eq]
  refine hbody'.declaration ?_
  rw [Subst.apply_compose, apply_eq_of_unify hunify]

theorem meet (hfits : env.Fits κ next) (h : Outcome env κ next s₁ κ₁ next₁ condition ty)
    (hunify : Viewlet.unify ty .bool = .ok s₂) :
    Outcome env κ next (s₂.compose s₁) κ₁ next₁ condition .bool := by
  have h' := h.solve hfits h.settled .bool hunify
  rwa [apply_eq_of_unify hunify] at h'

theorem join (hfits : env.Fits κ next) (hstage : Stage env κ next t κ₁ next₁)
    (hresult : Settled env next t κ₁ next₁ (t.apply resultTy))
    (h : Outcome (env.subst t) κ₁ next₁ s₁ κ₂ next₂ branch ty)
    (hunify : Viewlet.unify ((s₁.compose t).apply resultTy) ty = .ok s₂) :
    Outcome env κ next (s₂.compose (s₁.compose t)) κ₂ next₂ branch
        ((s₂.compose (s₁.compose t)).apply resultTy) ∧
      Advance env next t κ₁ next₁ (s₂.compose s₁) κ₂ next₂ := by
  have hbranch := h.of_part hfits hstage
  have hpart := hstage.advance_of_part hfits h.stage
  have hresult := hresult.advance hfits hstage hpart
  rw [← Subst.apply_compose] at hresult
  have hbranch' := hbranch.solve hfits hresult hbranch.settled hunify
  rw [← apply_eq_of_unify hunify, ← Subst.apply_compose] at hbranch'
  refine ⟨hbranch', hpart.trans (hresult.unify hbranch.stage hbranch.settled hunify) ?_⟩
  exact fun v hv => hfits.lt_of_available hbranch.stage.le hv

end Outcome

/-- What is inferred for the node is found about it, from every environment that fits. -/
def SoundAt (node : Node) : Prop :=
  ∀ {env κ next s ty next'}, TypeEnv.Fits env κ next →
    (Infer.node env node).Yields next (s, ty) next' → ∃ κ', Outcome env κ next s κ' next' node ty

section Runs

variable {env : TypeEnv} {κ κ₁ : Kinding} {next next₁ next₂ : TyVar} {s t : Subst} {note : Note}
  {conditions branches : List Node} {resultTy : Ty}

theorem exists_outcome_conditions (hsound : ∀ condition ∈ conditions, SoundAt condition)
    (hfits : env.Fits κ next) (hstage : Stage env κ next t κ₁ next₁)
    (hrun : (conditionsFrom env note t conditions).Yields next₁ s next₂) :
    ∃ κ₂, Extends env next t κ₁ next₁ s κ₂ next₂ ∧
      ∀ condition ∈ conditions, Outcome env κ next s κ₂ next₂ condition .bool := by
  induction conditions generalizing t κ₁ next₁ with
  | nil =>
      obtain ⟨rfl, rfl⟩ := yields_conditions_nil.mp hrun
      exact ⟨κ₁, .refl hstage, fun condition hmem => absurd hmem List.not_mem_nil⟩
  | cons condition rest ih =>
      obtain ⟨s₁, ty, next', s₂, hnode, hunify, hrest⟩ := yields_conditions_cons.mp hrun
      obtain ⟨κ', h⟩ := hsound condition List.mem_cons_self (hstage.fits hfits) hnode
      have hpart := h.meet (hstage.fits hfits) hunify
      have hcondition := hpart.of_part hfits hstage
      have hextends : Extends env next t κ₁ next₁ _ κ' next' :=
        ⟨_, rfl, hstage.advance_of_part hfits hpart.stage⟩
      rw [← Subst.compose_assoc] at hrest
      obtain ⟨κ₂, hextends', hfound⟩ :=
        ih (fun node hmem => hsound node (List.mem_cons_of_mem _ hmem)) hcondition.stage hrest
      refine ⟨κ₂, hextends.trans hfits hstage hextends', fun node hmem => ?_⟩
      rcases List.mem_cons.mp hmem with rfl | hmem
      · exact hcondition.extend hfits hextends'
      · exact hfound node hmem

theorem exists_outcome_branches (hsound : ∀ branch ∈ branches, SoundAt branch)
    (hfits : env.Fits κ next) (hstage : Stage env κ next t κ₁ next₁)
    (hresult : Settled env next t κ₁ next₁ (t.apply resultTy))
    (hrun : (branchesFrom env note resultTy t branches).Yields next₁ s next₂) :
    ∃ κ₂, Extends env next t κ₁ next₁ s κ₂ next₂ ∧
      ∀ branch ∈ branches, Outcome env κ next s κ₂ next₂ branch (s.apply resultTy) := by
  induction branches generalizing t κ₁ next₁ with
  | nil =>
      obtain ⟨rfl, rfl⟩ := yields_branches_nil.mp hrun
      exact ⟨κ₁, .refl hstage, fun branch hmem => absurd hmem List.not_mem_nil⟩
  | cons branch rest ih =>
      obtain ⟨s₁, ty, next', s₂, hnode, hunify, hrest⟩ := yields_branches_cons.mp hrun
      obtain ⟨κ', h⟩ := hsound branch List.mem_cons_self (hstage.fits hfits) hnode
      obtain ⟨hbranch, hstep⟩ := h.join hfits hstage hresult hunify
      have hextends : Extends env next t κ₁ next₁ _ κ' next' :=
        ⟨_, (Subst.compose_assoc _ _ _).symm, hstep⟩
      obtain ⟨κ₂, hextends', hfound⟩ :=
        ih (fun node hmem => hsound node (List.mem_cons_of_mem _ hmem)) hbranch.stage
          hbranch.settled hrest
      refine ⟨κ₂, hextends.trans hfits hstage hextends', fun node hmem => ?_⟩
      rcases List.mem_cons.mp hmem with rfl | hmem
      · obtain ⟨r, rfl, hr⟩ := hextends'
        rw [Subst.apply_compose]
        exact hbranch.advance hfits hr
      · exact hfound node hmem

end Runs

/-- Inference is sound: an induction over the node, from any environment that fits. -/
theorem soundAt (node : Node) : SoundAt node := by
  induction node with
  | integer value =>
      intro env κ next s ty next' hfits h
      obtain ⟨rfl, rfl, rfl⟩ := yields_integer.mp h
      exact ⟨_, .integer hfits value⟩
  | float value =>
      intro env κ next s ty next' hfits h
      obtain ⟨rfl, rfl, rfl⟩ := yields_float.mp h
      exact ⟨_, .float hfits value⟩
  | boolean value =>
      intro env κ next s ty next' hfits h
      obtain ⟨rfl, rfl, rfl⟩ := yields_boolean.mp h
      exact ⟨_, .boolean hfits value⟩
  | noValue =>
      intro env κ next s ty next' hfits h
      exact absurd h yields_throw
  | binary op left right ihl ihr =>
      intro env κ next s ty next' hfits h
      cases hop : op.isLogical with
      | true =>
          obtain ⟨s₁, leftTy, next₁, s₂, rightTy, s₃, s₄, hleft, hright, hfirst, hsecond, rfl,
            rfl⟩ := (yields_logical hop).mp h
          obtain ⟨κ₁, hleft⟩ := ihl hfits hleft
          obtain ⟨κ₂, hright⟩ := ihr (hleft.stage.fits hfits) hright
          exact ⟨_, hleft.connect hfits hop hright hfirst hsecond⟩
      | false =>
          obtain ⟨s₁, leftTy, next₁, s₂, rightTy, next₂, s₃, s₄, hleft, hright, hfirst, hsecond,
            rfl, rfl, rfl⟩ := (yields_numeric hop).mp h
          obtain ⟨κ₁, hleft⟩ := ihl hfits hleft
          obtain ⟨κ₂, hright⟩ := ihr (hleft.stage.fits hfits) hright
          exact ⟨_, hleft.compute hfits hop hright hfirst hsecond⟩
  | negation operand ih =>
      intro env κ next s ty next' hfits h
      obtain ⟨s₁, operandTy, s₂, hoperand, hunify, rfl, rfl⟩ := yields_negation.mp h
      obtain ⟨κ₁, hoperand⟩ := ih hfits hoperand
      exact ⟨_, (hoperand.meet hfits hunify).negation⟩
  | ifElse conditions branches ihc ihb =>
      intro env κ next s ty next' hfits h
      obtain ⟨s₁, next₁, hconditions, hbranches, rfl⟩ := yields_ifElse.mp h
      -- the variable of the result is drawn before anything is inferred
      have hstart := Stage.drawn hfits false
      have hresult := (Stage.refl hfits).settled_var hfits
      obtain ⟨κ₁, hextends, hconditions⟩ :=
        exists_outcome_conditions ihc hfits hstart hconditions
      have hresult := hresult.extend hfits hstart hextends
      have hmiddle := hextends.stage hfits hstart
      obtain ⟨κ₂, hextends', hbranches⟩ :=
        exists_outcome_branches ihb hfits hmiddle hresult hbranches
      have hresult' := hresult.extend hfits hmiddle hextends'
      have happly : s.apply (s₁.apply (.var next)) = s.apply (.var next) := by
        obtain ⟨r, rfl, -⟩ := hextends'
        rw [Subst.apply_compose, Subst.apply_compose, hresult.apply_eq]
      rw [happly] at hresult'
      refine ⟨κ₂, .ifElse (hextends'.stage hfits hmiddle) hresult' (fun condition hmem => ?_)
        hbranches⟩
      exact (hconditions condition hmem).extend hfits hextends'
  | var name =>
      intro env κ next s ty next' hfits h
      obtain ⟨scheme, hscheme, rfl, rfl, rfl⟩ := yields_var.mp h
      exact ⟨_, .var hfits hscheme⟩
  | function parameter body ih =>
      intro env κ next s ty next' hfits h
      obtain ⟨bodyTy, hbody, rfl⟩ := yields_function.mp h
      obtain ⟨κ₁, hbody⟩ := ih (hfits.insert parameter) hbody
      exact ⟨_, .function hfits hbody⟩
  | apply callee argument ihc iha =>
      intro env κ next s ty next' hfits h
      obtain ⟨s₁, calleeTy, next₁, s₂, argumentTy, next₂, s₃, hcallee, hargument, hunify, rfl, rfl,
        rfl⟩ := yields_apply.mp h
      obtain ⟨κ₁, hcallee⟩ := ihc hfits hcallee
      obtain ⟨κ₂, hargument⟩ := iha (hcallee.stage.fits hfits) hargument
      exact ⟨_, hcallee.call hfits hargument hunify⟩
  | declaration name body ih =>
      intro env κ next s ty next' hfits h
      obtain ⟨s₁, bodyTy, s₂, hbody, hunify, rfl, rfl⟩ := yields_declaration.mp h
      obtain ⟨κ₁, hbody⟩ := ih (hfits.insert name) hbody
      exact ⟨_, hbody.declare hfits hunify⟩
  | typeName name =>
      intro env κ next s ty next' hfits h
      exact absurd h yields_throw
  | typeDefinition name parameters constructors =>
      intro env κ next s ty next' hfits h
      exact absurd h yields_throw
  | construction constructor arguments =>
      intro env κ next s ty next' hfits h
      exact absurd h yields_throw

section Programs

variable {env env' : TypeEnv} {κ κ' : Kinding} {next next' : TyVar} {s : Subst} {node : Node}
  {ty ty' : Ty} {name : String}

theorem mem_generalize (hclosed : env.freeVars = []) {v : TyVar} :
    v ∈ (env.generalize ty).vars ↔ v ∈ ty.vars := by
  simp [TypeEnv.generalize, hclosed]

theorem mem_vars_of_closed (hclosed : env.freeVars = []) {binding : String × Scheme}
    (hmem : binding ∈ env.bindings) {v : TyVar} (hv : v ∈ binding.2.ty.vars) :
    v ∈ binding.2.vars := by
  refine Decidable.byContradiction fun hgeneral => ?_
  have hfree := TypeEnv.mem_freeVars.mpr ⟨binding, hmem, hv, hgeneral⟩
  rw [hclosed] at hfree
  exact List.not_mem_nil hfree

theorem Settled.le_of_closed (hclosed : env.freeVars = [])
    (h : Settled env next s κ' next' ty) {v : TyVar} (hv : v ∈ ty.vars) : next ≤ v := by
  rcases (h.vars hv).1 with hfree | ⟨hle, -⟩
  · rw [hclosed] at hfree
    exact absurd hfree List.not_mem_nil
  · exact hle

theorem apply_eq_self (hfits : env.Fits κ next)
    (hbound : ∀ v image, s.get? v = some image → next ≤ v) {binding : String × Scheme}
    (hmem : binding ∈ env.bindings) : s.apply binding.2.ty = binding.2.ty := by
  refine Subst.apply_eq_self fun v hv => ?_
  cases hs : s.get? v with
  | none => rfl
  | some image => exact absurd (hfits.below hmem hv) (Nat.not_lt.mpr (hbound v image hs))

theorem subst_eq_self (hfits : env.Fits κ next)
    (hbound : ∀ v image, s.get? v = some image → next ≤ v) : env.subst s = env := by
  refine (TypeEnv.subst_congr fun binding hmem => ?_).trans env.subst_empty
  rw [Subst.apply_empty, apply_eq_self hfits hbound hmem]

theorem Outcome.hasType_of_instance (hfits : env.Fits κ next) (hclosed : env.freeVars = [])
    (h : Outcome env κ next s κ' next' node ty)
    (hinstance : (env.generalize ty).HasInstance ty') : HasType env node ty' := by
  obtain ⟨ι, hι, hnumeric, rfl⟩ := hinstance
  have hmem : ∀ v image, ι.get? v = some image → v ∈ ty.vars :=
    fun v image hv => (mem_generalize hclosed).mp (hι v image hv)
  have hnew : ∀ v image, ι.get? v = some image → next ≤ v :=
    fun v image hv => h.settled.le_of_closed hclosed (hmem v image hv)
  have hs : env.subst s = env := by
    refine subst_eq_self hfits fun v image hv => ?_
    rcases h.stage.solved.bound hv with hfree | ⟨hle, -⟩
    · rw [hclosed] at hfree
      exact absurd hfree List.not_mem_nil
    · exact hle
  have hadmits : (env.subst s).Admits κ' ι := by
    rw [hs]
    refine ⟨fun v hkind => ?_, fun {binding} hbinding v image hv => ?_⟩
    · cases hv : ι.get? v with
      | none => simp [Subst.apply, hv, Ty.isNumeric]
      | some image =>
          exact hnumeric v ((Ty.mem_numericVars_of_hasKinds h.settled.kinds).mpr
            ⟨hmem v image hv, hkind⟩)
    · have hge := Nat.not_lt.mpr (hnew v image hv)
      exact ⟨fun hgeneral => hge (hfits.generalBelow hbinding hgeneral),
        fun hoccurs => absurd (hfits.below hbinding hoccurs) hge⟩
  have htyped := h.typed ι hadmits
  rwa [hs, subst_eq_self hfits hnew] at htyped

theorem Outcome.freeVars_insert (hclosed : env.freeVars = []) :
    (env.insert name (env.generalize ty)).freeVars = [] := by
  refine List.eq_nil_iff_forall_not_mem.mpr fun v hv => ?_
  obtain ⟨binding, hmem, hv, hgeneral⟩ := TypeEnv.mem_freeVars.mp hv
  rcases TypeEnv.mem_insert hmem with rfl | hmem
  · exact hgeneral ((mem_generalize hclosed).mpr hv)
  · exact hgeneral (mem_vars_of_closed hclosed hmem hv)

theorem Outcome.fits_insert (hfits : env.Fits κ next) (hclosed : env.freeVars = [])
    (h : Outcome env κ next s κ' next' node ty) :
    (env.insert name (env.generalize ty)).Fits κ' next' where
  fresh := h.stage.fresh
  kinds hmem := by
    rcases TypeEnv.mem_insert hmem with rfl | hmem
    · exact h.settled.kinds
    · exact (hfits.kinds hmem).congr fun v hv => h.stage.kinds v (hfits.below hmem hv)
  below hmem hv := by
    rcases TypeEnv.mem_insert hmem with rfl | hmem
    · exact hfits.lt_of_available h.stage.le (h.settled.vars hv).1
    · exact Nat.lt_of_lt_of_le (hfits.below hmem hv) h.stage.le
  generalBelow hmem hv := by
    rcases TypeEnv.mem_insert hmem with rfl | hmem
    · exact hfits.lt_of_available h.stage.le (h.settled.vars ((mem_generalize hclosed).mp hv)).1
    · exact Nat.lt_of_lt_of_le (hfits.generalBelow hmem hv) h.stage.le
  apart _ _ hfree := by
    rw [Outcome.freeVars_insert hclosed] at hfree
    exact List.not_mem_nil hfree

/-- Every scheme of the environment is general over all its variables, and these are below
the counter. -/
def ClosedAt (env : TypeEnv) (next : TyVar) : Prop :=
  ∃ κ, env.Fits κ next ∧ env.freeVars = []

theorem closedAt_empty (next : TyVar) : ClosedAt .empty next := by
  refine ⟨fun _ => false, ⟨fun _ _ => rfl, ?_, ?_, ?_, ?_⟩, rfl⟩ <;>
    exact fun hmem => absurd hmem List.not_mem_nil

theorem closedAt_of_unit (hclosed : ClosedAt env next)
    (h : (unit env node).Yields next env' next') :
    ClosedAt env' next' ∧ ((node.entry? = none ∧ env' = env) ∨
      ∃ name scheme, node.entry? = some name ∧ env' = env.insert name scheme ∧
        ∀ ty, scheme.HasInstance ty → HasType env node ty) := by
  obtain ⟨κ, hfits, hfree⟩ := hclosed
  rcases yields_unit.mp h with ⟨hentry, rfl, rfl⟩ | ⟨name, s, ty, hentry, hnode, rfl⟩
  · exact ⟨⟨κ, hfits, hfree⟩, .inl ⟨hentry, rfl⟩⟩
  · obtain ⟨κ', hfound⟩ := soundAt node hfits hnode
    refine ⟨⟨κ', hfound.fits_insert hfits hfree, Outcome.freeVars_insert hfree⟩, .inr ?_⟩
    exact ⟨name, _, hentry, rfl, fun _ hinstance =>
      hfound.hasType_of_instance hfits hfree hinstance⟩

theorem closedAt_of_units {nodes : List Node} (hclosed : ClosedAt env next)
    (h : (units env nodes).Yields next env' next') : ClosedAt env' next' := by
  induction nodes generalizing env next with
  | nil =>
      obtain ⟨rfl, rfl⟩ := yields_pure.mp h
      exact hclosed
  | cons first rest ih =>
      obtain ⟨env₁, next₁, hfirst, hrest⟩ := yields_units_cons.mp h
      exact ih (closedAt_of_unit hclosed hfirst).1 hrest

/-- A scheme in the environment after some units was there before and none of them replaced it,
or it belongs to the last of them with its name. -/
theorem entered_of_units {nodes : List Node} (hclosed : ClosedAt env next)
    (h : (units env nodes).Yields next env' next') {scheme : Scheme}
    (hmem : (name, scheme) ∈ env'.bindings) :
    ((name, scheme) ∈ env.bindings ∧ ∀ node ∈ nodes, node.entry? ≠ some name) ∨
      ∃ before node after earlier middle, nodes = before ++ node :: after ∧
        (units env before).Yields next earlier middle ∧ node.entry? = some name ∧
        (∀ later ∈ after, later.entry? ≠ some name) ∧
        ∀ ty, scheme.HasInstance ty → HasType earlier node ty := by
  induction nodes generalizing env next with
  | nil =>
      rw [units, yields_pure] at h
      obtain ⟨rfl, rfl⟩ := h
      exact .inl ⟨hmem, fun node hmem => absurd hmem List.not_mem_nil⟩
  | cons first rest ih =>
      obtain ⟨env₁, next₁, hfirst, hrest⟩ := yields_units_cons.mp h
      obtain ⟨hclosed₁, hunit⟩ := closedAt_of_unit hclosed hfirst
      rcases ih hclosed₁ hrest with ⟨hmem₁, hother⟩ |
        ⟨before, node, after, earlier, middle, rfl, hbefore, hentry, hafter, htyped⟩
      · rcases hunit with ⟨hentry, rfl⟩ | ⟨name', scheme', hentry, rfl, htyped⟩
        · refine .inl ⟨hmem₁, fun node hnode => ?_⟩
          rcases List.mem_cons.mp hnode with rfl | hnode
          · simp [hentry]
          · exact hother node hnode
        · rcases List.mem_cons.mp hmem₁ with heq | hold
          · obtain ⟨rfl, rfl⟩ := Prod.mk.inj heq
            exact .inr ⟨[], first, rest, env, next, rfl, by simp [units], hentry, hother, htyped⟩
          · obtain ⟨hold, hne⟩ := List.mem_filter.mp hold
            refine .inl ⟨hold, fun node hnode => ?_⟩
            rcases List.mem_cons.mp hnode with rfl | hnode
            · rw [hentry]
              rintro ⟨⟩
              simp at hne
            · exact hother node hnode
      · exact .inr ⟨first :: before, node, after, earlier, middle, rfl,
          yields_units_cons.mpr ⟨env₁, next₁, hfirst, hbefore⟩, hentry, hafter, htyped⟩

end Programs

section Identity

variable {env : TypeEnv}

theorem yields_unit_identity (env : TypeEnv) (name parameter : String) (next : TyVar) :
    (unit env (.declaration name (.function parameter (.var parameter)))).Yields next
      (env.insert name (env.generalize (.func (.var (next + 1)) (.var (next + 1)))))
      (next + 2) := by
  have hbody : (node (env.insert name ⟨[], .var next⟩)
      (.function parameter (.var parameter))).Yields (next + 1)
      (.empty, .func (.var (next + 1)) (.var (next + 1))) (next + 2) := by
    refine yields_function.mpr ⟨_, yields_var.mpr ⟨⟨[], .var (next + 1)⟩, ?_, rfl, rfl, rfl⟩, rfl⟩
    rw [TypeEnv.get?_insert, if_pos rfl]
  have hself : Viewlet.unify (.var next) (.func (.var (next + 1)) (.var (next + 1))) =
      .ok (.single next (.func (.var (next + 1)) (.var (next + 1)))) := by
    simp [unify_eq_unifyBy, Ty.unifyBy, Ty.equate, Ty.vars]
  refine yields_unit.mpr (.inr ⟨name, _, _, rfl, yields_declaration.mpr
    ⟨_, _, _, hbody, hself, rfl, rfl⟩, ?_⟩)
  simp [Subst.apply]

theorem yields_call_identity {name : String} {v : TyVar}
    (h : env.get? name = some ⟨[v], .func (.var v) (.var v)⟩) (value : Int64) (next : TyVar) :
    (node env (.apply (.var name) (.integer value))).Yields next
      ((Subst.single (next + 2) (.number (next + 1))).compose (.single next (.number (next + 1))),
        .number (next + 1)) (next + 3) := by
  have hcallee : (node env (.var name)).Yields next (.empty, .func (.var next) (.var next))
      (next + 1) := by
    refine yields_var.mpr ⟨_, h, rfl, ?_, rfl⟩
    simp [Scheme.instanceFrom, Subst.ofList, Subst.apply, Subst.get?_insert, Ty.numericVars]
  have hparameters : Viewlet.unify (.var next) (.number (next + 1)) =
      .ok (.single next (.number (next + 1))) := by
    simp [unify_eq_unifyBy, Ty.unifyBy, Ty.equate, Ty.vars]
  have hresults : Viewlet.unify ((Subst.single next (.number (next + 1))).apply (.var next))
      ((Subst.single next (.number (next + 1))).apply (.var (next + 2))) =
      .ok (.single (next + 2) (.number (next + 1))) := by
    simp [unify_eq_unifyBy, Ty.unifyBy, Ty.equate, Ty.vars, Subst.apply]
  refine yields_apply.mpr ⟨_, _, _, .empty, .number (next + 1), next + 2, _, hcallee,
    yields_integer.mpr ⟨rfl, rfl, rfl⟩, unify_func hparameters hresults, ?_, ?_, rfl⟩
  · simp
  · rw [Subst.apply_compose]
    simp [Subst.apply]

end Identity

end Infer

namespace TypeEnv

/-- Every variable is used at one kind, all are below the counter, and those over which a
scheme is general are not free in the environment. -/
structure WellFormed (env : TypeEnv) (next : TyVar) : Prop where
  kinds : ∃ κ : Kinding, ∀ binding ∈ env.bindings, binding.2.ty.HasKinds κ
  below : ∀ binding ∈ env.bindings, ∀ v ∈ binding.2.ty.vars, v < next
  generalBelow : ∀ binding ∈ env.bindings, ∀ v ∈ binding.2.vars, v < next
  apart : ∀ binding ∈ env.bindings, ∀ v ∈ binding.2.vars, v ∉ env.freeVars

theorem WellFormed.exists_fits {env : TypeEnv} {next : TyVar} (h : env.WellFormed next) :
    ∃ κ, env.Fits κ next := by
  obtain ⟨κ, hκ⟩ := h.kinds
  refine ⟨fun v => decide (v < next) && κ v, fun v hv => ?_, fun hmem => ?_,
    fun hmem hv => h.below _ hmem _ hv, fun hmem hv => h.generalBelow _ hmem _ hv,
    fun hmem hv => h.apart _ hmem _ hv⟩
  · simp [Nat.not_lt.mpr hv]
  · exact (hκ _ hmem).congr fun v hv => by simp [h.below _ hmem v hv]

end TypeEnv

/-- What is inferred for a node is a type that it has, and the schemes inferred for a program
stand for types that their units have under the schemes entered before. -/
theorem inference_sound :
    (∀ (env : TypeEnv) (next : TyVar), env.WellFormed next →
      ∀ (node : Node) (s : Subst) (ty : Ty) (next' : TyVar),
        (Infer.node env node).Yields next (s, ty) next' → HasType (env.subst s) node ty) ∧
    (∀ (nodes : List Node) (env : TypeEnv), inferTop nodes = .ok env →
      ∀ name scheme, (name, scheme) ∈ env.bindings →
        ∃ before node after earlier, nodes = before ++ node :: after ∧
          inferTop before = .ok earlier ∧ node.entry? = some name ∧
          (∀ later ∈ after, later.entry? ≠ some name) ∧
          ∀ ty, scheme.HasInstance ty → HasType earlier node ty) := by
  constructor
  · intro env next hwell node s ty next' hrun
    obtain ⟨κ, hfits⟩ := hwell.exists_fits
    obtain ⟨κ', hfound⟩ := Infer.soundAt node hfits hrun
    exact hfound.hasType
  · intro nodes env hrun name scheme hmem
    obtain ⟨next, hunits⟩ := inferTop_eq_ok.mp hrun
    rcases Infer.entered_of_units (Infer.closedAt_empty 0) hunits hmem with ⟨hempty, -⟩ |
      ⟨before, node, after, earlier, middle, hnodes, hbefore, hentry, hafter, htyped⟩
    · exact absurd hempty List.not_mem_nil
    · exact ⟨before, node, after, earlier, hnodes, inferTop_eq_ok.mpr ⟨middle, hbefore⟩, hentry,
        hafter, htyped⟩

/-- A sum that makes a variable of the environment numeric, through an instance of a general
scheme; and a program whose second unit uses the first. -/
theorem inference_sound_identity :
    HasType ⟨[("id", ⟨[0], .func (.var 0) (.var 0)⟩), ("x", ⟨[], .number 5⟩)]⟩
      (.binary .add (.apply (.var "id") (.var "x")) (.integer 1)) (.number 5) ∧
    ∃ before node after earlier,
      [.declaration "id" (.function "x" (.var "x")),
        .declaration "view" (.apply (.var "id") (.integer 1))] = before ++ node :: after ∧
      inferTop before = .ok earlier ∧ node.entry? = some "view" ∧
      (∀ later ∈ after, later.entry? ≠ some "view") ∧
      ∀ ty, Scheme.HasInstance ⟨[4], .number 4⟩ ty → HasType earlier node ty := by
  constructor
  · have hwell : TypeEnv.WellFormed
        ⟨[("id", ⟨[0], .func (.var 0) (.var 0)⟩), ("x", ⟨[], .var 1⟩)]⟩ 2 := by
      refine ⟨⟨fun _ => false, ?_⟩, ?_, ?_, ?_⟩ <;>
        simp [Ty.HasKinds, Ty.vars, TypeEnv.freeVars]
    have hcall : (Infer.node ⟨[("id", ⟨[0], .func (.var 0) (.var 0)⟩), ("x", ⟨[], .var 1⟩)]⟩
        (.apply (.var "id") (.var "x"))).Yields 2 (⟨[(2, .var 3), (1, .var 3)]⟩, .var 3) 4 :=
      Infer.yields_apply.mpr ⟨.empty, .func (.var 2) (.var 2), 3, .empty, .var 1, 3,
        (Subst.single 1 (.var 3)).compose (.single 2 (.var 1)),
        Infer.yields_var.mpr ⟨_, rfl, rfl, rfl, rfl⟩, Infer.yields_var.mpr ⟨_, rfl, rfl, rfl, rfl⟩,
        unify_func ((unify_eq_unifyBy _ _).trans rfl) ((unify_eq_unifyBy _ _).trans rfl),
        rfl, rfl, rfl⟩
    refine inference_sound.1 _ 2 hwell
      (.binary .add (.apply (.var "id") (.var "x")) (.integer 1))
      ⟨[(2, .number 5), (1, .number 5), (3, .number 5), (4, .number 5)]⟩ _ 6 ?_
    exact (Infer.yields_numeric rfl).mpr ⟨_, _, _, .empty, .number 4, 5, .single 3 (.number 4),
      .single 4 (.number 5), hcall, Infer.yields_integer.mpr ⟨rfl, rfl, rfl⟩,
      (unify_eq_unifyBy _ _).trans rfl, (unify_eq_unifyBy _ _).trans rfl, rfl, rfl, rfl⟩
  · have hview : (Infer.unit ⟨[("id", ⟨[1], .func (.var 1) (.var 1)⟩)]⟩
        (.declaration "view" (.apply (.var "id") (.integer 1)))).Yields 2
        ⟨[("view", ⟨[4], .number 4⟩), ("id", ⟨[1], .func (.var 1) (.var 1)⟩)]⟩ 6 :=
      Infer.yields_unit.mpr (.inr ⟨"view", _, _, rfl, Infer.yields_declaration.mpr
        ⟨_, _, .single 2 (.number 4), Infer.yields_call_identity rfl 1 3,
          (unify_eq_unifyBy _ _).trans rfl, rfl, rfl⟩, rfl⟩)
    have hunits : inferTop [.declaration "id" (.function "x" (.var "x")),
        .declaration "view" (.apply (.var "id") (.integer 1))] =
        .ok ⟨[("view", ⟨[4], .number 4⟩), ("id", ⟨[1], .func (.var 1) (.var 1)⟩)]⟩ :=
      inferTop_eq_ok.mpr ⟨6, Infer.yields_units_cons.mpr ⟨_, _,
        Infer.yields_unit_identity .empty "id" "x" 0,
        Infer.yields_units_cons.mpr ⟨_, _, hview, rfl⟩⟩⟩
    exact inference_sound.2 _ _ hunits "view" _ List.mem_cons_self

end Viewlet
