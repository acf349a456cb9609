import Viewlet.Proofs.Typing.Declarative
import Viewlet.Proofs.Typing.Unification

/-!
Which variables an inference can touch. The free variables of the environment and those
drawn since the start are available; all substitutions bind and put in available variables
only, so the variables over which a scheme is general are neither replaced nor captured.
-/

namespace Viewlet

/-- The environment obeys the kinding, which makes no variable numeric that is not drawn yet;
its variables are below the counter, and none over which a scheme is general is free in it. -/
structure TypeEnv.Fits (env : TypeEnv) (κ : Kinding) (next : TyVar) : Prop where
  fresh : ∀ v, next ≤ v → κ v = false
  kinds : ∀ {binding}, binding ∈ env.bindings → binding.2.ty.HasKinds κ
  below : ∀ {binding v}, binding ∈ env.bindings → v ∈ binding.2.ty.vars → v < next
  generalBelow : ∀ {binding v}, binding ∈ env.bindings → v ∈ binding.2.vars → v < next
  apart : ∀ {binding v}, binding ∈ env.bindings → v ∈ binding.2.vars → v ∉ env.freeVars

/-- A variable that is free in the environment or drawn since the counter was `next`. -/
def TypeEnv.Available (env : TypeEnv) (next next' v : TyVar) : Prop :=
  v ∈ env.freeVars ∨ (next ≤ v ∧ v < next')

/-- None of the variables over which the scheme is general is replaced or put into its type. -/
def Subst.Spares (θ : Subst) (scheme : Scheme) : Prop :=
  ∀ v image, θ.get? v = some image →
    v ∉ scheme.vars ∧ (v ∈ scheme.ty.vars → ∀ w ∈ image.vars, w ∉ scheme.vars)

namespace TypeEnv

theorem Fits.lt_of_free {env : TypeEnv} {κ : Kinding} {next v : TyVar} (h : env.Fits κ next)
    (hv : v ∈ env.freeVars) : v < next := by
  obtain ⟨binding, hmem, hv, -⟩ := mem_freeVars.mp hv
  exact h.below hmem hv

theorem Fits.lt_of_available {env : TypeEnv} {κ : Kinding} {next next' v : TyVar}
    (h : env.Fits κ next) (hle : next ≤ next') (hv : env.Available next next' v) : v < next' := by
  rcases hv with hv | ⟨-, hv⟩
  · exact Nat.lt_of_lt_of_le (h.lt_of_free hv) hle
  · exact hv

theorem Fits.not_available {env : TypeEnv} {κ : Kinding} {next next' v : TyVar}
    {binding : String × Scheme} (h : env.Fits κ next) (hmem : binding ∈ env.bindings)
    (hv : v ∈ binding.2.vars) : ¬env.Available next next' v := by
  rintro (hfree | ⟨hle, -⟩)
  · exact h.apart hmem hv hfree
  · exact absurd (h.generalBelow hmem hv) (Nat.not_lt.mpr hle)

theorem Available.mono {env : TypeEnv} {next middle next' v : TyVar}
    (hv : env.Available next middle v) (hle : middle ≤ next') : env.Available next next' v :=
  hv.imp_right fun h => ⟨h.1, Nat.lt_of_lt_of_le h.2 hle⟩

theorem mem_freeVars_insert {env : TypeEnv} {name : String} {ty : Ty} {v : TyVar}
    (hv : v ∈ (env.insert name ⟨[], ty⟩).freeVars) : v ∈ ty.vars ∨ v ∈ env.freeVars := by
  obtain ⟨binding, hmem, hv, hgeneral⟩ := mem_freeVars.mp hv
  rcases mem_insert hmem with rfl | hmem
  · exact .inl hv
  · exact .inr (mem_freeVars.mpr ⟨binding, hmem, hv, hgeneral⟩)

theorem Fits.insert {env : TypeEnv} {κ : Kinding} {next : TyVar} (h : env.Fits κ next)
    (name : String) : (env.insert name ⟨[], .var next⟩).Fits (κ.update next false) (next + 1) where
  fresh v hv := by
    rw [Kinding.update_of_ne (Nat.ne_of_gt hv)]
    exact h.fresh v (Nat.le_of_succ_le hv)
  kinds {binding} hmem := by
    rcases mem_insert hmem with rfl | hmem
    · simp [Ty.HasKinds]
    · refine (h.kinds hmem).congr fun v hv => ?_
      exact Kinding.update_of_ne (Nat.ne_of_lt (h.below hmem hv))
  below {binding v} hmem hv := by
    rcases mem_insert hmem with rfl | hmem
    · have hv : v = next := by simpa [Ty.vars] using hv
      exact hv ▸ Nat.lt_succ_self v
    · exact Nat.lt_succ_of_lt (h.below hmem hv)
  generalBelow {binding v} hmem hv := by
    rcases mem_insert hmem with rfl | hmem
    · simp at hv
    · exact Nat.lt_succ_of_lt (h.generalBelow hmem hv)
  apart {binding v} hmem hv hfree := by
    rcases mem_insert hmem with rfl | hmem
    · simp at hv
    · rcases mem_freeVars_insert hfree with hfree | hfree
      · have heq : v = next := by simpa [Ty.vars] using hfree
        exact absurd (h.generalBelow hmem hv) (heq ▸ Nat.lt_irrefl v)
      · exact h.apart hmem hv hfree

end TypeEnv

namespace Infer

/-- What has been inferred so far: a substitution of available variables that obeys the
kinds, where variables that were drawn before keep theirs. -/
structure Stage (env : TypeEnv) (κ : Kinding) (next : TyVar) (s : Subst) (κ' : Kinding)
    (next' : TyVar) : Prop where
  le : next ≤ next'
  kinds : ∀ v, v < next → κ' v = κ v
  fresh : ∀ v, next' ≤ v → κ' v = false
  within : s.Within κ'
  solved : s.SolvedOn (env.Available next next')

/-- A substitution by which a stage can be continued. -/
structure Advance (env : TypeEnv) (next : TyVar) (s : Subst) (κ₁ : Kinding) (next₁ : TyVar)
    (t : Subst) (κ₂ : Kinding) (next₂ : TyVar) : Prop where
  le : next₁ ≤ next₂
  kinds : ∀ v, v < next₁ → κ₂ v = κ₁ v
  fresh : ∀ v, next₂ ≤ v → κ₂ v = false
  within : t.Within κ₂
  solved : t.SolvedOn fun v => env.Available next next₂ v ∧ s.get? v = none

/-- A type that a stage has arrived at: it obeys the kinds, and its variables are available
and not replaced. -/
structure Settled (env : TypeEnv) (next : TyVar) (s : Subst) (κ' : Kinding) (next' : TyVar)
    (ty : Ty) : Prop where
  kinds : ty.HasKinds κ'
  vars : ∀ {v}, v ∈ ty.vars → env.Available next next' v ∧ s.get? v = none

theorem Settled.apply_eq {env : TypeEnv} {next next' : TyVar} {s : Subst} {κ' : Kinding} {ty : Ty}
    (h : Settled env next s κ' next' ty) : s.apply ty = ty :=
  Subst.apply_eq_self fun _ hv => (h.vars hv).2

theorem Settled.bool {env : TypeEnv} {next next' : TyVar} {s : Subst} {κ' : Kinding} :
    Settled env next s κ' next' .bool :=
  ⟨trivial, fun hv => by simp [Ty.vars] at hv⟩

theorem Settled.func {env : TypeEnv} {next next' : TyVar} {s : Subst} {κ' : Kinding}
    {parameter result : Ty} (hp : Settled env next s κ' next' parameter)
    (hr : Settled env next s κ' next' result) :
    Settled env next s κ' next' (.func parameter result) where
  kinds := ⟨hp.kinds, hr.kinds⟩
  vars hv := by
    rcases List.mem_append.mp hv with hv | hv
    · exact hp.vars hv
    · exact hr.vars hv

section Advancing

variable {env : TypeEnv} {κ κ₁ κ₂ : Kinding} {next next₁ next₂ : TyVar} {s t : Subst} {ty : Ty}

theorem Stage.refl (hfits : env.Fits κ next) : Stage env κ next .empty κ next where
  le := Nat.le_refl _
  kinds _ _ := rfl
  fresh := hfits.fresh
  within := Subst.within_empty κ
  solved := Subst.solvedOn_empty _

theorem Stage.not_binds (hfits : env.Fits κ next) (hstage : Stage env κ next s κ₁ next₁)
    {v : TyVar} (hv : next₁ ≤ v) : s.get? v = none := by
  cases hs : s.get? v with
  | none => rfl
  | some image =>
      have hlt := hfits.lt_of_available hstage.le (hstage.solved.bound hs)
      exact absurd hlt (Nat.not_lt.mpr hv)

theorem Stage.advance (hfits : env.Fits κ next) (hstage : Stage env κ next s κ₁ next₁)
    (h : Advance env next s κ₁ next₁ t κ₂ next₂) :
    Stage env κ next (t.compose s) κ₂ next₂ where
  le := Nat.le_trans hstage.le h.le
  kinds v hv := (h.kinds v (Nat.lt_of_lt_of_le hv hstage.le)).trans (hstage.kinds v hv)
  fresh := h.fresh
  within := by
    refine h.within.compose fun v image hv => ?_
    have hlt : ∀ w, env.Available next next₁ w → κ₂ w = κ₁ w :=
      fun w hw => h.kinds w (hfits.lt_of_available hstage.le hw)
    obtain ⟨hkinds, hnumeric⟩ := hstage.within v image hv
    refine ⟨hkinds.congr fun w hw => hlt w (hstage.solved.put hv hw).1, ?_⟩
    rw [hlt v (hstage.solved.bound hv)]
    exact hnumeric
  solved := h.solved.compose (hstage.solved.mono fun v hv => hv.mono h.le) fun _ hv => hv

theorem Settled.advance (hfits : env.Fits κ next) (hstage : Stage env κ next s κ₁ next₁)
    (h : Advance env next s κ₁ next₁ t κ₂ next₂) (hty : Settled env next s κ₁ next₁ ty) :
    Settled env next (t.compose s) κ₂ next₂ (t.apply ty) where
  kinds := by
    refine h.within.hasKinds_apply (hty.kinds.congr fun v hv => h.kinds v ?_)
    exact hfits.lt_of_available hstage.le (hty.vars hv).1
  vars {v} hv := by
    rw [Subst.get?_compose_eq_none]
    rcases Subst.mem_vars_apply.mp hv with ⟨hv, hunbound⟩ | ⟨w, hw, image, himage, hv⟩
    · exact ⟨(hty.vars hv).1.mono h.le, hunbound, (hty.vars hv).2⟩
    · obtain ⟨⟨havailable, hs⟩, ht⟩ := h.solved.put himage hv
      exact ⟨havailable, ht, hs⟩

theorem Advance.trans {u : Subst} {κ₃ : Kinding} {next₃ : TyVar}
    (h : Advance env next s κ₁ next₁ t κ₂ next₂)
    (h' : Advance env next (t.compose s) κ₂ next₂ u κ₃ next₃)
    (hbelow : ∀ v, env.Available next next₂ v → v < next₂) :
    Advance env next s κ₁ next₁ (u.compose t) κ₃ next₃ where
  le := Nat.le_trans h.le h'.le
  kinds v hv := (h'.kinds v (Nat.lt_of_lt_of_le hv h.le)).trans (h.kinds v hv)
  fresh := h'.fresh
  within := by
    refine h'.within.compose fun v image hv => ?_
    have hkeep : ∀ w, env.Available next next₂ w → κ₃ w = κ₂ w :=
      fun w hw => h'.kinds w (hbelow w hw)
    obtain ⟨hkinds, hnumeric⟩ := h.within v image hv
    refine ⟨hkinds.congr fun w hw => hkeep w (h.solved.put hv hw).1.1, ?_⟩
    rw [hkeep v (h.solved.bound hv).1]
    exact hnumeric
  solved := by
    refine h'.solved.compose (h.solved.mono fun v hv => ⟨hv.1.mono h'.le, hv.2⟩) fun v hv => ?_
    obtain ⟨ht, hs⟩ := Subst.get?_compose_eq_none.mp hv.2
    exact ⟨⟨hv.1, hs⟩, ht⟩

theorem Stage.toAdvance (h : Stage env κ next s κ₁ next₁) :
    Advance env next .empty κ next s κ₁ next₁ where
  le := h.le
  kinds := h.kinds
  fresh := h.fresh
  within := h.within
  solved := h.solved.mono fun _ hv => ⟨hv, rfl⟩

theorem Advance.keeps (hfits : env.Fits κ next) (hle : next ≤ next₁)
    (h : Advance env next s κ₁ next₁ t κ₂ next₂) (hkinds : ty.HasKinds κ₁)
    (hbelow : ∀ v ∈ ty.vars, v < next₁) :
    (t.apply ty).HasKinds κ₂ ∧ ∀ v ∈ (t.apply ty).vars, v < next₂ := by
  refine ⟨h.within.hasKinds_apply (hkinds.congr fun v hv => h.kinds v (hbelow v hv)), ?_⟩
  intro v hv
  rcases Subst.mem_vars_apply.mp hv with ⟨hv, -⟩ | ⟨w, -, image, himage, hv⟩
  · exact Nat.lt_of_lt_of_le (hbelow v hv) h.le
  · exact hfits.lt_of_available (Nat.le_trans hle h.le) (h.solved.put himage hv).1.1

theorem Settled.unify {left right : Ty} (hstage : Stage env κ next s κ₁ next₁)
    (hleft : Settled env next s κ₁ next₁ left) (hright : Settled env next s κ₁ next₁ right)
    (hunify : Viewlet.unify left right = .ok t) :
    Advance env next s κ₁ next₁ t κ₁ next₁ where
  le := Nat.le_refl _
  kinds _ _ := rfl
  fresh := hstage.fresh
  within := within_of_unify hleft.kinds hright.kinds hunify
  solved := (solvedOn_of_unify hunify).mono fun _ hv => by
    rcases hv with hv | hv
    · exact hleft.vars hv
    · exact hright.vars hv

theorem Stage.idle (hstage : Stage env κ next s κ₁ next₁) :
    Advance env next s κ₁ next₁ .empty κ₁ next₁ where
  le := Nat.le_refl _
  kinds _ _ := rfl
  fresh := hstage.fresh
  within := Subst.within_empty _
  solved := Subst.solvedOn_empty _

theorem Stage.draw (hstage : Stage env κ next s κ₁ next₁) (numeric : Bool) :
    Advance env next s κ₁ next₁ .empty (κ₁.update next₁ numeric) (next₁ + 1) where
  le := Nat.le_succ _
  kinds v hv := Kinding.update_of_ne (Nat.ne_of_lt hv)
  fresh v hv := by
    rw [Kinding.update_of_ne (Nat.ne_of_gt hv)]
    exact hstage.fresh v (Nat.le_of_succ_le hv)
  within := Subst.within_empty _
  solved := Subst.solvedOn_empty _

theorem Stage.settled_drawn (hfits : env.Fits κ next) (hstage : Stage env κ next s κ₁ next₁)
    (numeric : Bool) :
    Settled env next s (κ₁.update next₁ numeric) (next₁ + 1)
      ((κ₁.update next₁ numeric).leaf next₁) where
  kinds := Kinding.hasKinds_leaf _ _
  vars {v} hv := by
    have hv : v = next₁ := by simpa using hv
    subst hv
    exact ⟨.inr ⟨hstage.le, Nat.lt_succ_self v⟩, hstage.not_binds hfits (Nat.le_refl v)⟩

theorem Stage.settled_var (hfits : env.Fits κ next) (hstage : Stage env κ next s κ₁ next₁) :
    Settled env next s (κ₁.update next₁ false) (next₁ + 1) (.var next₁) := by
  have hdrawn := hstage.settled_drawn hfits false
  rwa [Kinding.leaf_of_plain (Kinding.update_same _ _ _)] at hdrawn

theorem Stage.settled_number (hfits : env.Fits κ next) (hstage : Stage env κ next s κ₁ next₁) :
    Settled env next s (κ₁.update next₁ true) (next₁ + 1) (.number next₁) := by
  have hdrawn := hstage.settled_drawn hfits true
  rwa [Kinding.leaf_of_numeric (Kinding.update_same _ _ _)] at hdrawn

theorem Stage.drawn (hfits : env.Fits κ next) (numeric : Bool) :
    Stage env κ next .empty (κ.update next numeric) (next + 1) := by
  simpa using (Stage.refl hfits).advance hfits ((Stage.refl hfits).draw numeric)

theorem Stage.available_of_free (hstage : Stage env κ next s κ₁ next₁)
    {v : TyVar} (hv : v ∈ (env.subst s).freeVars) :
    env.Available next next₁ v ∧ s.get? v = none := by
  obtain ⟨binding, hmem, hv, hgeneral⟩ := TypeEnv.mem_freeVars.mp hv
  obtain ⟨source, hsource, rfl⟩ := TypeEnv.mem_subst.mp hmem
  rcases Subst.mem_vars_apply.mp hv with ⟨hv, hunbound⟩ | ⟨w, hw, image, himage, hv⟩
  · exact ⟨.inl (TypeEnv.mem_freeVars.mpr ⟨source, hsource, hv, hgeneral⟩), hunbound⟩
  · exact hstage.solved.put himage hv

theorem Stage.fits (hfits : env.Fits κ next) (hstage : Stage env κ next s κ₁ next₁) :
    (env.subst s).Fits κ₁ next₁ where
  fresh := hstage.fresh
  kinds {binding} hmem := by
    obtain ⟨source, hsource, rfl⟩ := TypeEnv.mem_subst.mp hmem
    refine hstage.within.hasKinds_apply ((hfits.kinds hsource).congr fun v hv => ?_)
    exact hstage.kinds v (hfits.below hsource hv)
  below {binding v} hmem hv := by
    obtain ⟨source, hsource, rfl⟩ := TypeEnv.mem_subst.mp hmem
    rcases Subst.mem_vars_apply.mp hv with ⟨hv, -⟩ | ⟨w, hw, image, himage, hv⟩
    · exact Nat.lt_of_lt_of_le (hfits.below hsource hv) hstage.le
    · exact hfits.lt_of_available hstage.le (hstage.solved.put himage hv).1
  generalBelow {binding v} hmem hv := by
    obtain ⟨source, hsource, rfl⟩ := TypeEnv.mem_subst.mp hmem
    exact Nat.lt_of_lt_of_le (hfits.generalBelow hsource hv) hstage.le
  apart {binding v} hmem hv hfree := by
    obtain ⟨source, hsource, rfl⟩ := TypeEnv.mem_subst.mp hmem
    exact hfits.not_available hsource hv (hstage.available_of_free hfree).1

theorem Stage.available_of_part (hfits : env.Fits κ next) (hstage : Stage env κ next s κ₁ next₁)
    (hle : next₁ ≤ next₂) {v : TyVar} (hv : (env.subst s).Available next₁ next₂ v) :
    env.Available next next₂ v ∧ s.get? v = none := by
  rcases hv with hv | ⟨hlower, hupper⟩
  · obtain ⟨havailable, hunbound⟩ := hstage.available_of_free hv
    exact ⟨havailable.mono hle, hunbound⟩
  · exact ⟨.inr ⟨Nat.le_trans hstage.le hlower, hupper⟩, hstage.not_binds hfits hlower⟩

theorem Stage.advance_of_part (hfits : env.Fits κ next) (hstage : Stage env κ next s κ₁ next₁)
    (hpart : Stage (env.subst s) κ₁ next₁ t κ₂ next₂) :
    Advance env next s κ₁ next₁ t κ₂ next₂ where
  le := hpart.le
  kinds := hpart.kinds
  fresh := hpart.fresh
  within := hpart.within
  solved := hpart.solved.mono fun _ hv => hstage.available_of_part hfits hpart.le hv

theorem Stage.settled_of_part (hfits : env.Fits κ next) (hstage : Stage env κ next s κ₁ next₁)
    (hle : next₁ ≤ next₂) (hty : Settled (env.subst s) next₁ t κ₂ next₂ ty) :
    Settled env next (t.compose s) κ₂ next₂ ty where
  kinds := hty.kinds
  vars {v} hv := by
    obtain ⟨havailable, ht⟩ := hty.vars hv
    obtain ⟨havailable, hs⟩ := hstage.available_of_part hfits hle havailable
    exact ⟨havailable, Subst.get?_compose_eq_none.mpr ⟨ht, hs⟩⟩

theorem Advance.spares (hfits : env.Fits κ next) (h : Advance env next s κ₁ next₁ t κ₂ next₂)
    {θ : Subst} (hspares : ∀ binding ∈ (env.subst (t.compose s)).bindings, θ.Spares binding.2) :
    ∀ binding ∈ (env.subst s).bindings, (θ.compose t).Spares binding.2 := by
  intro binding hmem v image hv
  obtain ⟨source, hsource, rfl⟩ := TypeEnv.mem_subst.mp hmem
  have hθ : θ.Spares { source.2 with ty := t.apply (s.apply source.2.ty) } := by
    rw [← Subst.apply_compose]
    exact hspares _ (TypeEnv.mem_subst.mpr ⟨source, hsource, rfl⟩)
  have hgeneral : ∀ w, env.Available next next₂ w → w ∉ source.2.vars :=
    fun w hw hgeneral => hfits.not_available hsource hgeneral hw
  rw [Subst.get?_compose] at hv
  cases ht : t.get? v with
  | none =>
      rw [ht] at hv
      refine ⟨(hθ v image hv).1, fun hmemv => (hθ v image hv).2 ?_⟩
      exact Subst.mem_vars_apply.mpr (.inl ⟨hmemv, ht⟩)
  | some image' =>
      simp only [ht, Option.some.injEq] at hv
      subst hv
      refine ⟨hgeneral v (h.solved.bound ht).1, fun hmemv w hw => ?_⟩
      rcases Subst.mem_vars_apply.mp hw with ⟨hw, -⟩ | ⟨u, hu, image'', himage, hw⟩
      · exact hgeneral w (h.solved.put ht hw).1.1
      · exact (hθ u image'' himage).2
          (Subst.mem_vars_apply.mpr (.inr ⟨v, hmemv, image', ht, hu⟩)) w hw

end Advancing

end Infer

end Viewlet
