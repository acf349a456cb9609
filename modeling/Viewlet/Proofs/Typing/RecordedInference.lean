import Viewlet.Proofs.Typing.Soundness

namespace Viewlet

/-- A substitution as it is applied to an environment, and the counter at that moment. -/
structure Application where
  env : TypeEnv
  subst : Subst
  next : TyVar

/-- An inference that also records the substitutions it applies to environments. -/
abbrev Recording (α : Type) : Type :=
  ExceptT TypeError (StateM (TyVar × List Application)) α

namespace Recording

/-- An inference that applies no substitution to an environment. -/
def ofInfer {α : Type} (x : Infer α) : Recording α :=
  ExceptT.mk fun state => ((x.run.run state.1).1, ((x.run.run state.1).2, state.2))

/-- Applies a substitution to an environment, and records it. -/
def substitute (env : TypeEnv) (s : Subst) : Recording TypeEnv :=
  modifyGet fun state => (env.subst s, (state.1, state.2 ++ [⟨env, s, state.1⟩]))

/-- The unifiers as one substitution, whose applications to environments are recorded. -/
def recorded : Infer.Holding Recording Subst where
  infer := ofInfer
  nothing := .empty
  unifier := id
  compose := Subst.compose
  apply := Subst.apply
  subst := substitute

/-- Infers the type of a node, and records. -/
def node (env : TypeEnv) (node : Node) : Recording (Subst × Ty) :=
  Infer.nodeBy recorded env node

/-- The environment after a unit, with the record. -/
def unit (env : TypeEnv) (unit : Node) : Recording TypeEnv :=
  Infer.unitBy recorded env unit

theorem run_unify {left right : Ty} {s : Subst} (h : Viewlet.unify left right = .ok s)
    (note : Note) (next : TyVar) (log : List Application) :
    (recorded.unify note left right).run.run (next, log) = (.ok s, (next, log)) := by
  have hyields : (Infer.unify note left right).run.run next = (.ok s, next) :=
    Infer.yields_unify.mpr ⟨h, rfl⟩
  refine (Infer.run_bind_of_ok ?_).trans rfl
  change (((Infer.unify note left right).run.run next).1,
    (((Infer.unify note left right).run.run next).2, log)) = _
  rw [hyields]

/-- From the counter the recording inference runs as the inference does, and records nothing
but applications of the given kind. -/
def Follows {α : Type} (allowed : Application → Prop) (next : TyVar) (x : Infer α)
    (y : Recording α) : Prop :=
  ∀ log, ∃ new, y.run.run (next, log) = ((x.run.run next).1, ((x.run.run next).2, log ++ new)) ∧
    ∀ application ∈ new, allowed application

section Following

variable {α β : Type} {allowed : Application → Prop} {next : TyVar} {x : Infer α}
  {y : Recording α} {f : α → Infer β} {g : α → Recording β}

theorem Follows.ofInfer (x : Infer α) : Follows allowed next x (.ofInfer x) := by
  intro log
  exact ⟨[], by rw [List.append_nil]; rfl, fun application hmem => absurd hmem List.not_mem_nil⟩

theorem Follows.pure (a : α) : Follows allowed next (pure a : Infer α) (pure a) := by
  intro log
  exact ⟨[], by rw [List.append_nil]; rfl, fun application hmem => absurd hmem List.not_mem_nil⟩

theorem Follows.bind (hx : Follows allowed next x y)
    (hf : ∀ a middle, x.Yields next a middle → Follows allowed middle (f a) (g a)) :
    Follows allowed next (x >>= f) (y >>= g) := by
  intro log
  obtain ⟨new, hrun, hallowed⟩ := hx log
  rw [Infer.run_bind, Infer.run_bind, hrun]
  cases hresult : x.run.run next with
  | mk result middle =>
    cases result with
    | error error => exact ⟨new, rfl, hallowed⟩
    | ok a =>
        obtain ⟨new', hrun', hallowed'⟩ := hf a middle hresult (log ++ new)
        refine ⟨new ++ new', ?_, fun application hmem => ?_⟩
        · rw [← List.append_assoc]
          exact hrun'
        · rcases List.mem_append.mp hmem with hmem | hmem
          · exact hallowed application hmem
          · exact hallowed' application hmem

theorem Follows.substitute {env : TypeEnv} {s : Subst} {f : TypeEnv → Infer β}
    {g : TypeEnv → Recording β} (hallowed : allowed ⟨env, s, next⟩)
    (hf : Follows allowed next (f (env.subst s)) (g (env.subst s))) :
    Follows allowed next (Infer.Holding.composed.subst env s >>= f)
      (recorded.subst env s >>= g) := by
  intro log
  obtain ⟨new, hrun, hnew⟩ := hf (log ++ [⟨env, s, next⟩])
  refine ⟨⟨env, s, next⟩ :: new, ?_, fun application hmem => ?_⟩
  · rw [← List.singleton_append, ← List.append_assoc]
    exact hrun
  · rcases List.mem_cons.mp hmem with rfl | hmem
    · exact hallowed
    · exact hnew application hmem

theorem Follows.unify (note : Note) (left right : Ty) :
    Follows allowed next (Infer.Holding.composed.unify note left right)
      (recorded.unify note left right) :=
  (Follows.ofInfer _).bind fun _ _ _ => .pure _

end Following

end Recording

/-- The variable was drawn while the counter went from `start` to `next`. -/
def TyVar.Drawn (start next v : TyVar) : Prop :=
  start ≤ v ∧ v < next

theorem TyVar.Drawn.mono {start next next' v : TyVar} (h : Drawn start next v)
    (hle : next ≤ next') : Drawn start next' v :=
  ⟨h.1, Nat.lt_of_lt_of_le h.2 hle⟩

/-- Every scheme of the environment is one of the top level, or that of a local name: general
over nothing, with variables drawn since the unit began. -/
def TypeEnv.Over (env top : TypeEnv) (start next : TyVar) : Prop :=
  ∀ binding ∈ env.bindings, binding ∈ top.bindings ∨
    (binding.2.vars = [] ∧ ∀ v ∈ binding.2.ty.vars, TyVar.Drawn start next v)

/-- The substitution binds and puts in only variables drawn since the unit began, and it leaves
the schemes of the top level, which are, with those of local names, all that it is applied to. -/
structure Application.Keeps (top : TypeEnv) (start : TyVar) (application : Application) :
    Prop where
  drawn : ∀ v image, application.subst.get? v = some image →
    TyVar.Drawn start application.next v ∧ ∀ w ∈ image.vars, TyVar.Drawn start application.next w
  schemes : application.env.Over top start application.next
  top_eq : top.subst application.subst = top

namespace TypeEnv

variable {env top : TypeEnv} {start next next' v : TyVar} {name : String}

theorem Over.mono (h : env.Over top start next) (hle : next ≤ next') :
    env.Over top start next' :=
  fun binding hmem => (h binding hmem).imp_right fun hlocal =>
    ⟨hlocal.1, fun v hv => (hlocal.2 v hv).mono hle⟩

theorem Over.insert (h : env.Over top start next) (hle : start ≤ next) :
    (env.insert name ⟨[], .var next⟩).Over top start (next + 1) := by
  intro binding hmem
  rcases mem_insert hmem with rfl | hmem
  · refine .inr ⟨rfl, fun v hv => ?_⟩
    have hv : v = next := by simpa [Ty.vars] using hv
    rw [hv]
    exact ⟨hle, Nat.lt_succ_self next⟩
  · exact h.mono (Nat.le_succ next) binding hmem

theorem Over.drawn (h : env.Over top start next) (hclosed : top.freeVars = [])
    (hstart : start ≤ next) (hle : next ≤ next') (hv : env.Available next next' v) :
    TyVar.Drawn start next' v := by
  rcases hv with hfree | ⟨hlower, hupper⟩
  · obtain ⟨binding, hmem, hv, hgeneral⟩ := mem_freeVars.mp hfree
    rcases h binding hmem with htop | hlocal
    · exact absurd (Infer.mem_vars_of_closed hclosed htop hv) hgeneral
    · exact (hlocal.2 v hv).mono hle
  · exact ⟨Nat.le_trans hstart hlower, hupper⟩

end TypeEnv

namespace Infer

/-- The environment of a part of a unit that began with the top level. -/
structure Inside (top : TypeEnv) (start : TyVar) (env : TypeEnv) (κ : Kinding) (next : TyVar) :
    Prop where
  closed : top.freeVars = []
  topFits : ∃ κ₀, top.Fits κ₀ start
  le : start ≤ next
  fits : env.Fits κ next
  schemes : env.Over top start next

section Parts

variable {env top : TypeEnv} {κ κ' : Kinding} {start next next' : TyVar} {s : Subst}

theorem Inside.insert (h : Inside top start env κ next) (name : String) :
    Inside top start (env.insert name ⟨[], .var next⟩) (κ.update next false) (next + 1) :=
  { h with
    le := Nat.le_succ_of_le h.le
    fits := h.fits.insert name
    schemes := h.schemes.insert h.le }

theorem Inside.keeps (h : Inside top start env κ next) (hstage : Stage env κ next s κ' next') :
    Application.Keeps top start ⟨env, s, next'⟩ := by
  have hdrawn : ∀ v, env.Available next next' v → TyVar.Drawn start next' v :=
    fun v hv => h.schemes.drawn h.closed h.le hstage.le hv
  refine ⟨fun v image hv => ⟨hdrawn v (hstage.solved.bound hv), fun w hw => ?_⟩,
    h.schemes.mono hstage.le, ?_⟩
  · exact hdrawn w (hstage.solved.put hv hw).1
  · obtain ⟨κ₀, htop⟩ := h.topFits
    exact subst_eq_self htop fun v image hv => (hdrawn v (hstage.solved.bound hv)).1

theorem Inside.subst (h : Inside top start env κ next) (hstage : Stage env κ next s κ' next') :
    Inside top start (env.subst s) κ' next' := by
  have hkeeps := h.keeps hstage
  refine { h with
    le := Nat.le_trans h.le hstage.le
    fits := hstage.fits h.fits
    schemes := fun binding hmem => ?_ }
  obtain ⟨source, hsource, rfl⟩ := TypeEnv.mem_subst.mp hmem
  rcases h.schemes source hsource with htop | ⟨hmono, hlocal⟩
  · obtain ⟨κ₀, hfits⟩ := h.topFits
    rw [apply_eq_self hfits (fun v image hv => (hkeeps.drawn v image hv).1.1) htop]
    exact .inl htop
  · refine .inr ⟨hmono, fun v hv => ?_⟩
    rcases Subst.mem_vars_apply.mp hv with ⟨hv, -⟩ | ⟨w, -, image, himage, hv⟩
    · exact (hlocal v hv).mono hstage.le
    · exact (hkeeps.drawn w image himage).2 v hv

end Parts

/-- The recording inference of the node follows its inference, inside any unit. -/
def FollowedAt (node : Node) : Prop :=
  ∀ {top start env κ next}, Inside top start env κ next →
    Recording.Follows (Application.Keeps top start) next (Infer.node env node)
      (Recording.node env node)

section Runs

variable {env top : TypeEnv} {κ κ₁ : Kinding} {start next next₁ : TyVar} {t : Subst} {note : Note}
  {conditions branches : List Node} {resultTy : Ty}

theorem follows_conditions (hfollowed : ∀ condition ∈ conditions, FollowedAt condition)
    (h : Inside top start env κ next) (hstage : Stage env κ next t κ₁ next₁) :
    Recording.Follows (Application.Keeps top start) next₁
      (conditionsBy .composed env note t conditions)
      (conditionsBy Recording.recorded env note t conditions) := by
  induction conditions generalizing t κ₁ next₁ with
  | nil =>
      rw [conditionsBy, conditionsBy]
      exact .pure t
  | cons condition rest ih =>
      rw [conditionsBy, conditionsBy]
      refine .substitute (h.keeps hstage) ?_
      refine (hfollowed condition List.mem_cons_self (h.subst hstage)).bind ?_
      rintro ⟨s₁, ty⟩ next₂ hnode
      refine (Recording.Follows.unify _ _ _).bind fun s₂ next₃ hunify => ?_
      rw [composed_unify] at hunify
      obtain ⟨hsolved, rfl⟩ := yields_unify.mp hunify
      obtain ⟨κ₂, hfound⟩ := soundAt condition (hstage.fits h.fits) hnode
      have hpart := hfound.meet (hstage.fits h.fits) hsolved
      have hcondition := hpart.of_part h.fits hstage
      rw [Subst.compose_assoc] at hcondition
      exact ih (fun node hmem => hfollowed node (List.mem_cons_of_mem _ hmem)) hcondition.stage

theorem follows_branches (hfollowed : ∀ branch ∈ branches, FollowedAt branch)
    (h : Inside top start env κ next) (hstage : Stage env κ next t κ₁ next₁)
    (hresult : Settled env next t κ₁ next₁ (t.apply resultTy)) :
    Recording.Follows (Application.Keeps top start) next₁
      (branchesBy .composed env note resultTy t branches)
      (branchesBy Recording.recorded env note resultTy t branches) := by
  induction branches generalizing t κ₁ next₁ with
  | nil =>
      rw [branchesBy, branchesBy]
      exact .pure t
  | cons branch rest ih =>
      rw [branchesBy, branchesBy]
      refine .substitute (h.keeps hstage) ?_
      refine (hfollowed branch List.mem_cons_self (h.subst hstage)).bind ?_
      rintro ⟨s₁, ty⟩ next₂ hnode
      refine (Recording.Follows.unify _ _ _).bind fun s₂ next₃ hunify => ?_
      rw [composed_unify] at hunify
      obtain ⟨hsolved, rfl⟩ := yields_unify.mp hunify
      obtain ⟨κ₂, hfound⟩ := soundAt branch (hstage.fits h.fits) hnode
      obtain ⟨hbranch, -⟩ := hfound.join h.fits hstage hresult hsolved
      exact ih (fun node hmem => hfollowed node (List.mem_cons_of_mem _ hmem)) hbranch.stage
        hbranch.settled

end Runs

theorem followedAt (node : Node) : FollowedAt node := by
  induction node with
  | integer value =>
      intro top start env κ next h
      rw [Infer.node, Recording.node, nodeBy, nodeBy]
      exact (Recording.Follows.ofInfer fresh).bind fun _ _ _ => .pure _
  | float | boolean =>
      intro top start env κ next h
      rw [Infer.node, Recording.node, nodeBy, nodeBy]
      exact .pure _
  | noValue | typeName | typeDefinition | construction =>
      intro top start env κ next h
      rw [Infer.node, Recording.node, nodeBy, nodeBy]
      exact .ofInfer _
  | binary op left right ihl ihr =>
      intro top start env κ next h
      rw [Infer.node, Recording.node, nodeBy, nodeBy]
      refine (ihl h).bind ?_
      rintro ⟨s₁, leftTy⟩ next₁ hleft
      obtain ⟨κ₁, hfound⟩ := soundAt left h.fits hleft
      refine .substitute (h.keeps hfound.stage) ((ihr (h.subst hfound.stage)).bind ?_)
      rintro ⟨s₂, rightTy⟩ next₂ hright
      dsimp only
      split
      · refine (Recording.Follows.unify _ _ _).bind fun s₃ _ _ => ?_
        exact (Recording.Follows.unify _ _ _).bind fun s₄ _ _ => .pure _
      · refine (Recording.Follows.unify _ _ _).bind fun s₃ _ _ => ?_
        refine (Recording.Follows.ofInfer fresh).bind fun v _ _ => ?_
        exact (Recording.Follows.unify _ _ _).bind fun s₄ _ _ => .pure _
  | negation operand ih =>
      intro top start env κ next h
      rw [Infer.node, Recording.node, nodeBy, nodeBy]
      refine (ih h).bind ?_
      rintro ⟨s₁, operandTy⟩ next₁ hoperand
      exact (Recording.Follows.unify _ _ _).bind fun s₂ _ _ => .pure _
  | ifElse conditions branches ihc ihb =>
      intro top start env κ next h
      rw [Infer.node, Recording.node, nodeBy, nodeBy]
      refine (Recording.Follows.ofInfer fresh).bind fun v middle hfresh => ?_
      obtain ⟨rfl, rfl⟩ := yields_fresh.mp hfresh
      have hstart := Stage.drawn h.fits false
      have hresult := (Stage.refl h.fits).settled_var h.fits
      refine (follows_conditions ihc h hstart).bind fun s₁ next₁ hconditions => ?_
      obtain ⟨κ₁, hextends, -⟩ :=
        exists_outcome_conditions (fun condition _ => soundAt condition) h.fits hstart hconditions
      have hresult := hresult.extend h.fits hstart hextends
      refine (follows_branches ihb h (hextends.stage h.fits hstart) hresult).bind fun _ _ _ => ?_
      exact .pure _
  | var name =>
      intro top start env κ next h
      rw [Infer.node, Recording.node, nodeBy, nodeBy]
      cases env.get? name with
      | none => exact .ofInfer _
      | some scheme =>
          exact (Recording.Follows.ofInfer (instantiate scheme)).bind fun _ _ _ => .pure _
  | function parameter body ih =>
      intro top start env κ next h
      rw [Infer.node, Recording.node, nodeBy, nodeBy]
      refine (Recording.Follows.ofInfer fresh).bind fun v middle hfresh => ?_
      obtain ⟨rfl, rfl⟩ := yields_fresh.mp hfresh
      refine (ih (h.insert parameter)).bind ?_
      rintro ⟨s, bodyTy⟩ next' hbody
      exact .pure _
  | apply callee argument ihc iha =>
      intro top start env κ next h
      rw [Infer.node, Recording.node, nodeBy, nodeBy]
      refine (ihc h).bind ?_
      rintro ⟨s₁, calleeTy⟩ next₁ hcallee
      obtain ⟨κ₁, hfound⟩ := soundAt callee h.fits hcallee
      refine .substitute (h.keeps hfound.stage) ((iha (h.subst hfound.stage)).bind ?_)
      rintro ⟨s₂, argumentTy⟩ next₂ hargument
      refine (Recording.Follows.ofInfer fresh).bind fun v _ _ => ?_
      exact (Recording.Follows.unify _ _ _).bind fun s₃ _ _ => .pure _
  | declaration name body ih =>
      intro top start env κ next h
      rw [Infer.node, Recording.node, nodeBy, nodeBy]
      refine (Recording.Follows.ofInfer fresh).bind fun v middle hfresh => ?_
      obtain ⟨rfl, rfl⟩ := yields_fresh.mp hfresh
      refine (ih (h.insert name)).bind ?_
      rintro ⟨s₁, bodyTy⟩ next' hbody
      exact (Recording.Follows.unify _ _ _).bind fun s₂ _ _ => .pure _

theorem follows_unit {env : TypeEnv} {next : TyVar} (h : ClosedAt env next) (unit : Node) :
    Recording.Follows (Application.Keeps env next) next (Infer.unit env unit)
      (Recording.unit env unit) := by
  obtain ⟨κ, hfits, hclosed⟩ := h
  have hinside : Inside env next env κ next :=
    ⟨hclosed, ⟨κ, hfits⟩, Nat.le_refl next, hfits, fun _ hmem => .inl hmem⟩
  cases unit with
  | typeDefinition name parameters constructors => exact .pure env
  | _ =>
      refine (followedAt _ hinside).bind ?_
      rintro ⟨s, ty⟩ next' hnode
      exact .pure _

end Infer

end Viewlet
