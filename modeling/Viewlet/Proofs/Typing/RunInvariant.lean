import Viewlet.Proofs.Typing.RecordedInference

namespace Viewlet

namespace Infer

/-- The inference never sets the counter back, whether it succeeds or fails. -/
def Advances {α : Type} (x : Infer α) : Prop :=
  ∀ next, next ≤ (x.run.run next).2

section Advancing

variable {α β : Type} {x : Infer α} {f : α → Infer β}

theorem Advances.pure (a : α) : (pure a : Infer α).Advances :=
  fun next => Nat.le_refl next

theorem Advances.throw (error : TypeError) : (throw error : Infer α).Advances :=
  fun next => Nat.le_refl next

theorem advances_fresh : fresh.Advances :=
  fun next => Nat.le_succ next

theorem advances_instantiate (scheme : Scheme) : (instantiate scheme).Advances :=
  fun next => Nat.le_add_right next _

theorem advances_unify (note : Note) (left right : Ty) : (unify note left right).Advances := by
  rw [unify]
  cases Viewlet.unify left right with
  | ok s => exact .pure s
  | error error => exact .throw _

theorem advances_composed_unify (note : Note) (left right : Ty) :
    (Holding.composed.unify note left right).Advances := by
  rw [composed_unify]
  exact advances_unify note left right

theorem Advances.bind (hx : x.Advances) (hf : ∀ a, (f a).Advances) : (x >>= f).Advances := by
  intro next
  have hle := hx next
  rw [run_bind]
  cases hresult : x.run.run next with
  | mk result middle =>
    rw [hresult] at hle
    cases result with
    | error error => exact hle
    | ok a => exact Nat.le_trans hle (hf a middle)

end Advancing

theorem advances_conditions {conditions : List Node}
    (h : ∀ condition ∈ conditions, ∀ env, (node env condition).Advances) (env : TypeEnv)
    (note : Note) (s : Subst) : (conditionsFrom env note s conditions).Advances := by
  rw [conditionsFrom]
  induction conditions generalizing s with
  | nil =>
      rw [conditionsBy]
      exact .pure s
  | cons condition rest ih =>
      rw [conditionsBy, composed_subst, pure_bind]
      refine (h condition List.mem_cons_self _).bind ?_
      rintro ⟨s₁, ty⟩
      refine (advances_composed_unify note ty .bool).bind fun s₂ => ?_
      exact ih (fun node hmem => h node (List.mem_cons_of_mem _ hmem)) _

theorem advances_branches {branches : List Node}
    (h : ∀ branch ∈ branches, ∀ env, (node env branch).Advances) (env : TypeEnv) (note : Note)
    (resultTy : Ty) (s : Subst) : (branchesFrom env note resultTy s branches).Advances := by
  rw [branchesFrom]
  induction branches generalizing s with
  | nil =>
      rw [branchesBy]
      exact .pure s
  | cons branch rest ih =>
      rw [branchesBy, composed_subst, pure_bind]
      refine (h branch List.mem_cons_self _).bind ?_
      rintro ⟨s₁, ty⟩
      refine (advances_composed_unify note _ ty).bind fun s₂ => ?_
      exact ih (fun node hmem => h node (List.mem_cons_of_mem _ hmem)) _

theorem advances_node (node : Node) (env : TypeEnv) : (Infer.node env node).Advances := by
  induction node generalizing env with
  | integer value =>
      rw [Infer.node, nodeBy]
      exact advances_fresh.bind fun v => .pure _
  | float | boolean =>
      rw [Infer.node, nodeBy]
      exact .pure _
  | noValue | typeName | typeDefinition | construction =>
      rw [Infer.node, nodeBy]
      exact .throw _
  | binary op left right ihl ihr =>
      rw [Infer.node, nodeBy]
      refine (ihl env).bind ?_
      rintro ⟨s₁, leftTy⟩
      refine (Advances.pure (env.subst s₁)).bind fun env' => (ihr env').bind ?_
      rintro ⟨s₂, rightTy⟩
      dsimp only
      split
      · refine (advances_composed_unify _ _ _).bind fun s₃ => ?_
        exact (advances_composed_unify _ _ _).bind fun s₄ => .pure _
      · refine (advances_composed_unify _ _ _).bind fun s₃ => advances_fresh.bind fun v => ?_
        exact (advances_composed_unify _ _ _).bind fun s₄ => .pure _
  | negation operand ih =>
      rw [Infer.node, nodeBy]
      refine (ih env).bind ?_
      rintro ⟨s₁, operandTy⟩
      exact (advances_composed_unify _ _ _).bind fun s₂ => .pure _
  | ifElse conditions branches ihc ihb =>
      rw [Infer.node, nodeBy]
      refine advances_fresh.bind fun v => (advances_conditions ihc env _ _).bind fun s => ?_
      exact (advances_branches ihb env _ _ s).bind fun s' => .pure _
  | var name =>
      rw [Infer.node, nodeBy]
      cases env.get? name with
      | none => exact .throw _
      | some scheme => exact (advances_instantiate scheme).bind fun ty => .pure _
  | function parameter body ih =>
      rw [Infer.node, nodeBy]
      refine advances_fresh.bind fun v => (ih _).bind ?_
      rintro ⟨s, bodyTy⟩
      exact .pure _
  | apply callee argument ihc iha =>
      rw [Infer.node, nodeBy]
      refine (ihc env).bind ?_
      rintro ⟨s₁, calleeTy⟩
      refine (Advances.pure (env.subst s₁)).bind fun env' => (iha env').bind ?_
      rintro ⟨s₂, argumentTy⟩
      exact advances_fresh.bind fun v => (advances_composed_unify _ _ _).bind fun s₃ => .pure _
  | declaration name body ih =>
      rw [Infer.node, nodeBy]
      refine advances_fresh.bind fun v => (ih _).bind ?_
      rintro ⟨s₁, bodyTy⟩
      exact (advances_composed_unify _ _ _).bind fun s₂ => .pure _

theorem advances_unit (env : TypeEnv) (unit : Node) : (Infer.unit env unit).Advances := by
  cases unit with
  | typeDefinition name parameters constructors => exact .pure env
  | _ =>
      refine (advances_node _ env).bind ?_
      rintro ⟨s, ty⟩
      exact .pure _

/-- How far a run over units has come: the environment and the counter. -/
structure Progress where
  env : TypeEnv
  next : TyVar

/-- A unit that fails leaves the environment, but not the counter. -/
def Progress.proceed (progress : Progress) (unit : Node) : Progress :=
  match (Infer.unit progress.env unit).run.run progress.next with
  | (.ok env, next) => ⟨env, next⟩
  | (.error _, next) => ⟨progress.env, next⟩

/-- What a run over units comes to, going on after those that fail. -/
def Progress.after (nodes : List Node) : Progress :=
  nodes.foldl Progress.proceed ⟨.empty, 0⟩

section Proceeding

variable {progress : Progress} {unit : Node} {env : TypeEnv} {next : TyVar} {error : TypeError}

theorem Progress.proceed_of_ok
    (h : (Infer.unit progress.env unit).run.run progress.next = (.ok env, next)) :
    progress.proceed unit = ⟨env, next⟩ := by
  rw [proceed, h]

theorem Progress.proceed_of_error
    (h : (Infer.unit progress.env unit).run.run progress.next = (.error error, next)) :
    progress.proceed unit = ⟨progress.env, next⟩ := by
  rw [proceed, h]

theorem Progress.proceed_cases (progress : Progress) (unit : Node) :
    (∃ env next, (Infer.unit progress.env unit).run.run progress.next = (.ok env, next) ∧
      progress.proceed unit = ⟨env, next⟩) ∨
    ∃ error next, (Infer.unit progress.env unit).run.run progress.next = (.error error, next) ∧
      progress.proceed unit = ⟨progress.env, next⟩ := by
  cases hrun : (Infer.unit progress.env unit).run.run progress.next with
  | mk result next =>
    cases result with
    | ok env => exact .inl ⟨env, next, rfl, proceed_of_ok hrun⟩
    | error error => exact .inr ⟨error, next, rfl, proceed_of_error hrun⟩

theorem ClosedAt.mono {next' : TyVar} (h : ClosedAt env next) (hle : next ≤ next') :
    ClosedAt env next' := by
  obtain ⟨κ, hfits, hclosed⟩ := h
  refine ⟨κ, ⟨fun v hv => hfits.fresh v (Nat.le_trans hle hv), hfits.kinds, fun hmem hv => ?_,
    fun hmem hv => ?_, hfits.apart⟩, hclosed⟩
  · exact Nat.lt_of_lt_of_le (hfits.below hmem hv) hle
  · exact Nat.lt_of_lt_of_le (hfits.generalBelow hmem hv) hle

theorem closedAt_proceed (h : ClosedAt progress.env progress.next) (unit : Node) :
    ClosedAt (progress.proceed unit).env (progress.proceed unit).next := by
  rcases progress.proceed_cases unit with ⟨env, next, hrun, heq⟩ | ⟨error, next, hrun, heq⟩
  · rw [heq]
    exact (closedAt_of_unit h hrun).1
  · have hle := advances_unit progress.env unit progress.next
    rw [hrun] at hle
    rw [heq]
    exact h.mono hle

theorem closedAt_foldl (h : ClosedAt progress.env progress.next) (nodes : List Node) :
    ClosedAt (nodes.foldl Progress.proceed progress).env
      (nodes.foldl Progress.proceed progress).next := by
  induction nodes generalizing progress with
  | nil => exact h
  | cons first rest ih => exact ih (closedAt_proceed h first)

theorem traceUnits_proceed (progress : Progress) (unit : Node) (rest : List Node) :
    ∃ error?, traceUnits progress.env progress.next (unit :: rest) =
      (error?, (progress.proceed unit).env) ::
        traceUnits (progress.proceed unit).env (progress.proceed unit).next rest := by
  rcases progress.proceed_cases unit with ⟨env, next, hrun, heq⟩ | ⟨error, next, hrun, heq⟩
  · exact ⟨none, by rw [traceUnits, hrun, heq]⟩
  · exact ⟨some error, by rw [traceUnits, hrun, heq]⟩

theorem traceUnits_append (progress : Progress) (nodes rest : List Node) :
    traceUnits progress.env progress.next (nodes ++ rest) =
      traceUnits progress.env progress.next nodes ++
        traceUnits (nodes.foldl Progress.proceed progress).env
          (nodes.foldl Progress.proceed progress).next rest := by
  induction nodes generalizing progress with
  | nil => rfl
  | cons first nodes ih =>
      rcases progress.proceed_cases first with ⟨env, next, hrun, heq⟩ | ⟨error, next, hrun, heq⟩
      · rw [List.foldl_cons, heq, List.cons_append, traceUnits, traceUnits, hrun]
        exact congrArg ((none, env) :: ·) (ih ⟨env, next⟩)
      · rw [List.foldl_cons, heq, List.cons_append, traceUnits, traceUnits, hrun]
        exact congrArg ((some error, progress.env) :: ·) (ih ⟨progress.env, next⟩)

theorem getLast_traceUnits (progress : Progress) (nodes : List Node) :
    (((traceUnits progress.env progress.next nodes).getLast?).map (·.2)).getD progress.env =
      (nodes.foldl Progress.proceed progress).env := by
  induction nodes generalizing progress with
  | nil => rfl
  | cons first rest ih =>
      obtain ⟨error?, htrace⟩ := traceUnits_proceed progress first rest
      rw [htrace, List.foldl_cons, ← ih, List.getLast?_cons]
      cases (traceUnits (progress.proceed first).env (progress.proceed first).next rest).getLast?
        with
      | none => rfl
      | some last => rfl

theorem foldl_of_units {nodes : List Node}
    (h : (units progress.env nodes).Yields progress.next env next) :
    nodes.foldl Progress.proceed progress = ⟨env, next⟩ := by
  induction nodes generalizing progress with
  | nil =>
      rw [units, yields_pure] at h
      obtain ⟨rfl, rfl⟩ := h
      rfl
  | cons first rest ih =>
      obtain ⟨env₁, next₁, hfirst, hrest⟩ := yields_units_cons.mp h
      rw [List.foldl_cons, Progress.proceed_of_ok hfirst]
      exact ih hrest

theorem filterMap_traceUnits_eq_nil (progress : Progress) (nodes : List Node) :
    (traceUnits progress.env progress.next nodes).filterMap (·.1) = [] ↔
      (units progress.env nodes).Yields progress.next (nodes.foldl Progress.proceed progress).env
        (nodes.foldl Progress.proceed progress).next := by
  induction nodes generalizing progress with
  | nil => simp [traceUnits, units]
  | cons first rest ih =>
      rw [yields_units_cons, List.foldl_cons]
      rcases progress.proceed_cases first with ⟨env, next, hrun, heq⟩ | ⟨error, next, hrun, heq⟩
      · rw [traceUnits, hrun, heq]
        refine (ih ⟨env, next⟩).trans ⟨fun hrest => ⟨env, next, hrun, hrest⟩, ?_⟩
        rintro ⟨env', next', hrun', hrest⟩
        cases hrun.symm.trans hrun'
        exact hrest
      · rw [traceUnits, hrun]
        constructor
        · intro hnone
          cases hnone
        · rintro ⟨env', next', hrun', -⟩
          cases hrun.symm.trans hrun'

end Proceeding

theorem Progress.env_of_inferTop {nodes : List Node} {env : TypeEnv}
    (h : inferTop nodes = .ok env) : env = (Progress.after nodes).env := by
  obtain ⟨next, hunits⟩ := inferTop_eq_ok.mp h
  have hafter : Progress.after nodes = ⟨env, next⟩ := foldl_of_units hunits
  rw [hafter]

/-- Inferring all units gives an environment if and only if inferring them up to the first that
fails does, and gives the same one. -/
theorem inferProgram_eq_ok {nodes : List Node} {env : TypeEnv} :
    inferProgram nodes = .ok env ↔ inferTop nodes = .ok env := by
  have hlast := getLast_traceUnits ⟨.empty, 0⟩ nodes
  have herrors := filterMap_traceUnits_eq_nil ⟨.empty, 0⟩ nodes
  rw [inferTop_eq_ok]
  dsimp only [inferProgram]
  split
  · next hnone =>
      have hunits := herrors.mp hnone
      rw [Except.ok.injEq, hlast]
      constructor
      · rintro rfl
        exact ⟨_, hunits⟩
      · rintro ⟨next, hrun⟩
        rw [foldl_of_units hrun]
  · next hsome =>
      constructor
      · exact nofun
      · rintro ⟨next, hrun⟩
        refine absurd (herrors.mpr ?_) hsome
        rw [foldl_of_units hrun]
        exact hrun

/-- What holds between two units: every scheme is closed, its variables are drawn and used at one
kind each, and while the next unit is inferred, whether it succeeds or fails, every substitution
that is applied to an environment keeps to the variables drawn since then. -/
structure Progress.Sound (progress : Progress) : Prop where
  wellFormed : progress.env.WellFormed progress.next
  closed : progress.env.freeVars = []
  keeps : ∀ unit, ∃ applications,
    (Recording.unit progress.env unit).run.run (progress.next, []) =
      (((Infer.unit progress.env unit).run.run progress.next).1,
        (((Infer.unit progress.env unit).run.run progress.next).2, applications)) ∧
    ∀ application ∈ applications, application.Keeps progress.env progress.next

theorem Progress.sound_of_closedAt {progress : Progress}
    (h : ClosedAt progress.env progress.next) : progress.Sound := by
  have hfollows := follows_unit h
  obtain ⟨κ, hfits, hclosed⟩ := h
  refine ⟨⟨⟨κ, fun _ hmem => hfits.kinds hmem⟩, fun _ hmem _ hv => hfits.below hmem hv,
    fun _ hmem _ hv => hfits.generalBelow hmem hv, fun _ hmem _ hv => hfits.apart hmem hv⟩,
    hclosed, fun unit => hfollows unit []⟩

end Infer

/-- All along a run of inference the schemes stay closed and no substitution alters them, and a
unit that fails leaves the environment; the trace of all units, and the two ways of inferring a
program, come to the environment of the run. -/
theorem inference_run_invariant (nodes : List Node) :
    (Infer.Progress.after nodes).Sound ∧
    (∀ env, inferTop nodes = .ok env ∨ inferProgram nodes = .ok env →
      env = (Infer.Progress.after nodes).env) ∧
    (∀ rest, traceUnits .empty 0 (nodes ++ rest) = traceUnits .empty 0 nodes ++
      traceUnits (Infer.Progress.after nodes).env (Infer.Progress.after nodes).next rest) ∧
    ∀ unit error next',
      (Infer.unit (Infer.Progress.after nodes).env unit).run.run (Infer.Progress.after nodes).next =
        (.error error, next') →
      Infer.Progress.after (nodes ++ [unit]) = ⟨(Infer.Progress.after nodes).env, next'⟩ ∧
      traceUnits .empty 0 (nodes ++ [unit]) =
        traceUnits .empty 0 nodes ++ [(some error, (Infer.Progress.after nodes).env)] := by
  refine ⟨?_, fun env hrun => ?_, fun rest => ?_, fun unit error next' hrun => ?_⟩
  · exact Infer.Progress.sound_of_closedAt (Infer.closedAt_foldl (Infer.closedAt_empty 0) nodes)
  · rw [Infer.inferProgram_eq_ok, or_self] at hrun
    exact Infer.Progress.env_of_inferTop hrun
  · exact Infer.traceUnits_append ⟨.empty, 0⟩ nodes rest
  · constructor
    · rw [Infer.Progress.after, List.foldl_append]
      exact Infer.Progress.proceed_of_error hrun
    · refine (Infer.traceUnits_append ⟨.empty, 0⟩ nodes [unit]).trans (congrArg _ ?_)
      rw [traceUnits]
      exact hrun ▸ rfl

/-- After an identity and a unit that fails, a function that applies the identity to its
parameter, and the result to a number, replaces the variable of the parameter. -/
theorem inference_run_invariant_after_failure :
    let identity : TypeEnv := ⟨[("id", ⟨[1], .func (.var 1) (.var 1)⟩)]⟩
    let nodes : List Node := [.declaration "id" (.function "x" (.var "x")),
      .apply (.integer 1) (.var "id")]
    Infer.Progress.after nodes = ⟨identity, 5⟩ ∧
    Application.Keeps identity 5
      ⟨identity.insert "y" ⟨[], .var 5⟩, ⟨[(6, .var 7), (5, .var 7)]⟩, 8⟩ := by
  intro identity nodes
  let inner : TypeEnv := identity.insert "y" ⟨[], .var 5⟩
  let image : Ty := .func (.number 8) (.var 9)
  have hfirst : Infer.Progress.after [.declaration "id" (.function "x" (.var "x"))] =
      ⟨identity, 2⟩ :=
    Infer.Progress.proceed_of_ok (Infer.yields_unit_identity .empty "id" "x" 0)
  have hclash : unify (.number 2) (.func (.func (.var 3) (.var 3)) (.var 4)) =
      .error (.mismatch (.number 2) (.func (.func (.var 3) (.var 3)) (.var 4))) :=
    (unify_eq_unifyBy _ _).trans rfl
  have hfailure : (Infer.unit identity (.apply (.integer 1) (.var "id"))).Fails 2 _ 5 :=
    Infer.fails_bind (Infer.fails_bind_of_yields rfl (Infer.fails_bind_of_yields rfl
      (Infer.fails_bind_of_yields rfl (Infer.fails_bind_of_yields rfl
        (Infer.fails_bind (Infer.fails_unify hclash _ 5))))))
  have hafter : Infer.Progress.after nodes = ⟨identity, 5⟩ := by
    obtain ⟨-, -, -, hleaves⟩ :=
      inference_run_invariant [.declaration "id" (.function "x" (.var "x"))]
    rw [hfirst] at hleaves
    exact (hleaves _ _ 5 hfailure).1
  refine ⟨hafter, ?_⟩
  have hsound := (inference_run_invariant nodes).1
  rw [hafter] at hsound
  obtain ⟨applications, hrun, hkeeps⟩ := hsound.keeps
    (.function "y" (.apply (.apply (.var "id") (.var "y")) (.integer 1)))
  have hinner : unify (.func (.var 6) (.var 6)) (.func (.var 5) (.var 7)) =
      .ok ((Subst.single 5 (.var 7)).compose (.single 6 (.var 5))) :=
    unify_func ((unify_eq_unifyBy _ _).trans rfl) ((unify_eq_unifyBy _ _).trans rfl)
  have houter : unify (.var 7) image = .ok (.single 7 image) := (unify_eq_unifyBy _ _).trans rfl
  have hcallee : (Recording.node inner (.apply (.var "id") (.var "y"))).run.run (6, []) =
      (.ok (⟨[(6, .var 7), (5, .var 7)]⟩, .var 7), (8, [⟨inner, .empty, 7⟩])) := by
    refine (Infer.run_bind_of_ok rfl).trans ((Infer.run_bind_of_ok rfl).trans
      ((Infer.run_bind_of_ok rfl).trans ((Infer.run_bind_of_ok rfl).trans ?_)))
    exact (Infer.run_bind_of_ok (Recording.run_unify hinner _ _ _)).trans rfl
  have hcall : (Recording.node inner
      (.apply (.apply (.var "id") (.var "y")) (.integer 1))).run.run (6, []) =
      (.ok (⟨[(6, image), (5, image), (7, image)]⟩, .var 9),
        (10, [⟨inner, .empty, 7⟩, ⟨inner, ⟨[(6, .var 7), (5, .var 7)]⟩, 8⟩])) := by
    refine (Infer.run_bind_of_ok hcallee).trans ((Infer.run_bind_of_ok rfl).trans
      ((Infer.run_bind_of_ok rfl).trans ((Infer.run_bind_of_ok rfl).trans ?_)))
    exact (Infer.run_bind_of_ok (Recording.run_unify houter _ _ _)).trans rfl
  have hnode : (Recording.node identity
      (.function "y" (.apply (.apply (.var "id") (.var "y")) (.integer 1)))).run.run (5, []) =
      (.ok (⟨[(6, image), (5, image), (7, image)]⟩, .func image (.var 9)),
        (10, [⟨inner, .empty, 7⟩, ⟨inner, ⟨[(6, .var 7), (5, .var 7)]⟩, 8⟩])) :=
    (Infer.run_bind_of_ok rfl).trans ((Infer.run_bind_of_ok hcall).trans rfl)
  have hrecorded := hrun.symm.trans (Infer.run_bind_of_ok hnode)
  refine hkeeps _ ?_
  rw [(Prod.mk.inj (Prod.mk.inj hrecorded).2).2]
  exact List.mem_cons_of_mem _ List.mem_cons_self

end Viewlet
