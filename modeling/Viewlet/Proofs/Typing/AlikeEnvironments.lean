import Viewlet.Proofs.Evaluation.Rebinding
import Viewlet.Proofs.Typing.Completeness
import Viewlet.Proofs.Typing.TypeText

namespace Viewlet

section Relating

variable {S : String → Prop} {env env' env'' : TypeEnv} {node : Node} {ty : Ty} {name : String}
  {scheme scheme' scheme'' : Scheme}

theorem Scheme.SameInstances.refl (scheme : Scheme) : scheme.SameInstances scheme :=
  fun _ => Iff.rfl

theorem Scheme.SameInstances.symm (h : scheme.SameInstances scheme') :
    scheme'.SameInstances scheme :=
  fun ty => (h ty).symm

theorem Scheme.SameInstances.trans (h : scheme.SameInstances scheme')
    (h' : scheme'.SameInstances scheme'') : scheme.SameInstances scheme'' :=
  fun ty => (h ty).trans (h' ty)

/-- In both environments the name stands for the same types, or for none. -/
def TypeEnv.AlikeAt (env env' : TypeEnv) (name : String) : Prop :=
  Option.Rel Scheme.SameInstances (env.get? name) (env'.get? name)

namespace TypeEnv

theorem AlikeAt.refl (env : TypeEnv) (name : String) : env.AlikeAt env name := by
  rw [AlikeAt]
  cases env.get? name with
  | none => exact .none
  | some scheme => exact .some (.refl scheme)

theorem AlikeAt.symm (h : env.AlikeAt env' name) : env'.AlikeAt env name := by
  rw [AlikeAt] at h ⊢
  generalize env.get? name = found, env'.get? name = found' at h
  cases h with
  | none => exact .none
  | some h => exact .some h.symm

theorem AlikeAt.trans (h : env.AlikeAt env' name) (h' : env'.AlikeAt env'' name) :
    env.AlikeAt env'' name := by
  rw [AlikeAt] at h h' ⊢
  generalize env.get? name = found, env'.get? name = found', env''.get? name = found'' at h h'
  cases h with
  | none => exact h'
  | some h =>
      cases h' with
      | some h' => exact .some (h.trans h')

theorem AlikeAt.insert {other : String} (h : other ≠ name → env.AlikeAt env' other)
    (hscheme : scheme.SameInstances scheme') :
    (env.insert name scheme).AlikeAt (env'.insert name scheme') other := by
  rw [AlikeAt, get?_insert, get?_insert]
  split
  · exact .some hscheme
  · next hne => exact h hne

theorem AlikeAt.exists_get? (h : env.AlikeAt env' name) (hscheme : env.get? name = some scheme) :
    ∃ scheme', env'.get? name = some scheme' ∧ scheme.SameInstances scheme' := by
  rw [AlikeAt, hscheme] at h
  generalize env'.get? name = found at h
  cases h with
  | some h => exact ⟨_, rfl, h⟩

end TypeEnv

theorem HasType.congr (h : HasType env node ty) (halike : ∀ x ∈ node.names, env.AlikeAt env' x) :
    HasType env' node ty := by
  induction h generalizing env' with
  | integer hnumeric => exact .integer hnumeric
  | float => exact .float
  | boolean => exact .boolean
  | var hscheme hinstance =>
      obtain ⟨scheme', hscheme', hsame⟩ := (halike _ (by simp [Node.names])).exists_get? hscheme
      exact .var hscheme' ((hsame _).mp hinstance)
  | function _ ih =>
      refine .function (ih fun x hx => .insert (fun _ => halike x ?_) (.refl _))
      simp [Node.names, hx]
  | apply _ _ ihc iha =>
      refine .apply (ihc fun x hx => halike x ?_) (iha fun x hx => halike x ?_)
      · simp [Node.names, hx]
      · simp [Node.names, hx]
  | arithmetic hop hnumeric _ _ ihl ihr =>
      refine .arithmetic hop hnumeric (ihl fun x hx => halike x ?_) (ihr fun x hx => halike x ?_)
      · simp [Node.names, hx]
      · simp [Node.names, hx]
  | comparison hop hnumeric _ _ ihl ihr =>
      refine .comparison hop hnumeric (ihl fun x hx => halike x ?_) (ihr fun x hx => halike x ?_)
      · simp [Node.names, hx]
      · simp [Node.names, hx]
  | logical hop _ _ ihl ihr =>
      refine .logical hop (ihl fun x hx => halike x ?_) (ihr fun x hx => halike x ?_)
      · simp [Node.names, hx]
      · simp [Node.names, hx]
  | negation _ ih =>
      refine .negation (ih fun x hx => halike x ?_)
      simp [Node.names, hx]
  | ifElse _ _ ihc ihb =>
      refine .ifElse (fun condition hmem => ihc condition hmem fun x hx => halike x ?_)
        (fun branch hmem => ihb branch hmem fun x hx => halike x ?_)
      · rw [Node.names]
        exact List.mem_append_left _ (Node.mem_namesAll.mpr ⟨condition, hmem, hx⟩)
      · rw [Node.names]
        exact List.mem_append_right _ (Node.mem_namesAll.mpr ⟨branch, hmem, hx⟩)
  | declaration _ ih =>
      refine .declaration (ih fun x hx => .insert (fun _ => halike x ?_) (.refl _))
      simp [Node.names, hx]

end Relating

/-- The bindings of some variables only. -/
def Subst.restrict (s : Subst) (vars : List TyVar) : Subst :=
  ⟨s.bindings.filter fun binding => vars.contains binding.1⟩

theorem Subst.get?_restrict (s : Subst) (vars : List TyVar) (v : TyVar) :
    (s.restrict vars).get? v = if vars.contains v then s.get? v else none :=
  lookup_filter (fun v => vars.contains v) v s.bindings

theorem Subst.apply_restrict (s : Subst) {vars : List TyVar} {ty : Ty}
    (h : ∀ v ∈ ty.vars, v ∈ vars) : (s.restrict vars).apply ty = s.apply ty := by
  refine Subst.apply_congr fun v hv => ?_
  rw [get?_restrict, if_pos (List.contains_iff_mem.mpr (h v hv))]

namespace Infer

section Entering

variable {env env' env₁ : TypeEnv} {κ : Kinding} {next next' next₁ : TyVar} {s : Subst}
  {node : Node} {ty : Ty} {name : String}

/-- The scheme inferred for a node stands for the types that the node has. -/
theorem hasInstance_generalize_iff (hfits : env.Fits κ next) (hclosed : env.freeVars = [])
    (hrun : (Infer.node env node).Yields next (s, ty) next') (ty' : Ty) :
    (env.generalize ty).HasInstance ty' ↔ HasType env node ty' := by
  constructor
  · obtain ⟨κ', hfound⟩ := soundAt node hfits hrun
    exact hfound.hasType_of_instance hfits hclosed
  · intro htyped
    obtain ⟨s₁, found, next₁, κ', ρ, hrun', hfound, hcompletes, rfl⟩ :=
      completeAt node hfits (TypeEnv.admits_empty env κ) (by rwa [TypeEnv.subst_empty])
    obtain ⟨heq, -⟩ := Prod.mk.inj (hrun.symm.trans hrun')
    obtain ⟨-, rfl⟩ := Prod.mk.inj (Except.ok.inj heq)
    refine ⟨ρ.restrict ty.vars, fun v image hv => ?_, fun v hv => ?_, ?_⟩
    · rw [Subst.get?_restrict, Option.ite_none_right_eq_some] at hv
      exact (mem_generalize hclosed).mpr (List.contains_iff_mem.mp hv.1)
    · obtain ⟨hmem, hnumeric⟩ := (Ty.mem_numericVars_of_hasKinds hfound.settled.kinds).mp hv
      rw [ρ.apply_restrict (by simpa [Ty.vars] using hmem)]
      exact hcompletes.respects v hnumeric
    · exact ρ.apply_restrict fun _ hv => hv

theorem exists_unit_alike (hclosed : ClosedAt env next) (hclosed' : ClosedAt env' next')
    (halike : ∀ x ∈ node.names, env.AlikeAt env' x)
    (hunit : (unit env node).Yields next env₁ next₁) :
    ∃ env₁' next₁', (unit env' node).Yields next' env₁' next₁' ∧
      ∀ x, env.AlikeAt env' x → env₁.AlikeAt env₁' x := by
  obtain ⟨κ, hfits, hfree⟩ := hclosed
  rcases yields_unit.mp hunit with ⟨hentry, rfl, rfl⟩ | ⟨name, s, ty, hentry, hrun, rfl⟩
  · exact ⟨env', next', yields_unit.mpr (.inl ⟨hentry, rfl, rfl⟩), fun x hx => hx⟩
  · have hiff := hasInstance_generalize_iff hfits hfree hrun
    have htyped : HasType env node ty := (hiff ty).mp (Scheme.hasInstance_self _)
    obtain ⟨env₁', next₁', hunit'⟩ := exists_yields_unit hclosed' (htyped.congr halike)
    refine ⟨env₁', next₁', hunit', fun x hx => ?_⟩
    obtain ⟨κ', hfits', hfree'⟩ := hclosed'
    rcases yields_unit.mp hunit' with ⟨hnone, -⟩ | ⟨name', s', ty', hentry', hrun', rfl⟩
    · rw [hentry] at hnone
      cases hnone
    · obtain rfl := Option.some.inj (hentry.symm.trans hentry')
      refine .insert (fun _ => hx) fun found => ?_
      rw [hiff, hasInstance_generalize_iff hfits' hfree' hrun']
      constructor
      · exact fun h => h.congr halike
      · exact fun h => h.congr fun x hx => (halike x hx).symm

theorem alikeAt_of_unit (hclosed : ClosedAt env next)
    (hunit : (unit env node).Yields next env₁ next₁)
    (hname : node.entry? = some name → node = .var name) : env₁.AlikeAt env name := by
  obtain ⟨κ, hfits, hfree⟩ := hclosed
  rcases yields_unit.mp hunit with ⟨-, rfl, -⟩ | ⟨entered, s, ty, hentry, hrun, rfl⟩
  · exact .refl env₁ name
  · rw [TypeEnv.AlikeAt, TypeEnv.get?_insert]
    split
    · next heq =>
        -- The unit is a variable, and entered under its own name.
        subst heq
        obtain rfl := hname hentry
        have hiff := hasInstance_generalize_iff hfits hfree hrun
        obtain ⟨scheme, hscheme, -⟩ := yields_var.mp hrun
        rw [hscheme]
        refine .some fun found => (hiff found).trans ⟨fun htyped => ?_, .var hscheme⟩
        cases htyped with
        | var hscheme' hinstance =>
            obtain rfl := Option.some.inj (hscheme.symm.trans hscheme')
            exact hinstance
    · exact TypeEnv.AlikeAt.refl env name

end Entering

end Infer

/-- Some of the units are left out, all of which satisfy a condition. -/
inductive LeavesOut (p : Node → Prop) : List Node → List Node → Prop where
  | nil : LeavesOut p [] []
  | keep {node nodes kept} : LeavesOut p nodes kept → LeavesOut p (node :: nodes) (node :: kept)
  | skip {node nodes kept} : p node → LeavesOut p nodes kept → LeavesOut p (node :: nodes) kept

theorem LeavesOut.imp {p q : Node → Prop} {nodes kept : List Node} (h : LeavesOut p nodes kept)
    (himp : ∀ node ∈ nodes, p node → q node) : LeavesOut q nodes kept := by
  induction h with
  | nil => exact .nil
  | keep _ ih => exact .keep (ih fun node hmem => himp node (List.mem_cons_of_mem _ hmem))
  | skip hp _ ih =>
      exact .skip (himp _ List.mem_cons_self hp)
        (ih fun node hmem => himp node (List.mem_cons_of_mem _ hmem))

/-- Units that enter no name that the others can use, but a variable under its own name, can be
left out: the others are entered as before, up to which variables their schemes have. -/
theorem Infer.exists_units_alike {S : String → Prop} {nodes kept : List Node}
    {env env' last : TypeEnv} {next next' next₁ : TyVar}
    (hleaves : LeavesOut
      (fun node => ∀ name, S name → node.entry? = some name → node = .var name) nodes kept)
    (hnames : ∀ node ∈ nodes, ∀ x ∈ node.names, S x) (hclosed : ClosedAt env next)
    (hclosed' : ClosedAt env' next') (halike : ∀ x, S x → env.AlikeAt env' x)
    (hunits : (units env nodes).Yields next last next₁) :
    ∃ last' next₁', (units env' kept).Yields next' last' next₁' ∧
      ∀ x, S x → last.AlikeAt last' x := by
  induction hleaves generalizing env env' next next' with
  | nil =>
      rw [units, yields_pure] at hunits
      obtain ⟨rfl, rfl⟩ := hunits
      exact ⟨env', next', by simp [units], halike⟩
  | keep _ ih =>
      obtain ⟨env₁, middle, hfirst, hrest⟩ := yields_units_cons.mp hunits
      obtain ⟨hfirstNames, hrestNames⟩ := List.forall_mem_cons.mp hnames
      obtain ⟨env₁', middle', hfirst', halike₁⟩ :=
        exists_unit_alike hclosed hclosed' (fun x hx => halike x (hfirstNames x hx)) hfirst
      obtain ⟨last', next₁', hrest', hlast⟩ :=
        ih hrestNames (closedAt_of_unit hclosed hfirst).1 (closedAt_of_unit hclosed' hfirst').1
          (fun x hx => halike₁ x (halike x hx)) hrest
      exact ⟨last', next₁', yields_units_cons.mpr ⟨env₁', middle', hfirst', hrest'⟩, hlast⟩
  | skip hhidden _ ih =>
      obtain ⟨env₁, middle, hfirst, hrest⟩ := yields_units_cons.mp hunits
      obtain ⟨-, hrestNames⟩ := List.forall_mem_cons.mp hnames
      refine ih hrestNames (closedAt_of_unit hclosed hfirst).1 hclosed' (fun x hx => ?_) hrest
      exact (alikeAt_of_unit hclosed hfirst (hhidden x hx)).trans (halike x hx)

end Viewlet
