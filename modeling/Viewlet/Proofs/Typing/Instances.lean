import Viewlet.Proofs.Typing.Freshness
import Viewlet.Typing.Infer

namespace Viewlet

namespace Subst

theorem get?_insert (s : Subst) (v w : TyVar) (ty : Ty) :
    (s.insert v ty).get? w = if w = v then some ty else s.get? w :=
  lookup_replace v w ty s.bindings

@[simp] theorem apply_insert_var (s : Subst) (v : TyVar) (ty : Ty) :
    (s.insert v ty).apply (.var v) = ty := by
  rw [apply, get?_insert, if_pos rfl, Option.getD_some]

@[simp] theorem apply_insert_number (s : Subst) (v : TyVar) (ty : Ty) :
    (s.insert v ty).apply (.number v) = ty := by
  rw [apply, get?_insert, if_pos rfl, Option.getD_some]

theorem get?_foldl_insert (bindings : List (TyVar × Ty)) (s : Subst) (v : TyVar) :
    (∃ image, (v, image) ∈ bindings ∧
      (bindings.foldl (fun s binding => s.insert binding.1 binding.2) s).get? v = some image) ∨
    ((∀ image, (v, image) ∉ bindings) ∧
      (bindings.foldl (fun s binding => s.insert binding.1 binding.2) s).get? v = s.get? v) := by
  induction bindings generalizing s with
  | nil => exact .inr ⟨fun image => List.not_mem_nil, rfl⟩
  | cons binding rest ih =>
      obtain ⟨w, ty⟩ := binding
      rcases ih (s.insert w ty) with ⟨image, hmem, hget⟩ | ⟨habsent, hget⟩
      · exact .inl ⟨image, List.mem_cons_of_mem _ hmem, hget⟩
      · rw [get?_insert] at hget
        by_cases hv : v = w
        · subst hv
          rw [if_pos rfl] at hget
          exact .inl ⟨ty, List.mem_cons_self, hget⟩
        · rw [if_neg hv] at hget
          refine .inr ⟨fun image hmem => ?_, hget⟩
          rcases List.mem_cons.mp hmem with heq | hmem
          · exact hv (Prod.mk.inj heq).1
          · exact habsent image hmem

theorem mem_of_get?_ofList {bindings : List (TyVar × Ty)} {v : TyVar} {image : Ty}
    (h : (ofList bindings).get? v = some image) : (v, image) ∈ bindings := by
  rcases get?_foldl_insert bindings empty v with ⟨image', hmem, hget⟩ | ⟨-, hget⟩
  · rw [ofList, hget, Option.some.injEq] at h
    exact h ▸ hmem
  · rw [ofList, hget] at h
    simp at h

theorem get?_ofList_eq_none {bindings : List (TyVar × Ty)} {v : TyVar} :
    (ofList bindings).get? v = none ↔ ∀ image, (v, image) ∉ bindings := by
  rcases get?_foldl_insert bindings empty v with ⟨image, hmem, hget⟩ | ⟨habsent, hget⟩
  · rw [ofList, hget]
    exact ⟨fun h => by simp at h, fun h => absurd hmem (h image)⟩
  · rw [ofList, hget]
    exact ⟨fun _ => habsent, fun _ => rfl⟩

end Subst

namespace Scheme

/-- Replaces the variables over which a scheme is general by those from `next` on. -/
def freshening (scheme : Scheme) (next : TyVar) : Subst :=
  .ofList ((scheme.vars.zipIdx next).map fun (v, w) =>
    (v, if scheme.ty.numericVars.contains v then Ty.number w else Ty.var w))

theorem instanceFrom_eq (scheme : Scheme) (next : TyVar) :
    scheme.instanceFrom next = (scheme.freshening next).apply scheme.ty := rfl

/-- The kinding that gives the variables from `next` on the kinds of those they replace. -/
def kindsFrom (scheme : Scheme) (κ : Kinding) (next : TyVar) : Kinding := fun w =>
  if next ≤ w then
    match scheme.vars[w - next]? with
    | some v => scheme.ty.numericVars.contains v
    | none => κ w
  else κ w

variable {scheme : Scheme} {κ : Kinding} {next v w : TyVar} {image : Ty}

theorem kindsFrom_of_lt (hw : w < next) : scheme.kindsFrom κ next w = κ w := by
  simp [kindsFrom, Nat.not_le.mpr hw]

theorem kindsFrom_of_getElem? (hle : next ≤ w) (hv : scheme.vars[w - next]? = some v) :
    scheme.kindsFrom κ next w = scheme.ty.numericVars.contains v := by
  simp [kindsFrom, hle, hv]

theorem get?_freshening_eq_none : (scheme.freshening next).get? v = none ↔ v ∉ scheme.vars := by
  rw [freshening, Subst.get?_ofList_eq_none]
  constructor
  · intro h hv
    obtain ⟨i, hi⟩ := List.mem_iff_getElem?.mp hv
    refine h _ (List.mem_map.mpr ⟨(v, next + i), ?_, rfl⟩)
    rw [List.mem_zipIdx_iff_le_and_getElem?_sub]
    exact ⟨Nat.le_add_right _ _, by simpa using hi⟩
  · intro h image hmem
    obtain ⟨⟨u, w⟩, huw, heq⟩ := List.mem_map.mp hmem
    obtain ⟨-, hu⟩ := List.mem_zipIdx_iff_le_and_getElem?_sub.mp huw
    rw [(Prod.mk.inj heq).1] at hu
    exact h (List.mem_of_getElem? hu)

theorem get?_freshening_eq_some (κ : Kinding) (h : (scheme.freshening next).get? v = some image) :
    ∃ w, next ≤ w ∧ scheme.vars[w - next]? = some v ∧
      image = (scheme.kindsFrom κ next).leaf w := by
  obtain ⟨⟨u, w⟩, huw, heq⟩ := List.mem_map.mp (Subst.mem_of_get?_ofList h)
  obtain ⟨hle, hu⟩ := List.mem_zipIdx_iff_le_and_getElem?_sub.mp huw
  obtain ⟨rfl, rfl⟩ := Prod.mk.inj heq
  refine ⟨w, hle, hu, ?_⟩
  rw [Kinding.leaf, kindsFrom_of_getElem? hle hu]

end Scheme

theorem Ty.mem_vars_of_mem_numericVars {ty : Ty} {v : TyVar} (h : v ∈ ty.numericVars) :
    v ∈ ty.vars := by
  induction ty with
  | var w => simp [numericVars] at h
  | number w => exact h
  | bool => simp [numericVars] at h
  | float => simp [numericVars] at h
  | func parameter result ihp ihr =>
      rcases List.mem_append.mp h with h | h
      · exact List.mem_append_left _ (ihp h)
      · exact List.mem_append_right _ (ihr h)

theorem Subst.mem_numericVars_apply {s : Subst} {ty : Ty} {v : TyVar}
    (h : v ∈ (s.apply ty).numericVars) :
    v ∈ ty.numericVars ∨ ∃ w ∈ ty.vars, ∃ image, s.get? w = some image ∧ v ∈ image.vars := by
  have himage : ∀ {leaf : Ty} {w : TyVar}, w ∈ leaf.vars →
      v ∈ ((s.get? w).getD leaf).numericVars →
      v ∈ leaf.numericVars ∨ ∃ w ∈ leaf.vars, ∃ image, s.get? w = some image ∧ v ∈ image.vars := by
    intro leaf w hw hv
    cases hs : s.get? w with
    | none => exact .inl (by simpa [hs] using hv)
    | some image =>
        refine .inr ⟨w, hw, image, hs, ?_⟩
        exact Ty.mem_vars_of_mem_numericVars (by simpa [hs] using hv)
  induction ty with
  | var w => exact himage (by simp [Ty.vars]) h
  | number w => exact himage (by simp [Ty.vars]) h
  | bool => simp [apply, Ty.numericVars] at h
  | float => simp [apply, Ty.numericVars] at h
  | func parameter result ihp ihr =>
      rcases List.mem_append.mp h with h | h
      · rcases ihp h with h | ⟨w, hw, himage⟩
        · exact .inl (List.mem_append_left _ h)
        · exact .inr ⟨w, List.mem_append_left _ hw, himage⟩
      · rcases ihr h with h | ⟨w, hw, himage⟩
        · exact .inl (List.mem_append_right _ h)
        · exact .inr ⟨w, List.mem_append_right _ hw, himage⟩

namespace Scheme

variable {scheme : Scheme} {κ : Kinding} {next : TyVar} {θ : Subst}

theorem get?_of_spares (h : θ.Spares scheme) {v : TyVar} (hv : v ∈ scheme.vars) :
    θ.get? v = none := by
  cases hθ : θ.get? v with
  | none => rfl
  | some image => exact absurd hv (h v image hθ).1

theorem apply_apply_of_spares (h : θ.Spares scheme) {ι : Subst}
    (hι : ∀ v image, ι.get? v = some image → v ∈ scheme.vars) {v : TyVar}
    (hmem : v ∈ scheme.ty.vars) (hv : v ∉ scheme.vars) :
    ι.apply (θ.apply (κ.leaf v)) = θ.apply (κ.leaf v) := by
  refine Subst.apply_eq_self fun w hw => ?_
  have hfree : w ∉ scheme.vars := by
    rcases Subst.mem_vars_apply.mp hw with ⟨hw, -⟩ | ⟨u, hu, image, himage, hw⟩
    · have hw : w = v := by simpa using hw
      exact hw ▸ hv
    · have hu : u = v := by simpa using hu
      exact (h u image himage).2 (hu ▸ hmem) w hw
  cases hw : ι.get? w with
  | none => rfl
  | some image => exact absurd (hι w image hw) hfree

theorem mem_numericVars_of_spares (h : θ.Spares scheme) {v : TyVar} (hv : v ∈ scheme.vars)
    (hnumeric : v ∈ (θ.apply scheme.ty).numericVars) : v ∈ scheme.ty.numericVars := by
  rcases Subst.mem_numericVars_apply hnumeric with hnumeric | ⟨w, hw, image, himage, hmem⟩
  · exact hnumeric
  · exact absurd hv ((h w image himage).2 hw v hmem)

theorem mem_numericVars_apply_of_spares (h : θ.Spares scheme) {v : TyVar}
    (hv : v ∈ scheme.vars) (hnumeric : v ∈ scheme.ty.numericVars) :
    v ∈ (θ.apply scheme.ty).numericVars := by
  have hunbound := get?_of_spares h hv
  generalize scheme.ty = ty at hnumeric
  induction ty with
  | var w => simp [Ty.numericVars] at hnumeric
  | number w =>
      have hw : v = w := by simpa [Ty.numericVars] using hnumeric
      rw [Subst.apply, ← hw, hunbound]
      simp [Ty.numericVars]
  | bool => simp [Ty.numericVars] at hnumeric
  | float => simp [Ty.numericVars] at hnumeric
  | func parameter result ihp ihr =>
      rcases List.mem_append.mp hnumeric with hnumeric | hnumeric
      · exact List.mem_append_left _ (ihp hnumeric)
      · exact List.mem_append_right _ (ihr hnumeric)

theorem hasInstance_apply_instanceFrom (hkinds : scheme.ty.HasKinds κ)
    (hθ : θ.Respects (scheme.kindsFrom κ next)) (h : θ.Spares scheme) :
    HasInstance ⟨scheme.vars, θ.apply scheme.ty⟩ (θ.apply (scheme.instanceFrom next)) := by
  let ι : Subst := ⟨(scheme.freshening next).bindings.map fun binding =>
    (binding.1, θ.apply binding.2)⟩
  have hget : ∀ v, ι.get? v = ((scheme.freshening next).get? v).map θ.apply :=
    fun v => lookup_map θ.apply v _
  have hι : ∀ v image, ι.get? v = some image → v ∈ scheme.vars := by
    intro v image hv
    rw [hget, Option.map_eq_some_iff] at hv
    obtain ⟨image', himage, -⟩ := hv
    obtain ⟨w, -, hw, -⟩ := get?_freshening_eq_some κ himage
    exact List.mem_of_getElem? hw
  refine ⟨ι, hι, fun v hnumeric => ?_, ?_⟩
  · rw [Subst.apply]
    cases hv : ι.get? v with
    | none => rfl
    | some image =>
        have hgeneral := hι v image hv
        rw [hget, Option.map_eq_some_iff] at hv
        obtain ⟨image', himage, rfl⟩ := hv
        obtain ⟨w, hle, hw, rfl⟩ := get?_freshening_eq_some κ himage
        have hkind : scheme.kindsFrom κ next w = true := by
          rw [kindsFrom_of_getElem? hle hw]
          exact List.contains_iff_mem.mpr (mem_numericVars_of_spares h hgeneral hnumeric)
        rw [Kinding.leaf_of_numeric hkind]
        exact hθ w hkind
  · rw [instanceFrom_eq, ← Subst.apply_compose, ← Subst.apply_compose]
    refine hkinds.apply_congr fun v hmem => ?_
    rw [Subst.apply_compose, Subst.apply_compose]
    by_cases hv : v ∈ scheme.vars
    · rw [Kinding.apply_leaf, get?_of_spares h hv, Option.getD_none, Kinding.apply_leaf, hget,
        Kinding.apply_leaf]
      cases hf : (scheme.freshening next).get? v with
      | none => exact absurd hv (get?_freshening_eq_none.mp hf)
      | some image => rfl
    · rw [apply_apply_of_spares h hι hmem hv, Kinding.apply_leaf κ (scheme.freshening next),
        get?_freshening_eq_none.mpr hv, Option.getD_none]

/-- Every instance of a scheme under a substitution comes from the instance at a counter, by
a substitution that does the same with the variables below the counter. -/
theorem exists_apply_instanceFrom_eq {ty : Ty} (hkinds : scheme.ty.HasKinds κ)
    (hbelow : ∀ v ∈ scheme.ty.vars, v < next) (hθ : θ.Respects κ) (h : θ.Spares scheme)
    (hinstance : HasInstance ⟨scheme.vars, θ.apply scheme.ty⟩ ty) :
    ∃ ρ : Subst, ρ.Respects (scheme.kindsFrom κ next) ∧
      (∀ v, v < next → ρ.get? v = θ.get? v) ∧ ρ.apply (scheme.instanceFrom next) = ty := by
  obtain ⟨ι, hι, hnumeric, rfl⟩ := hinstance
  let ρ : Subst :=
    ⟨((scheme.vars.zipIdx next).map fun (v, w) => (w, ι.apply (κ.leaf v))) ++ θ.bindings⟩
  have hget : ∀ w, ρ.get? w =
      (if next ≤ w then scheme.vars[w - next]?.map fun v => ι.apply (κ.leaf v) else none).or
        (θ.get? w) := by
    intro w
    rw [Subst.get?, List.lookup_append, lookup_zipIdx fun v => ι.apply (κ.leaf v)]
    rfl
  have hold : ∀ v, v < next → ρ.get? v = θ.get? v := by
    intro v hv
    rw [hget, if_neg (Nat.not_le.mpr hv), Option.none_or]
  have hnew : ∀ v w, next ≤ w → scheme.vars[w - next]? = some v →
      ρ.get? w = some (ι.apply (κ.leaf v)) := by
    intro v w hle hw
    rw [hget, if_pos hle, hw]
    rfl
  refine ⟨ρ, fun w hw => ?_, hold, ?_⟩
  · by_cases hle : next ≤ w
    · cases hv : scheme.vars[w - next]? with
      | none =>
          simp only [kindsFrom, hle, if_true, hv] at hw
          have hρ : ρ.get? w = θ.get? w := by rw [hget, if_pos hle, hv]; rfl
          rw [Subst.apply, hρ]
          exact hθ w hw
      | some v =>
          rw [kindsFrom_of_getElem? hle hv] at hw
          have hmem := List.contains_iff_mem.mp hw
          have hkind := ((Ty.mem_numericVars_of_hasKinds hkinds).mp hmem).2
          rw [Subst.apply, hnew v w hle hv, Option.getD_some, Kinding.leaf_of_numeric hkind]
          exact hnumeric v
            (mem_numericVars_apply_of_spares h (List.mem_of_getElem? hv) hmem)
    · rw [kindsFrom_of_lt (Nat.not_le.mp hle)] at hw
      rw [Subst.apply, hold w (Nat.not_le.mp hle)]
      exact hθ w hw
  · rw [instanceFrom_eq, ← Subst.apply_compose, ← Subst.apply_compose]
    refine hkinds.apply_congr fun v hmem => ?_
    rw [Subst.apply_compose, Subst.apply_compose]
    by_cases hv : v ∈ scheme.vars
    · rw [Kinding.apply_leaf κ θ, get?_of_spares h hv, Option.getD_none]
      cases hf : (scheme.freshening next).get? v with
      | none => exact absurd hv (get?_freshening_eq_none.mp hf)
      | some image =>
          obtain ⟨w, hle, hw, rfl⟩ := get?_freshening_eq_some κ hf
          rw [Kinding.apply_leaf κ (scheme.freshening next), hf, Option.getD_some,
            Kinding.apply_leaf, hnew v w hle hw, Option.getD_some]
    · rw [apply_apply_of_spares h hι hmem hv, Kinding.apply_leaf κ (scheme.freshening next),
        get?_freshening_eq_none.mpr hv, Option.getD_none, Kinding.apply_leaf, Kinding.apply_leaf,
        hold v (hbelow v hmem)]

end Scheme

namespace Infer

variable {env : TypeEnv} {κ : Kinding} {next : TyVar} {name : String} {scheme : Scheme}

theorem Stage.instantiate (hfits : env.Fits κ next) (scheme : Scheme) :
    Stage env κ next .empty (scheme.kindsFrom κ next) (next + scheme.vars.length) where
  le := Nat.le_add_right _ _
  kinds _ hv := Scheme.kindsFrom_of_lt hv
  fresh v hv := by
    have hle := Nat.le_trans (Nat.le_add_right _ _) hv
    have hnone : scheme.vars[v - next]? = none :=
      List.getElem?_eq_none (Nat.le_sub_of_add_le' hv)
    simp only [Scheme.kindsFrom, hle, if_true, hnone]
    exact hfits.fresh v hle
  within := Subst.within_empty _
  solved := Subst.solvedOn_empty _

theorem Settled.instantiate (hfits : env.Fits κ next) (h : env.get? name = some scheme) :
    Settled env next .empty (scheme.kindsFrom κ next) (next + scheme.vars.length)
      (scheme.instanceFrom next) where
  kinds := by
    have hmem := TypeEnv.mem_of_get? h
    have hkinds := hfits.kinds hmem
    rw [Scheme.instanceFrom_eq]
    refine hkinds.apply_of_leaves fun v hv => ?_
    rw [Kinding.apply_leaf]
    cases hf : (scheme.freshening next).get? v with
    | none =>
        refine (Kinding.hasKinds_leaf κ v).congr fun w hw => Scheme.kindsFrom_of_lt ?_
        have hw : w = v := by simpa using hw
        exact hw ▸ hfits.below hmem hv
    | some image =>
        obtain ⟨w, -, -, rfl⟩ := Scheme.get?_freshening_eq_some κ hf
        exact Kinding.hasKinds_leaf _ w
  vars {v} hv := by
    have hmem := TypeEnv.mem_of_get? h
    refine ⟨?_, rfl⟩
    rw [Scheme.instanceFrom_eq] at hv
    rcases Subst.mem_vars_apply.mp hv with ⟨hv, hunbound⟩ | ⟨w, hw, image, himage, hv⟩
    · rw [Scheme.get?_freshening_eq_none] at hunbound
      exact .inl (TypeEnv.mem_freeVars.mpr ⟨_, hmem, hv, hunbound⟩)
    · obtain ⟨u, hle, hu, rfl⟩ := Scheme.get?_freshening_eq_some κ himage
      have hv : v = u := by simpa using hv
      subst hv
      refine .inr ⟨hle, ?_⟩
      have hlength := (List.getElem?_eq_some_iff.mp hu).1
      exact (Nat.sub_lt_iff_lt_add' hle).mp hlength

end Infer

end Viewlet
