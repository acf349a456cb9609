import Mathlib.Data.List.Forall2
import Viewlet.Proofs.Typing.Declarative

namespace Viewlet

/-- Each variable goes with one other at most, on both sides. -/
def OneToOne (R : TyVar → TyVar → Prop) : Prop :=
  ∀ {v w v' w'}, R v w → R v' w' → (v = v' ↔ w = w')

namespace Ty

/-- The types differ only in variables that go together. -/
inductive Alike (R : TyVar → TyVar → Prop) : Ty → Ty → Prop where
  | var {v w} : R v w → Alike R (.var v) (.var w)
  | number {v w} : R v w → Alike R (.number v) (.number w)
  | bool : Alike R .bool .bool
  | float : Alike R .float .float
  | func {parameter result parameter' result'} : Alike R parameter parameter' →
      Alike R result result' → Alike R (.func parameter result) (.func parameter' result')

/-- The same names have been given, in the same order, to variables that go together. -/
structure Naming.Alike (R : TyVar → TyVar → Prop) (naming naming' : Naming) : Prop where
  assigned : List.Forall₂ (fun entry entry' => R entry.1 entry'.1 ∧ entry.2 = entry'.2)
    naming.assigned naming'.assigned
  plainCount : naming.plainCount = naming'.plainCount
  numericCount : naming.numericCount = naming'.numericCount

section Naming

variable {R : TyVar → TyVar → Prop} {naming naming' : Naming} {v w : TyVar} {ty ty' : Ty}

theorem Naming.Alike.lookup_eq (hR : OneToOne R) (h : naming.Alike R naming') (hvw : R v w) :
    naming.assigned.lookup v = naming'.assigned.lookup w := by
  have hassigned := h.assigned
  generalize naming.assigned = entries, naming'.assigned = entries' at hassigned
  induction hassigned with
  | nil => rfl
  | @cons entry entry' entries entries' hentry hrest ih =>
      obtain ⟨u, name⟩ := entry
      obtain ⟨u', name'⟩ := entry'
      obtain ⟨hu, rfl⟩ := hentry
      rw [List.lookup_cons, List.lookup_cons, ih]
      have hbeq : (v == u) = (w == u') := by
        rw [Bool.eq_iff_iff, beq_iff_eq, beq_iff_eq]
        exact hR hvw hu
      rw [hbeq]

theorem Naming.Alike.plain (hR : OneToOne R) (h : naming.Alike R naming') (hvw : R v w) :
    (naming.plain v).1 = (naming'.plain w).1 ∧
      (naming.plain v).2.Alike R (naming'.plain w).2 := by
  rw [Naming.plain, Naming.plain, h.lookup_eq hR hvw]
  cases naming'.assigned.lookup w with
  | some name => exact ⟨rfl, h⟩
  | none =>
      rw [h.plainCount]
      exact ⟨rfl, .cons ⟨hvw, rfl⟩ h.assigned, rfl, h.numericCount⟩

theorem Naming.Alike.numeric (hR : OneToOne R) (h : naming.Alike R naming') (hvw : R v w) :
    (naming.numeric v).1 = (naming'.numeric w).1 ∧
      (naming.numeric v).2.Alike R (naming'.numeric w).2 := by
  rw [Naming.numeric, Naming.numeric, h.lookup_eq hR hvw]
  cases naming'.assigned.lookup w with
  | some name => exact ⟨rfl, h⟩
  | none =>
      rw [h.numericCount]
      exact ⟨rfl, .cons ⟨hvw, rfl⟩ h.assigned, h.plainCount, rfl⟩

theorem Alike.isFunc_eq (h : Alike R ty ty') : ty.isFunc = ty'.isFunc := by
  cases h <;> rfl

theorem Alike.renderWith (hR : OneToOne R) (h : Alike R ty ty')
    (hnaming : naming.Alike R naming') :
    (ty.renderWith naming).1 = (ty'.renderWith naming').1 ∧
      (ty.renderWith naming).2.Alike R (ty'.renderWith naming').2 := by
  induction h generalizing naming naming' with
  | var hvw => exact hnaming.plain hR hvw
  | number hvw => exact hnaming.numeric hR hvw
  | bool => exact ⟨rfl, hnaming⟩
  | float => exact ⟨rfl, hnaming⟩
  | func hparameter hresult ihp ihr =>
      obtain ⟨hleft, hmiddle⟩ := ihp hnaming
      obtain ⟨hright, hlast⟩ := ihr hmiddle
      refine ⟨?_, hlast⟩
      rw [Ty.renderWith, Ty.renderWith, hparameter.isFunc_eq]
      dsimp only
      rw [hleft, hright]

theorem Alike.render_eq (hR : OneToOne R) (h : Alike R ty ty') : ty.render = ty'.render :=
  (h.renderWith hR ⟨.nil, rfl, rfl⟩).1

end Naming

end Ty

section Variants

variable {κ κ' : Kinding} {s t : Subst} {ty : Ty}

/-- The substitutions send the variables, at their kinds, to each other. -/
def Subst.Exchange (s t : Subst) (κ κ' : Kinding) (v w : TyVar) : Prop :=
  s.apply (κ.leaf v) = κ'.leaf w ∧ t.apply (κ'.leaf w) = κ.leaf v

theorem Kinding.leaf_injective {v w : TyVar} (h : κ.leaf v = κ.leaf w) : v = w := by
  have hvars := congrArg Ty.vars h
  simpa using hvars

theorem Subst.oneToOne_exchange (s t : Subst) (κ κ' : Kinding) :
    OneToOne (s.Exchange t κ κ') := by
  rintro v w v' w' ⟨hs, ht⟩ ⟨hs', ht'⟩
  constructor
  · rintro rfl
    exact Kinding.leaf_injective (hs.symm.trans hs')
  · rintro rfl
    exact Kinding.leaf_injective (ht.symm.trans ht')

/-- A type that one substitution changes and another changes back keeps its shape: no variable can
have been replaced but by a variable of its kind. -/
theorem Ty.alike_of_inverse (hty : ty.HasKinds κ) (hty' : (s.apply ty).HasKinds κ')
    (hs : ∀ v ∈ ty.numericVars, (s.apply (.number v)).isNumeric = true)
    (ht : ∀ w ∈ (s.apply ty).numericVars, (t.apply (.number w)).isNumeric = true)
    (hinverse : t.apply (s.apply ty) = ty) :
    Ty.Alike (s.Exchange t κ κ') ty (s.apply ty) := by
  induction ty with
  | var v =>
      cases himage : s.apply (.var v) with
      | var w =>
          rw [himage] at hty' hinverse
          refine .var ⟨?_, ?_⟩
          · rw [Kinding.leaf_of_plain hty, Kinding.leaf_of_plain hty', himage]
          · rw [Kinding.leaf_of_plain hty, Kinding.leaf_of_plain hty', hinverse]
      | number w =>
          rw [himage] at ht hinverse
          have hnumeric := ht w (by simp [numericVars])
          rw [hinverse] at hnumeric
          cases hnumeric
      | _ =>
          rw [himage] at hinverse
          cases hinverse
  | number v =>
      cases himage : s.apply (.number v) with
      | var w =>
          have hnumeric := hs v (by simp [numericVars])
          rw [himage] at hnumeric
          cases hnumeric
      | number w =>
          rw [himage] at hty' hinverse
          refine .number ⟨?_, ?_⟩
          · rw [Kinding.leaf_of_numeric hty, Kinding.leaf_of_numeric hty', himage]
          · rw [Kinding.leaf_of_numeric hty, Kinding.leaf_of_numeric hty', hinverse]
      | _ =>
          rw [himage] at hinverse
          cases hinverse
  | bool => exact .bool
  | float => exact .float
  | func parameter result ihp ihr =>
      obtain ⟨hparameter, hresult⟩ := Ty.func.inj hinverse
      refine .func (ihp hty.1 hty'.1 (fun v hv => hs v ?_) (fun w hw => ht w ?_) hparameter)
        (ihr hty.2 hty'.2 (fun v hv => hs v ?_) (fun w hw => ht w ?_) hresult)
      · exact List.mem_append_left _ hv
      · exact List.mem_append_left _ hw
      · exact List.mem_append_right _ hv
      · exact List.mem_append_right _ hw

end Variants

/-- The schemes stand for the same types. -/
def Scheme.SameInstances (scheme scheme' : Scheme) : Prop :=
  ∀ ty, scheme.HasInstance ty ↔ scheme'.HasInstance ty

theorem Scheme.SameInstances.render_eq {scheme scheme' : Scheme} {κ κ' : Kinding}
    (h : scheme.SameInstances scheme') (hkinds : scheme.ty.HasKinds κ)
    (hkinds' : scheme'.ty.HasKinds κ') : scheme.ty.render = scheme'.ty.render := by
  obtain ⟨s, -, hs, hforth⟩ := (h scheme'.ty).mpr scheme'.hasInstance_self
  obtain ⟨t, -, ht, hback⟩ := (h scheme.ty).mp scheme.hasInstance_self
  rw [← hforth] at hkinds' ht hback ⊢
  exact (Ty.alike_of_inverse hkinds hkinds' hs ht hback).render_eq
    (Subst.oneToOne_exchange s t κ κ')

end Viewlet
