/-!
Types. There are two kinds of type variables, those that stand for any type and those that
stand for a numeric one; both are numbered from the same supply. In text, variables are
named in the order in which they first appear.
-/

namespace Viewlet

/-- Type variables are numbers. -/
abbrev TyVar : Type := Nat

/-- A type. A `number` variable stands for a numeric type that is not fixed yet. -/
inductive Ty where
  | var (v : TyVar)
  | number (v : TyVar)
  | bool
  | float
  | func (parameter result : Ty)
  deriving DecidableEq, Repr

namespace Ty

/-- Adds a variable to an increasing list, unless it is there. -/
def insertVar (v : TyVar) : List TyVar → List TyVar
  | [] => [v]
  | w :: rest =>
      if v < w then v :: w :: rest
      else if v = w then w :: rest
      else w :: insertVar v rest

/-- The variables of a list in increasing order, each once. -/
def ordered (vars : List TyVar) : List TyVar :=
  vars.foldr insertVar []

theorem mem_insertVar {v x : TyVar} {vars : List TyVar} :
    x ∈ insertVar v vars ↔ x = v ∨ x ∈ vars := by
  induction vars with
  | nil => simp [insertVar]
  | cons w rest ih =>
      rw [insertVar]
      split
      · simp
      · split
        · next h => subst h; simp
        · simp only [List.mem_cons, ih]
          constructor
          · rintro (h | h | h)
            · exact Or.inr (Or.inl h)
            · exact Or.inl h
            · exact Or.inr (Or.inr h)
          · rintro (h | h | h)
            · exact Or.inr (Or.inl h)
            · exact Or.inl h
            · exact Or.inr (Or.inr h)

@[simp] theorem mem_ordered {x : TyVar} {vars : List TyVar} : x ∈ ordered vars ↔ x ∈ vars := by
  induction vars with
  | nil => simp [ordered]
  | cons v rest ih =>
      rw [ordered, List.foldr_cons, mem_insertVar, List.mem_cons]
      exact or_congr Iff.rfl ih

theorem pairwise_insertVar {v : TyVar} {vars : List TyVar} (h : vars.Pairwise (· < ·)) :
    (insertVar v vars).Pairwise (· < ·) := by
  induction vars with
  | nil => simp [insertVar]
  | cons w rest ih =>
      obtain ⟨hw, hrest⟩ := List.pairwise_cons.mp h
      rw [insertVar]
      split
      · next hlt =>
          refine List.pairwise_cons.mpr ⟨fun x hx => ?_, h⟩
          rcases List.mem_cons.mp hx with rfl | hx
          · exact hlt
          · exact Nat.lt_trans hlt (hw x hx)
      · split
        · exact h
        · next hlt hne =>
            refine List.pairwise_cons.mpr ⟨fun x hx => ?_, ih hrest⟩
            rcases mem_insertVar.mp hx with rfl | hx
            · exact Nat.lt_of_le_of_ne (Nat.le_of_not_lt hlt) (Ne.symm hne)
            · exact hw x hx

/-- The variables of a list come in increasing order. -/
theorem pairwise_ordered (vars : List TyVar) : (ordered vars).Pairwise (· < ·) := by
  induction vars with
  | nil => simp [ordered]
  | cons v rest ih => exact pairwise_insertVar ih

theorem nodup_ordered (vars : List TyVar) : (ordered vars).Nodup :=
  (pairwise_ordered vars).imp fun h => Nat.ne_of_lt h

theorem length_ordered_le {first second : List TyVar} (h : ∀ x ∈ first, x ∈ second) :
    (ordered first).length ≤ (ordered second).length :=
  (nodup_ordered first).length_le_of_subset fun _ hx =>
    mem_ordered.mpr (h _ (mem_ordered.mp hx))

theorem length_ordered_lt {first second : List TyVar} {v : TyVar}
    (h : ∀ x ∈ first, x ∈ second) (hv : v ∈ second) (hv' : v ∉ first) :
    (ordered first).length < (ordered second).length := by
  have hnodup : (v :: ordered first).Nodup :=
    List.nodup_cons.mpr ⟨fun hx => hv' (mem_ordered.mp hx), nodup_ordered first⟩
  refine hnodup.length_le_of_subset fun x hx => mem_ordered.mpr ?_
  rcases List.mem_cons.mp hx with rfl | hx
  · exact hv
  · exact h x (mem_ordered.mp hx)

/-- The variables of a type as they appear in it. -/
def vars : Ty → List TyVar
  | .var v => [v]
  | .number v => [v]
  | .bool => []
  | .float => []
  | .func parameter result => parameter.vars ++ result.vars

/-- The number of nodes of a type. -/
def size : Ty → Nat
  | .func parameter result => parameter.size + result.size + 1
  | _ => 1

theorem size_pos (ty : Ty) : 0 < ty.size := by
  cases ty <;> simp [size]

/-- The numeric variables of a type as they appear in it. -/
def numericVars : Ty → List TyVar
  | .number v => [v]
  | .func parameter result => parameter.numericVars ++ result.numericVars
  | _ => []

/-- The names given to variables so far, and how many of each kind there are. -/
structure Naming where
  assigned : List (TyVar × String) := []
  plainCount : Nat := 0
  numericCount : Nat := 0
  deriving DecidableEq, Repr

/-- The name of the plain variable that appears after `count` others: a letter, with a
number once the letters are used up. -/
def plainName (count : Nat) : String :=
  let letter := String.singleton (Char.ofNat ('a'.toNat + count % 26))
  if count < 26 then letter else letter ++ (count / 26).repr

/-- The name of the numeric variable that appears after `count` others. -/
def numericName (count : Nat) : String :=
  if count = 0 then "number" else "number" ++ count.repr

/-- The name of a plain variable, a new one at its first appearance. -/
def Naming.plain (naming : Naming) (v : TyVar) : String × Naming :=
  match naming.assigned.lookup v with
  | some name => (name, naming)
  | none =>
      let name := plainName naming.plainCount
      (name, { naming with
        assigned := (v, name) :: naming.assigned
        plainCount := naming.plainCount + 1 })

/-- The name of a numeric variable, a new one at its first appearance. -/
def Naming.numeric (naming : Naming) (v : TyVar) : String × Naming :=
  match naming.assigned.lookup v with
  | some name => (name, naming)
  | none =>
      let name := numericName naming.numericCount
      (name, { naming with
        assigned := (v, name) :: naming.assigned
        numericCount := naming.numericCount + 1 })

/-- Whether a type is a function type. -/
def isFunc : Ty → Bool
  | .func .. => true
  | _ => false

/-- The text of a type that continues a naming. -/
def renderWith : Ty → Naming → String × Naming
  | .bool, naming => ("Bool", naming)
  | .float, naming => ("Float", naming)
  | .var v, naming => naming.plain v
  | .number v, naming => naming.numeric v
  | .func parameter result, naming =>
      let (left, naming) := parameter.renderWith naming
      let (right, naming) := result.renderWith naming
      ((if parameter.isFunc then "(" ++ left ++ ")" else left) ++ " -> " ++ right, naming)

/-- The text of a type. -/
def render (ty : Ty) : String :=
  (ty.renderWith {}).1

/-- The text of the equation between a variable and a type. -/
def renderEquation (v : TyVar) (ty : Ty) : String :=
  let (left, naming) := (Ty.var v).renderWith {}
  left ++ " = " ++ (ty.renderWith naming).1

end Ty

/-- A type with the variables over which it is general. -/
structure Scheme where
  vars : List TyVar
  ty : Ty
  deriving DecidableEq, Repr

end Viewlet
