import Mathlib.Data.Int.ModEq
import Viewlet.Proofs.Evaluation.PartialEvaluation

namespace Viewlet

/-- The operators on integers whose exact result is an integer for all operands. -/
inductive RingOp where
  | add | sub | mul
  deriving DecidableEq, Repr

namespace RingOp

/-- The operator in expressions. -/
def toBinOp : RingOp → BinOp
  | add => .add
  | sub => .sub
  | mul => .mul

/-- The exact result. -/
def exact : RingOp → Int → Int → Int
  | add, x, y => x + y
  | sub, x, y => x - y
  | mul, x, y => x * y

theorem operate_ofInt (op : RingOp) (x y : Int) :
    op.toBinOp.operate (.integer (.ofInt x)) (.integer (.ofInt y)) =
      .ok (.integer (.ofInt (op.exact x y))) := by
  cases op with
  | add =>
      rw [exact, Int64.ofInt_add]
      rfl
  | sub =>
      rw [exact, Int64.ofInt_sub]
      rfl
  | mul =>
      rw [exact, Int64.ofInt_mul]
      rfl

end RingOp

/-- An expression of integers, sums, differences and products. -/
inductive Arithmetic where
  | integer (value : Int64)
  | operation (op : RingOp) (left right : Arithmetic)
  deriving DecidableEq, Repr

namespace Arithmetic

/-- The expression as a syntax tree. -/
def node : Arithmetic → Node
  | integer value => .integer value
  | operation op left right => .binary op.toBinOp left.node right.node

/-- The exact value over the integers. -/
def exact : Arithmetic → Int
  | integer value => value.toInt
  | operation op left right => op.exact left.exact right.exact

/-- The number of levels of an expression. -/
def height : Arithmetic → Nat
  | integer _ => 1
  | operation _ left right => max left.height right.height + 1

/-- At every depth that reaches its literals, an expression is evaluated to its exact value,
wrapped around, whatever the names around it mean. -/
theorem gives_evaluate (tree : Arithmetic) {depth : Nat} (h : tree.height ≤ depth) (scope : Scope)
    (table : Table) :
    (evaluate depth scope tree.node).Gives table (.ok ⟨.integer (.ofInt tree.exact), true⟩)
      table := by
  induction tree generalizing depth with
  | integer value =>
      obtain ⟨depth, rfl⟩ := Nat.exists_eq_add_of_le' h
      rw [exact, Int64.ofInt_toInt]
      exact Eval.gives_pure.mpr ⟨rfl, rfl⟩
  | operation op left right ihl ihr =>
      obtain ⟨depth, rfl⟩ := Nat.exists_eq_add_of_le' (Nat.le_trans (Nat.le_add_left 1 _) h)
      obtain ⟨hleft, hright⟩ := Nat.max_le.mp (Nat.le_of_succ_le_succ h)
      exact Eval.gives_binary.mpr ⟨_, _, _, ihl hleft, ihr hright,
        .inr ⟨rfl, rfl, _, op.operate_ofInt left.exact right.exact, rfl⟩⟩

end Arithmetic

theorem eq_toInt_ofInt_iff {x z : Int} :
    x = (Int64.ofInt z).toInt ↔ (-2 ^ 63 ≤ x ∧ x < 2 ^ 63) ∧ x ≡ z [ZMOD 2 ^ 64] := by
  have hsize : (Int64.size : Int) = 2 ^ 64 := rfl
  rw [Int64.toInt_ofInt, Int.bmod_def, Int.ModEq, hsize]
  omega

/-- An expression of integers, sums, differences and products has a value in every session and
scope: the integer of 64 bits that is congruent to its exact value, however far the exact values of
its parts are outside of the range. -/
theorem evaluate_arithmetic_exact (tree : Arithmetic) {depth : Nat} (h : tree.height ≤ depth)
    (session : Session) (scope : Scope) :
    ∃ value : Int64,
      session.evaluate depth scope tree.node = some (.ok ⟨.integer value, true⟩, session) ∧
        ∀ x : Int, x = value.toInt ↔
          (-2 ^ 63 ≤ x ∧ x < 2 ^ 63) ∧ x ≡ tree.exact [ZMOD 2 ^ 64] := by
  refine ⟨.ofInt tree.exact, ?_, fun x => eq_toInt_ofInt_iff⟩
  have hrun := tree.gives_evaluate h scope session.table
  rw [Eval.Gives] at hrun
  rw [Session.evaluate, hrun]
  rfl

/-- The greatest integer squared, less twice the least one: all three operations leave the range,
and the value is one. -/
theorem evaluate_arithmetic_exact_overflow :
    let greatest : Arithmetic := .integer Int64.maxValue
    let least : Arithmetic := .integer Int64.minValue
    let tree : Arithmetic := .operation .sub (.operation .mul greatest greatest)
      (.operation .add least least)
    let session : Session := { table := [("one", .integer 1)] }
    tree.height ≤ 3 ∧ tree.exact = 85070591730234615865843651857942052865 ∧
      session.evaluate 3 [("two", .noValue)] tree.node =
        some (.ok ⟨.integer 1, true⟩, session) := by
  intro greatest least tree session
  have hheight : tree.height ≤ 3 := by decide
  obtain ⟨value, hvalue, hexact⟩ :=
    evaluate_arithmetic_exact tree hheight session [("two", .noValue)]
  have hone : value = 1 := Int64.toInt_inj.mp ((hexact 1).mpr ⟨by decide, by decide⟩).symm
  exact ⟨hheight, by decide, hvalue.trans (by rw [hone])⟩

end Viewlet
