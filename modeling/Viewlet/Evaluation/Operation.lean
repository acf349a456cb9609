import Viewlet.Evaluation.EvalError

/-!
Operations on literals. Integers are 64-bit words, so sums, differences and products wrap
around, and division rounds toward zero. An integer that meets a floating point number
becomes one.
-/

namespace Viewlet

/-- Operates on integers. -/
def BinOp.onIntegers (op : BinOp) (a b : Int64) : Except EvalError Node :=
  match op with
  | .add => .ok (.integer (a + b))
  | .sub => .ok (.integer (a - b))
  | .mul => .ok (.integer (a * b))
  | .div => if b = 0 then .error .divisionByZero else .ok (.integer (a / b))
  | .eq => .ok (.boolean (a == b))
  | .ne => .ok (.boolean (a != b))
  | .lt => .ok (.boolean (a < b))
  | .gt => .ok (.boolean (b < a))
  | .le => .ok (.boolean (a ≤ b))
  | .ge => .ok (.boolean (b ≤ a))
  | .and | .or => .error (.unsupportedOperation op (.integer a) (.integer b))

/-- Operates on floating point numbers, which stand for the operands `left` and `right`. -/
def BinOp.onFloats (op : BinOp) (left right : Node) (a b : Float) : Except EvalError Node :=
  match op with
  | .add => .ok (.float (a + b))
  | .sub => .ok (.float (a - b))
  | .mul => .ok (.float (a * b))
  | .div => if b == 0.0 then .error .divisionByZero else .ok (.float (a / b))
  | .eq => .ok (.boolean (a == b))
  | .ne => .ok (.boolean (a != b))
  | .lt => .ok (.boolean (a < b))
  | .gt => .ok (.boolean (b < a))
  | .le => .ok (.boolean (a ≤ b))
  | .ge => .ok (.boolean (b ≤ a))
  | .and | .or => .error (.unsupportedOperation op left right)

/-- Operates on truth values. -/
def BinOp.onBooleans (op : BinOp) (a b : Bool) : Except EvalError Node :=
  match op with
  | .and => .ok (.boolean (a && b))
  | .or => .ok (.boolean (a || b))
  | _ => .error (.unsupportedOperation op (.boolean a) (.boolean b))

/-- Operates on evaluated operands. -/
def BinOp.operate (op : BinOp) (left right : Node) : Except EvalError Node :=
  match left, right with
  | .boolean a, .boolean b => op.onBooleans a b
  | .boolean _, _ => .error (.unsupportedOperation op left right)
  | _, .boolean _ => .error (.unsupportedOperation op left right)
  | .integer a, .integer b => op.onIntegers a b
  | .integer a, .float b => op.onFloats left right a.toFloat b
  | .float a, .integer b => op.onFloats left right a b.toFloat
  | .float a, .float b => op.onFloats left right a b
  | _, _ => .error (.notAnOperand op left right)

end Viewlet
