import Viewlet.Node.Render
import Viewlet.Typing.Unify

/-!
What can be wrong with the types of a node.
-/

namespace Viewlet

/-- Where two types had to agree. -/
inductive Note where
  | expression (node : Node)
  | declaration (name : String)
  | remark (text : String)

/-- The note in words. -/
def Note.text : Note → String
  | .expression node => "in " ++ node.render
  | .declaration name => "in the declaration of " ++ name
  | .remark text => text

/-- Why a node has no type. -/
inductive TypeError where
  | unbound (name : String)
  | mismatch (expected found : Ty) (note : Option Note)
  /-- The variable would stand for a type that contains it. -/
  | infinite (v : TyVar) (ty : Ty) (note : Option Note)
  /-- The node is of a kind that has no type. -/
  | unsupported (node : Node)

namespace TypeError

/-- The type error of types that have no common instance. -/
def ofUnifyError (note : Option Note) : UnifyError → TypeError
  | .mismatch expected found => .mismatch expected found note
  | .occurs v ty => .infinite v ty note

private def noteText : Option Note → String
  | some note => "\n  Note: " ++ note.text
  | none => ""

/-- The cause in words. -/
def message : TypeError → String
  | .unbound name => "Type error: unbound variable: " ++ name
  | .mismatch expected found note =>
      "Type error: type mismatch: expected " ++ expected.render ++ ", found " ++ found.render ++
        noteText note
  | .infinite v ty note =>
      "Type error: cannot construct infinite type: " ++ Ty.renderEquation v ty ++ noteText note
  | .unsupported node => "Type error: cannot infer a type for " ++ node.render

end TypeError

end Viewlet
