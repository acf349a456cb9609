import Viewlet.Reading.Item

namespace Viewlet

/-- The kind of token an operator is written with. -/
def BinOp.tokenKind : BinOp → Token.Kind
  | .add => .plus
  | .sub => .minus
  | .mul => .star
  | .div => .slash
  | .eq => .doubleEquals
  | .ne => .notEquals
  | .lt => .lessThan
  | .gt => .greaterThan
  | .le => .lessEquals
  | .ge => .greaterEquals
  | .and => .logicalAnd
  | .or => .logicalOr

/-- The operators, from those that bind least. -/
def BinOp.tiers : List (List BinOp) :=
  [[.or], [.and], [.eq, .ne, .lt, .gt, .le, .ge], [.add, .sub], [.mul, .div]]

/-- The kinds of phrases, with what they denote. -/
inductive Phrase : Type → Type 1 where
  /-- Any number of phrases, one after the other. -/
  | many {α : Type} (phrase : Phrase α) : Phrase (List α)
  | name : Phrase String
  | capitalized : Phrase String
  | field : Phrase String
  /-- An atom other than a capitalized name. -/
  | callee : Phrase Node
  | atom : Phrase Node
  | application : Phrase Node
  | unary : Phrase Node
  /-- Operations of the given tiers. -/
  | operation (tiers : List (List BinOp)) : Phrase Node
  /-- One of some operators, with an operand of the given tiers. -/
  | operand (operators : List BinOp) (tiers : List (List BinOp)) : Phrase (BinOp × Node)
  | step : Phrase Node
  /-- An expression other than a chain of conditions. -/
  | plain : Phrase Node
  | arms : Phrase (List Node × List Node)
  | expression : Phrase Node
  | constructor (result : String) : Phrase Constructor
  | alternative (result : String) : Phrase Constructor
  | item : Phrase Node

/-- The tokens form the phrase, and denote the result. -/
inductive Derives : {α : Type} → Phrase α → List Token → α → Prop where
  | nil {α} (phrase : Phrase α) : Derives (.many phrase) [] []
  | cons {α} {phrase : Phrase α} {first rest result results} : Derives phrase first result →
      Derives (.many phrase) rest results →
      Derives (.many phrase) (first ++ rest) (result :: results)
  | name {token} : token.kind = .name → Token.isCapitalized token.text = false →
      Derives .name [token] token.text
  | capitalized {token} : token.kind = .name → Token.isCapitalized token.text = true →
      Derives .capitalized [token] token.text
  | typeField {tokens text} : Derives .capitalized tokens text → Derives .field tokens text
  | parameterField {tokens text} : Derives .name tokens text → Derives .field tokens text
  | integer {token} : token.kind = .integer →
      Decimal.digitsValue token.text.toList < Nat.pow 2 63 →
      Derives .callee [token] (.integer (Int64.ofNat (Decimal.digitsValue token.text.toList)))
  | float {token} : token.kind = .float →
      Derives .callee [token] (.float (Decimal.toFloat token.text.toList))
  | isTrue {token} : token.kind = .wordTrue → Derives .callee [token] (.boolean true)
  | isFalse {token} : token.kind = .wordFalse → Derives .callee [token] (.boolean false)
  | var {tokens text} : Derives .name tokens text → text ≠ "not" →
      Derives .callee tokens (.var text)
  | parentheses {left inner right node} : left.kind = .leftParen →
      Derives .expression inner node → right.kind = .rightParen →
      Derives .callee (left :: (inner ++ [right])) node
  | callee {tokens node} : Derives .callee tokens node → Derives .atom tokens node
  | constant {tokens text} : Derives .capitalized tokens text →
      Derives .atom tokens (.construction text [])
  | call {first rest callee arguments} : Derives .callee first callee →
      Derives (.many .atom) rest arguments →
      Derives .application (first ++ rest) (callee.applyAll arguments)
  | construction {first rest text arguments} : Derives .capitalized first text →
      Derives (.many .atom) rest arguments →
      Derives .application (first ++ rest) (.construction text arguments)
  | not {token tokens operand} : token.kind = .name → token.text = "not" →
      Derives .unary tokens operand → Derives .unary (token :: tokens) (.negation operand)
  | minus {token tokens operand} : token.kind = .minus → Derives .unary tokens operand →
      Derives .unary (token :: tokens) (Parse.negate operand)
  | unsigned {tokens node} : Derives .application tokens node → Derives .unary tokens node
  | unary {tokens node} : Derives .unary tokens node → Derives (.operation []) tokens node
  | operand {operators tiers op token tokens node} : op ∈ operators →
      token.kind = op.tokenKind → Derives (.operation tiers) tokens node →
      Derives (.operand operators tiers) (token :: tokens) (op, node)
  | operation {operators tiers first rest left operands} :
      Derives (.operation tiers) first left →
      Derives (.many (.operand operators tiers)) rest operands →
      Derives (.operation (operators :: tiers)) (first ++ rest)
        (operands.foldl (fun left right => .binary right.1 left right.2) left)
  | step {token tokens callee} : token.kind = .pipeRight →
      Derives (.operation BinOp.tiers) tokens callee → Derives .step (token :: tokens) callee
  | piped {first rest argument callees} : Derives (.operation BinOp.tiers) first argument →
      Derives (.many .step) rest callees →
      Derives .plain (first ++ rest)
        (callees.foldl (fun argument callee => .apply callee argument) argument)
  | applied {first token rest callee argument} : Derives (.operation BinOp.tiers) first callee →
      token.kind = .pipeLeft → Derives .expression rest argument →
      Derives .plain (first ++ token :: rest) (.apply callee argument)
  | lambda {backslash first rest arrow tokens parameter parameters body} :
      backslash.kind = .backslash → Derives .name first parameter →
      Derives (.many .name) rest parameters → arrow.kind = .arrow →
      Derives .expression tokens body →
      Derives .plain (backslash :: (first ++ (rest ++ arrow :: tokens)))
        (Node.curried (parameter :: parameters) body)
  | lastArm {first wordThen second wordElse last condition branch otherwise} :
      Derives .expression first condition → wordThen.kind = .wordThen →
      Derives .expression second branch → wordElse.kind = .wordElse →
      Derives .plain last otherwise →
      Derives .arms (first ++ wordThen :: (second ++ wordElse :: last))
        ([condition], [branch, otherwise])
  | arm {first wordThen second wordElse wordIf rest condition branch conditions branches} :
      Derives .expression first condition → wordThen.kind = .wordThen →
      Derives .expression second branch → wordElse.kind = .wordElse → wordIf.kind = .wordIf →
      Derives .arms rest (conditions, branches) →
      Derives .arms (first ++ wordThen :: (second ++ wordElse :: wordIf :: rest))
        (condition :: conditions, branch :: branches)
  | plain {tokens node} : Derives .plain tokens node → Derives .expression tokens node
  | conditional {wordIf tokens conditions branches} : wordIf.kind = .wordIf →
      Derives .arms tokens (conditions, branches) →
      Derives .expression (wordIf :: tokens) (.ifElse conditions branches)
  | constructor {result first rest text fields} : Derives .capitalized first text →
      Derives (.many .field) rest fields →
      Derives (.constructor result) (first ++ rest) (.ofFields text fields result)
  | alternative {result bar tokens constructor} : bar.kind = .bar →
      Derives (.constructor result) tokens constructor →
      Derives (.alternative result) (bar :: tokens) constructor
  | expression {tokens node} : Derives .expression tokens node → Derives .item tokens node
  | declaration {first rest equals tokens text parameters body} : Derives .name first text →
      Derives (.many .name) rest parameters → equals.kind = .equals →
      Derives .expression tokens body →
      Derives .item (first ++ (rest ++ equals :: tokens))
        (.declaration text (Node.curried parameters body))
  | typeDefinition {wordType first rest equals second others text parameters constructor
        constructors} : wordType.kind = .wordType → Derives .capitalized first text →
      Derives (.many .name) rest parameters → equals.kind = .equals →
      Derives (.constructor text) second constructor →
      Derives (.many (.alternative text)) others constructors →
      Derives .item (wordType :: (first ++ (rest ++ equals :: (second ++ others))))
        (.typeDefinition text parameters (constructor :: constructors))

namespace Derives

variable {tokens : List Token} {node : Node}

theorem operation_of_inner {tiers : List (List BinOp)} (operators : List BinOp)
    (h : Derives (.operation tiers) tokens node) :
    Derives (.operation (operators :: tiers)) tokens node := by
  have hoperation : Derives (.operation (operators :: tiers)) (tokens ++ []) node :=
    .operation h (.nil _)
  rwa [List.append_nil] at hoperation

theorem operation_of_unary (tiers : List (List BinOp)) (h : Derives .unary tokens node) :
    Derives (.operation tiers) tokens node := by
  induction tiers with
  | nil => exact .unary h
  | cons operators tiers ih => exact ih.operation_of_inner operators

theorem unary_of_callee (h : Derives .callee tokens node) : Derives .unary tokens node := by
  have happlication : Derives .application (tokens ++ []) node := .call h (.nil _)
  rw [List.append_nil] at happlication
  exact .unsigned happlication

theorem plain_of_operation (h : Derives (.operation BinOp.tiers) tokens node) :
    Derives .plain tokens node := by
  have hplain : Derives .plain (tokens ++ []) node := .piped h (.nil _)
  rwa [List.append_nil] at hplain

end Derives

/-- The tokens begin with the phrase and go on with `rest`. -/
def Phrase.Opens {α : Type} (phrase : Phrase α) (tokens : List Token) (result : α)
    (rest : List Token) : Prop :=
  ∃ read, Derives phrase read result ∧ tokens = read ++ rest

namespace BinOp

/-- The operators with the kinds of their tokens. -/
def table (operators : List BinOp) : List (Token.Kind × BinOp) :=
  operators.map fun op => (op.tokenKind, op)

theorem tokenKind_injective {op op' : BinOp} (h : op.tokenKind = op'.tokenKind) : op = op' := by
  cases op <;> cases op' <;> first | rfl | cases h

theorem lookup_table_eq_some {operators : List BinOp} {kind : Token.Kind} {op : BinOp} :
    (table operators).lookup kind = some op ↔ op ∈ operators ∧ kind = op.tokenKind := by
  induction operators with
  | nil => simp [table]
  | cons first operators ih =>
      rw [table, List.map_cons, List.lookup_cons]
      by_cases hkind : kind = first.tokenKind
      · rw [beq_iff_eq.mpr hkind, Option.some_inj]
        constructor
        · rintro rfl
          exact ⟨List.mem_cons_self, hkind⟩
        · exact fun h => tokenKind_injective (hkind.symm.trans h.2)
      · rw [beq_eq_false_iff_ne.mpr hkind]
        refine ih.trans (and_congr_left fun hop => ?_)
        rw [List.mem_cons, or_iff_right]
        rintro rfl
        exact hkind hop

theorem lookup_table_eq_none {operators : List BinOp} {kind : Token.Kind} :
    (table operators).lookup kind = none ↔ ∀ op ∈ operators, kind ≠ op.tokenKind := by
  rw [Option.eq_none_iff_forall_ne_some]
  simp only [ne_eq, lookup_table_eq_some, not_and]

end BinOp

end Viewlet
