import Viewlet.Node.Render
import Viewlet.Proofs.Reading.WrittenText

namespace Viewlet

/-- Whether a variable, a parameter or a declaration can have the name. -/
def isVariableName (name : String) : Bool :=
  Token.isName name && !Token.isCapitalized name && name != "not"

/-- Whether a constructor or a type can have the name. -/
def isConstructorName (name : String) : Bool :=
  Token.isName name && Token.isCapitalized name

namespace Node

/-- Whether the node is a negative integer. -/
def isNegative : Node → Bool
  | .integer value => value < 0
  | _ => false

/-- The expressions whose text can be read. Only where `conditional` holds, a chain of conditions
can stand. -/
inductive Legible : (conditional : Bool) → Node → Prop where
  | integer {conditional value} : value ≠ Int64.minValue → Legible conditional (.integer value)
  | boolean {conditional} (value : Bool) : Legible conditional (.boolean value)
  | var {conditional name} : isVariableName name = true → Legible conditional (.var name)
  | negation {conditional operand} : Legible false operand → Legible conditional (.negation operand)
  | binary {conditional left right} (op : BinOp) : Legible false left → Legible false right →
      Legible conditional (.binary op left right)
  | function {conditional parameter body} : isVariableName parameter = true → Legible true body →
      Legible conditional (.function parameter body)
  | apply {conditional callee argument} : Legible false callee → callee.isNegative = false →
      Legible false argument → argument.isNegative = false →
      Legible conditional (.apply callee argument)
  | construction {conditional constructor arguments} : isConstructorName constructor = true →
      (∀ argument ∈ arguments, Legible false argument) →
      (∀ argument ∈ arguments, argument.isNegative = false) →
      Legible conditional (.construction constructor arguments)
  | ifElse {conditions branches last} : conditions ≠ [] → branches.length = conditions.length →
      (∀ condition ∈ conditions, Legible true condition) →
      (∀ branch ∈ branches, Legible true branch) → Legible false last →
      Legible true (.ifElse conditions (branches ++ [last]))

/-- The units whose text can be read. -/
inductive LegibleUnit : Node → Prop where
  | expression {node} : Legible true node → LegibleUnit node
  | declaration {name body} : isVariableName name = true → Legible true body →
      LegibleUnit (.declaration name body)
  | typeDefinition {name parameters} {constructors : List (String × List String)} :
      isConstructorName name = true →
      (∀ parameter ∈ parameters, Token.isName parameter = true ∧
        Token.isCapitalized parameter = false) →
      constructors ≠ [] →
      (∀ constructor ∈ constructors, isConstructorName constructor.1 = true ∧
        ∀ field ∈ constructor.2, Token.isName field = true) →
      LegibleUnit (.typeDefinition name parameters
        (constructors.map fun constructor => .ofFields constructor.1 constructor.2 name))

end Node

section Pieces

variable {text : List Char} {node : Node} {property : List Token → Prop}

theorem written_parentheses (h : Written Token.isApart text (Derives .expression · node)) :
    Written Token.isApart ('(' :: (text ++ [')'])) (Derives .callee · node) := by
  have hleft := written_symbol .leftParen (fun _ => true) (by decide)
  have hright := written_symbol .rightParen (fun _ => true) (by decide)
  have hall := hleft.append (h.append hright rfl) (by cases text <;> rfl)
  refine (hall.before fun _ _ => rfl).imp ?_
  rintro _ ⟨_, _, rfl, ⟨left, rfl, hleft⟩, inner, _, rfl, hinner, right, rfl, hright⟩
  exact .parentheses hleft hinner hright

theorem written_plainName {name : String} (hname : Token.isName name = true)
    (hplain : Token.isCapitalized name = false) :
    Written Token.isApart name.toList (Derives .name · name) := by
  refine (written_name hname).imp ?_
  rintro _ ⟨token, rfl, hkind, rfl⟩
  exact .name hkind hplain

theorem isVariableName_eq_true {name : String} : isVariableName name = true ↔
    Token.isName name = true ∧ Token.isCapitalized name = false ∧ name ≠ "not" := by
  simp [isVariableName, and_assoc]

theorem written_variable {name : String} (h : isVariableName name = true) :
    Written Token.isApart name.toList (Derives .name · name) := by
  obtain ⟨hname, hplain, -⟩ := isVariableName_eq_true.mp h
  exact written_plainName hname hplain

theorem written_constructorName {name : String} (h : isConstructorName name = true) :
    Written Token.isApart name.toList (Derives .capitalized · name) := by
  obtain ⟨hname, hcapital⟩ := Bool.and_eq_true_iff.mp h
  refine (written_name hname).imp ?_
  rintro _ ⟨token, rfl, hkind, rfl⟩
  exact .capitalized hkind hcapital

theorem head_isBare (hne : text ≠ []) (htext : text.all Token.continuesName = true) :
    text.head?.any Token.isBare = true := by
  obtain ⟨c, rest, rfl⟩ := List.exists_cons_of_ne_nil hne
  have hc := Token.ne_of_continuesName (List.all_eq_true.mp htext c List.mem_cons_self)
  have hmarks : Token.marks.all fun d => !Token.continuesName d := by decide
  have hnot : c ∉ Token.marks := by
    intro hmem
    exact hc c (by simpa using List.all_eq_true.mp hmarks c hmem) rfl
  simpa [Token.isBare] using hnot

theorem Written.many {α β : Type} {phrase : Phrase β} {write : α → List Char} {denote : α → β}
    {items : List α} (h : Written Token.isApart text property)
    (hitems : ∀ item ∈ items, Written Token.isApart (write item) (Derives phrase · (denote item))) :
    Written Token.isApart (text ++ items.flatMap fun item => ' ' :: write item)
      (Token.Joined property (Derives (.many phrase) · (items.map denote))) := by
  induction items generalizing text property with
  | nil =>
      rw [List.flatMap_nil, List.append_nil]
      exact h.imp fun tokens hproperty =>
        ⟨tokens, [], (List.append_nil tokens).symm, hproperty, .nil _⟩
  | cons item items ih =>
      obtain ⟨hitem, hitems⟩ := List.forall_mem_cons.mp hitems
      -- with its first item, the text is again one that the other items stand behind
      have hrest := ih (h.append hitem.space rfl) hitems
      rw [List.append_assoc] at hrest
      rw [List.flatMap_cons]
      refine hrest.imp ?_
      rintro _ ⟨_, right, rfl, ⟨left, middle, rfl, hleft, hmiddle⟩, hright⟩
      exact ⟨left, middle ++ right, List.append_assoc left middle right, hleft,
        .cons hmiddle hright⟩

theorem toList_spaced (first : String) (words : List String) :
    (spaced first words).toList = first.toList ++ words.flatMap fun word => ' ' :: word.toList := by
  induction words generalizing first with
  | nil => exact (List.append_nil _).symm
  | cons word words ih =>
      rw [spaced, List.foldl_cons]
      refine (ih _).trans ?_
      simp

end Pieces

namespace Derives

variable {first second : List Token} {left right : Node}

theorem operation_append (outer : List (List BinOp)) {tiers : List (List BinOp)}
    (h : Derives (.operation tiers) first left) :
    Derives (.operation (outer ++ tiers)) first left := by
  induction outer with
  | nil => exact h
  | cons operators outer ih => exact ih.operation_of_inner operators

theorem expression_of_operands {op : BinOp} {token : Token} (hleft : Derives .unary first left)
    (hkind : token.kind = op.tokenKind) (hright : Derives .unary second right) :
    Derives .expression (first ++ token :: second) (.binary op left right) := by
  obtain ⟨operators, hmem, hop⟩ : ∃ operators ∈ BinOp.tiers, op ∈ operators := by
    cases op <;> decide
  obtain ⟨outer, inner, htiers⟩ := List.append_of_mem hmem
  have hoperand : Derives (.operand operators inner) (token :: second) (op, right) :=
    .operand hop hkind (.operation_of_unary inner hright)
  have hoperation : Derives (.operation (operators :: inner)) (first ++ (token :: second ++ []))
      (.binary op left right) :=
    .operation (.operation_of_unary inner hleft) (.cons hoperand (.nil _))
  rw [List.append_nil] at hoperation
  have htiered := hoperation.operation_append outer
  rw [← htiers] at htiered
  exact .plain (.plain_of_operation htiered)

theorem expression_of_unary (h : Derives .unary first left) : Derives .expression first left :=
  .plain (.plain_of_operation (.operation_of_unary _ h))

end Derives

namespace Node

attribute [local simp] render renderAll renderChain

variable {conditional : Bool} {node left right : Node}

/-- The text of the node is read as the node. Without `conditional` it can be an operand, and an
argument if it is no negative number. It then begins with a minus or with a character before which
every symbol ends. -/
structure ReadsBack (conditional : Bool) (node : Node) : Prop where
  expression : Written Token.isApart node.render.toList (Derives .expression · node)
  unary : conditional = false → Written Token.isApart node.render.toList (Derives .unary · node)
  callee : conditional = false → node.isNegative = false →
    Written Token.isApart node.render.toList (Derives .callee · node)
  head : conditional = false →
    ∃ c, node.render.toList.head? = some c ∧ (c = '-' ∨ Token.isBare c = true)

theorem ReadsBack.of_callee (h : Written Token.isApart node.render.toList (Derives .callee · node))
    (hhead : node.render.toList.head?.any Token.isBare = true) : node.ReadsBack conditional := by
  have hunary := h.imp fun _ => Derives.unary_of_callee
  obtain ⟨c, hc, hbare⟩ := (Option.any_eq_true _ _).mp hhead
  exact ⟨hunary.imp fun _ => .expression_of_unary, fun _ => hunary, fun _ _ => h,
    fun _ => ⟨c, hc, .inr hbare⟩⟩

theorem ReadsBack.of_parentheses {text : List Char}
    (htext : node.render.toList = '(' :: (text ++ [')']))
    (h : Written Token.isApart text (Derives .expression · node)) : node.ReadsBack conditional :=
  .of_callee (htext ▸ written_parentheses h) (htext ▸ rfl)

theorem written_decimal (n : Nat) :
    Written Token.isApart (Nat.toDigits 10 n) (Token.Single fun token =>
        token.kind = .integer ∧ token.text = n.repr ∧
          Decimal.digitsValue token.text.toList = n) ∧
      (Nat.toDigits 10 n).head?.any Token.isBare = true := by
  have hvalue : Decimal.digitsValue (Nat.toDigits 10 n) = n :=
    Nat.ofDigitChars_toDigits (by decide) (by decide)
  have hdigits : (Nat.toDigits 10 n).all Char.isDigit = true :=
    List.all_eq_true.mpr fun c hc => Nat.isDigit_of_mem_toDigits (by decide) (by decide) hc
  refine ⟨(written_digits Nat.toDigits_ne_nil hdigits).imp ?_,
    head_isBare Nat.toDigits_ne_nil (Token.all_continuesName_of_isDigit hdigits)⟩
  rintro _ ⟨token, rfl, hkind, htext⟩
  refine ⟨token, rfl, hkind, htext, ?_⟩
  rw [htext, String.toList_ofList, hvalue]

theorem written_natural {n : Nat} (h : n < Nat.pow 2 63) :
    Written Token.isApart (Nat.toDigits 10 n) (Derives .callee · (.integer (Int64.ofNat n))) ∧
      (Nat.toDigits 10 n).head?.any Token.isBare = true := by
  obtain ⟨hwritten, hhead⟩ := written_decimal n
  refine ⟨hwritten.imp ?_, hhead⟩
  rintro _ ⟨token, rfl, hkind, -, hvalue⟩
  have hinteger : Derives .callee [token]
      (.integer (Int64.ofNat (Decimal.digitsValue token.text.toList))) :=
    .integer hkind (hvalue.symm ▸ h)
  rwa [hvalue] at hinteger

theorem integer_cases {value : Int64} (h : value ≠ Int64.minValue) :
    ∃ n, n < Nat.pow 2 63 ∧
      (value = Int64.ofNat n ∧ (Node.integer value).render.toList = Nat.toDigits 10 n ∨
        value = -Int64.ofNat n ∧ value < 0 ∧
          (Node.integer value).render.toList = '-' :: Nat.toDigits 10 n) := by
  have hne : Int64.minValue.toInt ≠ value.toInt := fun heq => h (Int64.toInt_inj.mp heq).symm
  have hlow := value.minValue_le_toInt
  have hhigh := value.toInt_lt
  have hvalue := value.ofInt_toInt
  have hlimit : Nat.pow 2 63 = 9223372036854775808 := rfl
  rw [Int64.toInt_minValue] at hne hlow
  cases hint : value.toInt with
  | ofNat n =>
      rw [hint] at hvalue
      rw [hint, Int.ofNat_eq_natCast] at hhigh
      refine ⟨n, by omega, .inl ⟨hvalue.symm.trans Int64.ofInt_eq_ofNat, ?_⟩⟩
      rw [Node.render, hint]
      exact String.toList_ofList
  | negSucc n =>
      rw [hint] at hne hlow hvalue
      refine ⟨n + 1, by omega, .inr ⟨?_, ?_, ?_⟩⟩
      · rw [← Int64.ofInt_eq_ofNat, ← Int64.ofInt_neg, ← hvalue]
        rfl
      · rw [Int64.lt_iff_toInt_lt, hint]
        exact Int.negSucc_lt_zero n
      · rw [Node.render, hint]
        exact String.toList_append.trans (congrArg ('-' :: ·) String.toList_ofList)

theorem ReadsBack.integer {value : Int64} (h : value ≠ Int64.minValue) :
    (Node.integer value).ReadsBack conditional := by
  obtain ⟨n, hn, ⟨rfl, htext⟩ | ⟨rfl, hnegative, htext⟩⟩ := integer_cases h
  · obtain ⟨hwritten, hhead⟩ := written_natural hn
    exact .of_callee (htext ▸ hwritten) (htext ▸ hhead)
  · have hminus := written_bare .minus rfl (by decide)
    have hunary : Written Token.isApart (Node.integer (-Int64.ofNat n)).render.toList
        (Derives .unary · (.integer (-Int64.ofNat n))) := by
      rw [htext]
      refine (hminus.append (written_natural hn).1 (written_natural hn).2).imp ?_
      rintro _ ⟨_, right, rfl, ⟨token, rfl, hkind⟩, hright⟩
      exact .minus hkind (.unary_of_callee hright)
    refine ⟨hunary.imp fun _ => .expression_of_unary, fun _ => hunary, fun _ hnot => ?_,
      fun _ => ?_⟩
    · rw [isNegative, decide_eq_true hnegative] at hnot
      cases hnot
    · exact ⟨'-', by rw [htext, List.head?_cons], .inl rfl⟩

theorem ReadsBack.boolean (value : Bool) : (Node.boolean value).ReadsBack conditional := by
  cases value with
  | false =>
      refine .of_callee ((written_word .wordFalse rfl).imp ?_) (by decide)
      rintro _ ⟨token, rfl, hkind⟩
      exact .isFalse hkind
  | true =>
      refine .of_callee ((written_word .wordTrue rfl).imp ?_) (by decide)
      rintro _ ⟨token, rfl, hkind⟩
      exact .isTrue hkind

theorem ReadsBack.var {name : String} (h : isVariableName name = true) :
    (Node.var name).ReadsBack conditional := by
  obtain ⟨hname, -, hnot⟩ := isVariableName_eq_true.mp h
  obtain ⟨hidentifier, -⟩ := Bool.and_eq_true_iff.mp hname
  refine .of_callee ((written_variable h).imp fun _ hderives => .var hderives hnot) ?_
  exact head_isBare (Token.ne_nil_of_isIdentifier hidentifier) (Token.all_continuesName hidentifier)

theorem ReadsBack.negation {operand : Node} (h : operand.ReadsBack false) :
    (Node.negation operand).ReadsBack conditional := by
  have hword : Written Token.isApart "not".toList (Token.Single fun token =>
      token.kind = .name ∧ token.text = "not") := written_name (by decide)
  have htext : (Node.negation operand).render.toList =
      '(' :: ("not".toList ++ ' ' :: operand.render.toList ++ [')']) := by
    simp
  refine .of_parentheses htext ((hword.append (h.unary rfl).space rfl).imp ?_)
  rintro _ ⟨_, right, rfl, ⟨token, rfl, hname, hnot⟩, hright⟩
  exact .expression_of_unary (.not hname hnot hright)

theorem ReadsBack.function {parameter : String} {body : Node} (h : isVariableName parameter = true)
    (hbody : body.ReadsBack true) : (Node.function parameter body).ReadsBack conditional := by
  have hbackslash := written_symbol .backslash (fun _ => true) (by decide)
  have harrow := written_bare .arrow rfl (by decide)
  have hparameter := written_variable h
  have htext : (Node.function parameter body).render.toList =
      '(' :: ('\\' :: (parameter.toList ++ ' ' :: '-' :: '>' :: ' ' :: body.render.toList) ++
        [')']) := by
    simp
  have hinner := hbackslash.append
    (hparameter.append (harrow.append hbody.expression.space rfl).space rfl)
    (by cases parameter.toList <;> rfl)
  refine .of_parentheses htext (hinner.imp ?_)
  rintro _ ⟨_, _, rfl, ⟨backslash, rfl, hbackslash⟩, first, _, rfl, hfirst, _, tokens, rfl,
    ⟨arrow, rfl, harrow⟩, htokens⟩
  exact .plain (.lambda hbackslash hfirst (.nil _) harrow htokens)

theorem ReadsBack.apply {callee argument : Node} (hcallee : callee.ReadsBack false)
    (hnot : callee.isNegative = false) (hargument : argument.ReadsBack false)
    (hnot' : argument.isNegative = false) : (Node.apply callee argument).ReadsBack conditional := by
  have htext : (Node.apply callee argument).render.toList =
      '(' :: (callee.render.toList ++ ' ' :: argument.render.toList ++ [')']) := by
    simp
  refine .of_parentheses htext
    (((hcallee.callee rfl hnot).append (hargument.callee rfl hnot').space rfl).imp ?_)
  rintro _ ⟨first, second, rfl, hfirst, hsecond⟩
  have happlication : Derives .application (first ++ (second ++ [])) (callee.apply argument) :=
    .call hfirst (.cons (.callee hsecond) (.nil _))
  rw [List.append_nil] at happlication
  exact .expression_of_unary (.unsigned happlication)

theorem renderAll_eq_map (nodes : List Node) : renderAll nodes = nodes.map render := by
  induction nodes with
  | nil => rfl
  | cons node nodes ih => rw [renderAll, ih, List.map_cons]

theorem ReadsBack.construction {constructor : String} {arguments : List Node}
    (h : isConstructorName constructor = true)
    (harguments : ∀ argument ∈ arguments, argument.ReadsBack false)
    (hnot : ∀ argument ∈ arguments, argument.isNegative = false) :
    (Node.construction constructor arguments).ReadsBack conditional := by
  have htext : (Node.construction constructor arguments).render.toList =
      '(' :: (constructor.toList ++
        (arguments.flatMap fun argument => ' ' :: argument.render.toList) ++ [')']) := by
    simp [toList_spaced, renderAll_eq_map, List.flatMap_map]
  have hatoms : ∀ argument ∈ arguments,
      Written Token.isApart argument.render.toList (Derives .atom · argument) := by
    intro argument hmem
    exact ((harguments argument hmem).callee rfl (hnot argument hmem)).imp fun _ => .callee
  refine .of_parentheses htext (((written_constructorName h).many hatoms).imp ?_)
  rintro _ ⟨first, rest, rfl, hfirst, hrest⟩
  rw [List.map_id'] at hrest
  exact .expression_of_unary (.unsigned (.construction hfirst hrest))

theorem ReadsBack.guarded (h : right.ReadsBack false) :
    Written Token.isApart (guardMinus right.render).toList (Derives .unary · right) ∧
      (guardMinus right.render).toList.head?.any Token.isBare = true := by
  obtain ⟨c, hhead, hc⟩ := h.head rfl
  rw [guardMinus, hhead]
  split
  · have hguarded : ("(" ++ right.render ++ ")").toList =
        '(' :: (right.render.toList ++ [')']) := by
      simp
    rw [hguarded]
    exact ⟨(written_parentheses h.expression).imp fun _ => .unary_of_callee, rfl⟩
  · next hminus =>
      refine ⟨h.unary rfl, ?_⟩
      rw [hhead]
      rcases hc with rfl | hbare
      · exact absurd rfl hminus
      · exact hbare

theorem symbol_eq_letters (op : BinOp) : op.symbol.toList = op.tokenKind.letters := by
  cases op <;> rfl

theorem written_operator (op : BinOp) :
    Written Token.isBare op.tokenKind.letters
      (Token.Single fun token => token.kind = op.tokenKind) := by
  cases op <;> exact written_bare _ rfl (by decide)

theorem ReadsBack.binary (op : BinOp) (hleft : left.ReadsBack false)
    (hright : right.ReadsBack false) : (Node.binary op left right).ReadsBack conditional := by
  obtain ⟨hguarded, hhead⟩ := hright.guarded
  have htext : (Node.binary op left right).render.toList = '(' :: (left.render.toList ++
      (op.tokenKind.letters ++ (guardMinus right.render).toList) ++ [')']) := by
    simp [BinOp.join, symbol_eq_letters]
  have hinner := (hleft.unary rfl).append ((written_operator op).append hguarded hhead)
    (by cases op <;> rfl)
  refine .of_parentheses htext (hinner.imp ?_)
  rintro _ ⟨first, _, rfl, hfirst, _, second, rfl, ⟨token, rfl, hkind⟩, hsecond⟩
  exact .expression_of_operands hfirst hkind hsecond

theorem written_arm {condition branch : Node} {rest : List Char} {property : List Token → Prop}
    (hcondition : condition.ReadsBack true) (hbranch : branch.ReadsBack true)
    (hrest : Written Token.isApart rest property) :
    Written Token.isApart (Token.Kind.wordIf.letters ++ ' ' :: (condition.render.toList ++
        ' ' :: (Token.Kind.wordThen.letters ++ ' ' :: (branch.render.toList ++
          ' ' :: (Token.Kind.wordElse.letters ++ ' ' :: rest)))))
      (fun tokens => ∃ wordIf first wordThen second wordElse others,
        tokens = wordIf :: (first ++ wordThen :: (second ++ wordElse :: others)) ∧
          wordIf.kind = .wordIf ∧ Derives .expression first condition ∧ wordThen.kind = .wordThen ∧
          Derives .expression second branch ∧ wordElse.kind = .wordElse ∧ property others) := by
  have hif := written_word .wordIf rfl
  have hthen := written_word .wordThen rfl
  have helse := written_word .wordElse rfl
  have hall := hif.append (hcondition.expression.append (hthen.append
    (hbranch.expression.append (helse.append hrest.space rfl).space rfl).space rfl).space
    rfl).space rfl
  refine hall.imp ?_
  rintro _ ⟨_, _, rfl, ⟨wordIf, rfl, hif⟩, first, _, rfl, hfirst, _, _, rfl,
    ⟨wordThen, rfl, hthen⟩, second, _, rfl, hsecond, _, others, rfl, ⟨wordElse, rfl, helse⟩,
    hothers⟩
  exact ⟨wordIf, first, wordThen, second, wordElse, others, rfl, hif, hfirst, hthen, hsecond, helse,
    hothers⟩

theorem written_chain {conditions branches : List Node} {last : Node} (hne : conditions ≠ [])
    (hlength : branches.length = conditions.length)
    (hconditions : ∀ condition ∈ conditions, condition.ReadsBack true)
    (hbranches : ∀ branch ∈ branches, branch.ReadsBack true) (hlast : last.ReadsBack false) :
    Written Token.isApart
      (renderChain (renderAll conditions) (renderAll (branches ++ [last]))).toList
      (Token.Joined (Token.Single fun token => token.kind = .wordIf)
        (Derives .arms · (conditions, branches ++ [last]))) := by
  induction conditions generalizing branches with
  | nil => exact absurd rfl hne
  | cons condition conditions ih =>
      obtain ⟨branch, branches, rfl⟩ := List.exists_cons_of_length_eq_add_one hlength
      obtain ⟨hcondition, hconditions⟩ := List.forall_mem_cons.mp hconditions
      obtain ⟨hbranch, hbranches⟩ := List.forall_mem_cons.mp hbranches
      have htext : (renderChain (renderAll (condition :: conditions))
          (renderAll (branch :: branches ++ [last]))).toList =
          Token.Kind.wordIf.letters ++ ' ' :: (condition.render.toList ++
            ' ' :: (Token.Kind.wordThen.letters ++ ' ' :: (branch.render.toList ++
              ' ' :: (Token.Kind.wordElse.letters ++ ' ' :: (renderChain (renderAll conditions)
                (renderAll (branches ++ [last]))).toList)))) := by
        simp
        rfl
      rw [htext]
      rw [List.length_cons, List.length_cons, Nat.add_right_cancel_iff] at hlength
      -- behind the last `else` there is a plain expression, behind the others an `if`
      cases conditions with
      | nil =>
          obtain rfl := List.length_eq_zero_iff.mp hlength
          have hplain := (hlast.unary rfl).imp fun _ hunary =>
            Derives.plain_of_operation (.operation_of_unary BinOp.tiers hunary)
          refine (written_arm hcondition hbranch hplain).imp ?_
          rintro _ ⟨wordIf, first, wordThen, second, wordElse, others, rfl, hif, hfirst, hthen,
            hsecond, helse, hothers⟩
          exact ⟨[wordIf], _, rfl, ⟨wordIf, rfl, hif⟩, .lastArm hfirst hthen hsecond helse hothers⟩
      | cons next conditions =>
          have hrest := ih (List.cons_ne_nil _ _) hlength hconditions hbranches
          refine (written_arm hcondition hbranch hrest).imp ?_
          rintro _ ⟨wordIf, first, wordThen, second, wordElse, _, rfl, hif, hfirst, hthen, hsecond,
            helse, _, others, rfl, ⟨wordIf', rfl, hif'⟩, hothers⟩
          exact ⟨[wordIf], _, rfl, ⟨wordIf, rfl, hif⟩,
            .arm hfirst hthen hsecond helse hif' hothers⟩

theorem Legible.readsBack (h : Legible conditional node) : node.ReadsBack conditional := by
  induction h with
  | integer hvalue => exact .integer hvalue
  | boolean value => exact .boolean value
  | var hname => exact .var hname
  | negation _ ih => exact .negation ih
  | binary op _ _ ihl ihr => exact .binary op ihl ihr
  | function hparameter _ ih => exact .function hparameter ih
  | apply _ hcallee _ hargument ihc iha => exact .apply ihc hcallee iha hargument
  | construction hname _ hnegative ih => exact .construction hname ih hnegative
  | ifElse hne hlength _ _ _ ihc ihb ihl =>
      refine ⟨(written_chain hne hlength ihc ihb ihl).imp ?_, nofun, nofun, nofun⟩
      rintro _ ⟨_, rest, rfl, ⟨wordIf, rfl, hif⟩, harms⟩
      exact .conditional hif harms

theorem written_declaration {name : String} {body : Node} (h : isVariableName name = true)
    (hbody : body.ReadsBack true) :
    Written Token.isApart (Node.declaration name body).render.toList
      (Derives .item · (.declaration name body)) := by
  have hequals := written_bare .equals rfl (by decide)
  have htext : (Node.declaration name body).render.toList =
      name.toList ++ ' ' :: '=' :: ' ' :: body.render.toList := by
    simp
  rw [htext]
  refine ((written_variable h).append (hequals.append hbody.expression.space rfl).space rfl).imp ?_
  rintro _ ⟨first, _, rfl, hfirst, _, tokens, rfl, ⟨equals, rfl, hequals⟩, htokens⟩
  exact .declaration hfirst (.nil _) hequals htokens

end Node

section TypeDefinitions

variable {name : String}

theorem written_field (h : Token.isName name = true) :
    Written Token.isApart name.toList (Derives .field · name) := by
  refine (written_name h).imp ?_
  rintro _ ⟨token, rfl, hkind, rfl⟩
  cases hcapital : Token.isCapitalized token.text with
  | false => exact .parameterField (.name hkind hcapital)
  | true => exact .typeField (.capitalized hkind hcapital)

theorem fields_ofFields (fields : List String) (result : String) :
    (Constructor.ofFields name fields result).fields = fields := by
  rw [Constructor.fields, Constructor.ofFields]
  induction fields with
  | nil => rfl
  | cons field fields ih => exact congrArg (field :: ·) ih

theorem written_constructor {fields : List String} (result : String)
    (h : isConstructorName name = true) (hfields : ∀ field ∈ fields, Token.isName field = true) :
    Written Token.isApart (Constructor.ofFields name fields result).render.toList
      (Derives (.constructor result) · (.ofFields name fields result)) := by
  have hnames : ∀ field ∈ fields,
      Written Token.isApart field.toList (Derives .field · field) :=
    fun field hmem => written_field (hfields field hmem)
  rw [Constructor.render, fields_ofFields, toList_spaced]
  refine ((written_constructorName h).many hnames).imp ?_
  rintro _ ⟨first, rest, rfl, hfirst, hrest⟩
  rw [List.map_id'] at hrest
  exact .constructor hfirst hrest

theorem toList_renderAlternatives (first : String) (rest : List String) :
    (renderAlternatives (first :: rest)).toList =
      ' ' :: (first.toList ++ rest.flatMap fun text => ' ' :: '|' :: ' ' :: text.toList) := by
  rw [renderAlternatives]
  induction rest generalizing first with
  | nil => simp
  | cons text rest ih =>
      have hmove : " " ++ first ++ " | " ++ text = " " ++ (first ++ " | " ++ text) := by
        simp only [String.append_assoc]
      rw [List.foldl_cons, hmove, ih]
      simp

theorem written_typeDefinition {parameters : List String}
    {constructors : List (String × List String)} (hname : isConstructorName name = true)
    (hparameters : ∀ parameter ∈ parameters, Token.isName parameter = true ∧
      Token.isCapitalized parameter = false)
    (hne : constructors ≠ [])
    (hconstructors : ∀ constructor ∈ constructors, isConstructorName constructor.1 = true ∧
      ∀ field ∈ constructor.2, Token.isName field = true) :
    let node := Node.typeDefinition name parameters
      (constructors.map fun constructor => .ofFields constructor.1 constructor.2 name)
    Written Token.isApart node.render.toList (Derives .item · node) := by
  intro node
  obtain ⟨constructor, constructors, rfl⟩ := List.exists_cons_of_ne_nil hne
  obtain ⟨⟨hfirst, hfields⟩, hothers⟩ := List.forall_mem_cons.mp hconstructors
  have htype := written_word .wordType rfl
  have hequals := written_bare .equals rfl (by decide)
  have hbar := written_bare .bar rfl (by decide)
  have hnames : ∀ parameter ∈ parameters,
      Written Token.isApart parameter.toList (Derives .name · parameter) := by
    intro parameter hmem
    obtain ⟨hparameter, hplain⟩ := hparameters parameter hmem
    exact written_plainName hparameter hplain
  have halternatives : ∀ other ∈ constructors, Written Token.isApart
      ('|' :: ' ' :: (Constructor.ofFields other.1 other.2 name).render.toList)
      (Derives (.alternative name) · (.ofFields other.1 other.2 name)) := by
    intro other hmem
    obtain ⟨hother, hfields⟩ := hothers other hmem
    refine (hbar.append (written_constructor name hother hfields).space rfl).imp ?_
    rintro _ ⟨_, tokens, rfl, ⟨bar, rfl, hbar⟩, htokens⟩
    exact .alternative hbar htokens
  have htext : node.render.toList = Token.Kind.wordType.letters ++ ' ' :: (name.toList ++
      (parameters.flatMap fun parameter => ' ' :: parameter.toList) ++ ' ' :: '=' :: ' ' ::
        ((Constructor.ofFields constructor.1 constructor.2 name).render.toList ++
          constructors.flatMap fun other =>
            ' ' :: '|' :: ' ' :: (Constructor.ofFields other.1 other.2 name).render.toList)) := by
    simp [node, Node.render, toList_spaced, toList_renderAlternatives, List.flatMap_map]
    rfl
  have hhead := (written_constructorName hname).many hnames
  have hbody := (written_constructor name hfirst hfields).many halternatives
  rw [htext]
  refine (htype.append (hhead.append (hequals.append hbody.space rfl).space rfl).space rfl).imp ?_
  rintro _ ⟨_, _, rfl, ⟨wordType, rfl, htype⟩, _, _, rfl, ⟨first, rest, rfl, hfirst, hrest⟩, _, _,
    rfl, ⟨equals, rfl, hequals⟩, second, others, rfl, hsecond, hothers⟩
  rw [List.map_id'] at hrest
  have hitem := Derives.typeDefinition htype hfirst hrest hequals hsecond hothers
  rwa [← List.append_assoc] at hitem

end TypeDefinitions

/-- The text of a node is one unit, and is read as the node. -/
theorem reads_render {node : Node} (h : node.LegibleUnit) :
    readProgram node.render = .ok ([node], []) ∧ Session.readSingle node.render = .ok node := by
  cases h with
  | expression hlegible => exact (hlegible.readsBack.expression.imp fun _ => .expression).reads
  | declaration hname hbody => exact (Node.written_declaration hname hbody.readsBack).reads
  | typeDefinition hname hparameters hne hconstructors =>
      exact (written_typeDefinition hname hparameters hne hconstructors).reads

/-- A chain of conditions as a condition, negative numbers around operators, and a constructor that
is applied. -/
theorem reads_render_chain :
    let inner := Node.ifElse [.var "x"] [.boolean false, .integer (-1)]
    let difference := Node.binary .sub (.integer (-2)) (.integer (-3))
    let last := Node.apply (.construction "Just" []) (.negation (.integer (-4)))
    let node := Node.declaration "f"
      (.function "x" (.ifElse [inner, .boolean true] [difference, inner, last]))
    node.LegibleUnit ∧
      node.render = "f = (\\x -> if if x then False else -1 then (-2-(-3)) else if True then " ++
        "if x then False else -1 else ((Just) (not -4)))" ∧
      readProgram node.render = .ok ([node], []) ∧ Session.readSingle node.render = .ok node := by
  intro inner difference last node
  have hinner : Node.Legible true (.ifElse [.var "x"] ([.boolean false] ++ [.integer (-1)])) :=
    .ifElse (by simp) rfl (List.forall_mem_singleton.mpr (.var (by decide)))
      (List.forall_mem_singleton.mpr (.boolean false)) (.integer (by decide))
  have hdifference : difference.Legible true :=
    .binary .sub (.integer (by decide)) (.integer (by decide))
  have hlast : last.Legible false :=
    .apply (.construction (by decide) nofun nofun) rfl
      (.negation (.integer (by decide))) rfl
  have hchain : Node.Legible true
      (.ifElse [inner, .boolean true] ([difference, inner] ++ [last])) :=
    .ifElse (by simp) rfl
      (List.forall_mem_cons.mpr ⟨hinner, List.forall_mem_singleton.mpr (.boolean true)⟩)
      (List.forall_mem_cons.mpr ⟨hdifference, List.forall_mem_singleton.mpr hinner⟩) hlast
  have hnode : node.LegibleUnit :=
    .declaration (by decide) (.function (by decide) hchain)
  exact ⟨hnode, by decide, reads_render hnode⟩

end Viewlet
