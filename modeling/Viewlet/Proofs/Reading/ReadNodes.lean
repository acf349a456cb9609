import Viewlet.Proofs.Evaluation.Scoping
import Viewlet.Reading.Unit

namespace Viewlet

/-- A unit as it can be read: an expression or the declaration of one. -/
inductive Node.IsUnit : Node → Prop where
  | expression {node} : node.IsExpression → IsUnit node
  | declaration {name body} : body.IsExpression → IsUnit (.declaration name body)

/-- A property that the grammar hands on from the parts of an expression to the expression. -/
structure Node.Readable (P : Node → Prop) : Prop where
  literal : ∀ {node}, node.isLiteral = true → P node
  var : ∀ name, P (.var name)
  construction : ∀ {constructor arguments}, (∀ argument ∈ arguments, P argument) →
    P (.construction constructor arguments)
  negation : ∀ {operand}, P operand → P (.negation operand)
  binary : ∀ {op left right}, P left → P right → P (.binary op left right)
  function : ∀ {parameter body}, P body → P (.function parameter body)
  apply : ∀ {callee argument}, P callee → P argument → P (.apply callee argument)
  ifElse : ∀ {conditions branches}, conditions ≠ [] →
    branches.length = conditions.length + 1 → (∀ condition ∈ conditions, P condition) →
    (∀ branch ∈ branches, P branch) → P (.ifElse conditions branches)

theorem Node.readable_isExpression : Node.Readable Node.IsExpression where
  literal {node} h := by
    cases node with
    | integer | float | boolean => exact .inert rfl
    | _ => cases h
  var := .var
  construction _ := .inert rfl
  negation := .negation
  binary := .binary
  function := .function trivial
  apply := .apply
  ifElse _ := .ifElse

/-- A unit made of expressions with a property: an expression, the declaration of one, or a type
definition. -/
inductive Node.UnitOf (P : Node → Prop) : Node → Prop where
  | expression {node} : P node → UnitOf P node
  | declaration {name body} : P body → UnitOf P (.declaration name body)
  | typeDefinition {name parameters constructors} :
      (∀ found ∈ constructors, ∃ text fields, found = Constructor.ofFields text fields name) →
      UnitOf P (.typeDefinition name parameters constructors)

theorem Node.UnitOf.isUnit {node : Node} (h : node.UnitOf Node.IsExpression) : node.IsUnit := by
  cases h with
  | expression h => exact .expression h
  | declaration h => exact .declaration h
  | typeDefinition => exact .expression (.inert rfl)

namespace Parse

section Rules

variable {α β : Type} {condition : α → Prop} {condition' : β → Prop}

/-- Whatever the parse gives satisfies the condition. -/
def Ensures (parse : Parse α) (condition : α → Prop) : Prop :=
  ∀ reader result after, parse.run.run reader = (.ok result, after) → condition result

theorem run_bind (x : Parse α) (f : α → Parse β) (reader : Reader) :
    (x >>= f).run.run reader = match x.run.run reader with
      | (.ok a, after) => (f a).run.run after
      | (.error error, after) => (.error error, after) := by
  change (fun outcome => ExceptT.bindCont f outcome.1 outcome.2) (x reader) =
    match x reader with
      | (.ok a, after) => (f a).run.run after
      | (.error error, after) => (.error error, after)
  rcases x reader with ⟨error | a, after⟩ <;> rfl

theorem ensures_pure {a : α} (h : condition a) : (pure a : Parse α).Ensures condition := by
  intro reader result after heq
  cases heq
  exact h

theorem ensures_fail (error : SyntaxError) : (fail error : Parse α).Ensures condition := by
  intro reader result after heq
  cases heq

theorem ensures_unexpected (expected : String) :
    (unexpected expected : Parse α).Ensures condition := by
  intro reader result after heq
  cases heq

namespace Ensures

variable {x : Parse α} {f : α → Parse β}

theorem bind (hx : x.Ensures condition) (hf : ∀ a, condition a → (f a).Ensures condition') :
    (x >>= f).Ensures condition' := by
  intro reader result after h
  rw [run_bind] at h
  split at h
  · next a middle hrun => exact hf a (hx reader a middle hrun) middle result after h
  · cases h

theorem after (hf : ∀ a, (f a).Ensures condition') : (x >>= f).Ensures condition' :=
  have hx : x.Ensures fun _ => True := fun _ _ _ _ => trivial
  hx.bind fun a _ => hf a

theorem tryCatch {handle : SyntaxError → Parse α} (hx : x.Ensures condition)
    (hhandle : ∀ error, (handle error).Ensures condition) :
    (MonadExcept.tryCatch x handle : Parse α).Ensures condition := by
  intro reader result after h
  simp only [ExceptT.run_tryCatch, StateT.run_bind] at h
  rcases hrun : x.run.run reader with ⟨error | a, middle⟩
  · rw [hrun] at h
    exact hhandle error middle result after h
  · rw [hrun] at h
    cases h
    exact hx reader _ _ hrun

theorem manyUpTo (hx : x.Ensures condition) (count : Nat) :
    (Parse.manyUpTo x count).Ensures fun results => ∀ result ∈ results, condition result := by
  induction count with
  | zero => exact ensures_pure fun result hmem => absurd hmem List.not_mem_nil
  | succ count ih =>
      have htry :
          (MonadExcept.tryCatch (some <$> x) fun _ => return none : Parse (Option α)).Ensures
          fun found => ∀ result, found = some result → condition result := by
        refine tryCatch (hx.bind fun result hresult => ensures_pure ?_) fun _ => ensures_pure ?_
        · rintro _ ⟨⟩
          exact hresult
        · rintro _ ⟨⟩
      refine after fun _ => htry.bind fun found hfound => ?_
      cases found with
      | none => exact after fun _ => ensures_pure fun result hmem => absurd hmem List.not_mem_nil
      | some first =>
          refine ih.bind fun rest hrest => ensures_pure fun result hmem => ?_
          rcases List.mem_cons.mp hmem with rfl | hmem
          · exact hfound result rfl
          · exact hrest result hmem

end Ensures

end Rules

section Expressions

variable {P : Node → Prop} {expression operand : Parse Node} {nodes : List Node}

theorem readable_curried (hP : Node.Readable P) (parameters : List String) {body : Node}
    (h : P body) : P (Node.curried parameters body) := by
  induction parameters with
  | nil => exact h
  | cons parameter parameters ih => exact hP.function ih

theorem readable_applyAll (hP : Node.Readable P) {callee : Node} (h : P callee)
    (hnodes : ∀ node ∈ nodes, P node) : P (callee.applyAll nodes) := by
  induction nodes generalizing callee with
  | nil => exact h
  | cons node nodes ih =>
      exact ih (hP.apply h (hnodes node List.mem_cons_self))
        fun node hmem => hnodes node (List.mem_cons_of_mem _ hmem)

theorem readable_steps (hP : Node.Readable P) {argument : Node} (h : P argument)
    (hnodes : ∀ node ∈ nodes, P node) :
    P (nodes.foldl (fun argument callee => .apply callee argument) argument) := by
  induction nodes generalizing argument with
  | nil => exact h
  | cons node nodes ih =>
      exact ih (hP.apply (hnodes node List.mem_cons_self) h)
        fun node hmem => hnodes node (List.mem_cons_of_mem _ hmem)

theorem readable_negate (hP : Node.Readable P) {node : Node} (h : P node) : P (negate node) := by
  cases node with
  | integer | float => exact hP.literal rfl
  | _ => exact hP.binary (hP.literal rfl) h

theorem integer_ensures (hP : Node.Readable P) (token : Token) : (integer token).Ensures P := by
  rw [integer]
  split
  · exact .after fun _ => ensures_pure (hP.literal rfl)
  · exact ensures_fail _

theorem atom_ensures (hP : Node.Readable P) (h : expression.Ensures P) :
    (atom expression).Ensures P := by
  refine .after fun next => ?_
  cases next with
  | none => exact ensures_unexpected _
  | some token =>
      dsimp only
      split
      · exact integer_ensures hP token
      · exact .after fun _ => ensures_pure (hP.literal rfl)
      · exact .after fun _ => ensures_pure (hP.literal rfl)
      · exact .after fun _ => ensures_pure (hP.literal rfl)
      · refine .after fun _ => ?_
        split
        · exact ensures_pure (hP.construction nofun)
        · exact ensures_pure (hP.var _)
      · exact .after fun _ => h.bind fun inner hinner => .after fun _ => ensures_pure hinner
      · exact ensures_unexpected _

theorem arguments_ensures (hP : Node.Readable P) (h : expression.Ensures P) :
    (arguments expression).Ensures fun nodes => ∀ node ∈ nodes, P node := by
  have hnil : (pure [] : Parse (List Node)).Ensures fun nodes => ∀ node ∈ nodes, P node :=
    ensures_pure fun node hmem => absurd hmem List.not_mem_nil
  refine .after fun count => ?_
  induction count with
  | zero => exact hnil
  | succ count ih =>
      refine .after fun next => ?_
      cases next with
      | none => exact hnil
      | some token =>
          dsimp only
          split
          · refine (atom_ensures hP h).bind fun first hfirst => ih.bind fun rest hrest => ?_
            refine ensures_pure fun node hmem => ?_
            rcases List.mem_cons.mp hmem with rfl | hmem
            · exact hfirst
            · exact hrest node hmem
          · exact hnil

theorem application_ensures (hP : Node.Readable P) (h : expression.Ensures P) :
    (application expression).Ensures P := by
  refine .after fun next => ?_
  cases next with
  | none => exact ensures_unexpected _
  | some token =>
      dsimp only
      split
      · exact .after fun _ => (arguments_ensures hP h).bind fun nodes hnodes =>
          ensures_pure (hP.construction hnodes)
      · exact (atom_ensures hP h).bind fun callee hcallee => (arguments_ensures hP h).bind
          fun nodes hnodes => ensures_pure (readable_applyAll hP hcallee hnodes)

theorem unary_ensures (hP : Node.Readable P) (h : expression.Ensures P) :
    (unary expression).Ensures P := by
  refine .after fun count => ?_
  induction count with
  | zero => exact application_ensures hP h
  | succ count ih =>
      refine .after fun next => ?_
      cases next with
      | none => exact application_ensures hP h
      | some token =>
          dsimp only
          split
          · exact .after fun _ => ih.bind fun node hnode => ensures_pure (hP.negation hnode)
          · split
            · exact .after fun _ => ih.bind fun node hnode =>
                ensures_pure (readable_negate hP hnode)
            · exact application_ensures hP h

theorem chainUpTo_ensures (hP : Node.Readable P) (operators : List (Token.Kind × BinOp))
    (h : operand.Ensures P) (count : Nat) {left : Node} (hleft : P left) :
    (chainUpTo operators operand count left).Ensures P := by
  induction count generalizing left with
  | zero => exact ensures_pure hleft
  | succ count ih =>
      refine .after fun kind => ?_
      split
      · exact .after fun _ => h.bind fun right hright => ih (hP.binary hleft hright)
      · exact ensures_pure hleft

theorem operation_ensures (hP : Node.Readable P) (h : expression.Ensures P)
    (tiers : List (List (Token.Kind × BinOp))) : (operation expression tiers).Ensures P := by
  induction tiers with
  | nil => exact unary_ensures hP h
  | cons operators inner ih =>
      exact ih.bind fun left hleft => .after fun count =>
        chainUpTo_ensures hP operators ih count hleft

theorem pipeline_ensures (hP : Node.Readable P) (h : expression.Ensures P) :
    (pipeline expression).Ensures P := by
  have hstep : (pipelineStep expression).Ensures P :=
    .after fun _ => operation_ensures hP h tiers
  refine (operation_ensures hP h tiers).bind fun left hleft => .after fun kind => ?_
  split
  · exact .after fun _ => h.bind fun argument hargument =>
      ensures_pure (hP.apply hleft hargument)
  · refine .bind (.after fun count => hstep.manyUpTo _) fun steps hsteps => ?_
    exact ensures_pure (readable_steps hP hleft hsteps)
  · exact ensures_pure hleft

theorem lambda_ensures (hP : Node.Readable P) (h : expression.Ensures P) :
    (lambda expression).Ensures P :=
  .after fun _ => .after fun parameters => .after fun _ => h.bind fun _ hbody =>
    ensures_pure (readable_curried hP parameters hbody)

/-- The conditions and branches of a chain: there is a condition, and one branch more. -/
def IsChain (P : Node → Prop) (arms : List Node × List Node) : Prop :=
  (arms.1 ≠ [] ∧ arms.2.length = arms.1.length + 1) ∧
    (∀ condition ∈ arms.1, P condition) ∧ ∀ branch ∈ arms.2, P branch

theorem armsUpTo_ensures (h : expression.Ensures P) (count : Nat) :
    (armsUpTo expression count).Ensures (IsChain P) := by
  induction count with
  | zero => exact ensures_unexpected _
  | succ count ih =>
      refine h.bind fun condition hcondition => .after fun _ => ?_
      refine h.bind fun branch hbranch => .after fun _ => .after fun kind => ?_
      dsimp only
      split
      · refine .after fun _ => ih.bind fun arms harms => ensures_pure ?_
        obtain ⟨⟨-, hlength⟩, hconditions, hbranches⟩ := harms
        exact ⟨⟨List.cons_ne_nil _ _, congrArg (· + 1) hlength⟩,
          List.forall_mem_cons.mpr ⟨hcondition, hconditions⟩,
          List.forall_mem_cons.mpr ⟨hbranch, hbranches⟩⟩
      · refine h.bind fun last hlast => ensures_pure ⟨⟨List.cons_ne_nil _ _, rfl⟩, ?_, ?_⟩
        · exact List.forall_mem_singleton.mpr hcondition
        · exact List.forall_mem_cons.mpr ⟨hbranch, List.forall_mem_singleton.mpr hlast⟩

theorem conditional_ensures (hP : Node.Readable P) (h : expression.Ensures P) :
    (conditional expression).Ensures P :=
  .after fun _ => .after fun count => (armsUpTo_ensures h (count + 1)).bind fun _ harms =>
    ensures_pure (hP.ifElse harms.1.1 harms.1.2 harms.2.1 harms.2.2)

theorem expressionWithin_ensures (hP : Node.Readable P) (depth : Nat) :
    (expressionWithin depth).Ensures P := by
  induction depth with
  | zero => exact ensures_unexpected _
  | succ depth ih =>
      refine .after fun kind => ?_
      split
      · exact lambda_ensures hP ih
      · exact conditional_ensures hP ih
      · exact pipeline_ensures hP ih

theorem expression_ensures (hP : Node.Readable P) : Parse.expression.Ensures P :=
  .after fun count => expressionWithin_ensures hP (count + 1)

end Expressions

section Units

variable {P : Node → Prop}

theorem declaration_ensures (hP : Node.Readable P) : declaration.Ensures fun node =>
    ∃ name body, node = .declaration name body ∧ P body :=
  .after fun name => .after fun parameters => .after fun _ =>
    (expression_ensures hP).bind fun _ hbody =>
      ensures_pure ⟨name, _, rfl, readable_curried hP parameters hbody⟩

theorem constructor_ensures (result : String) : (constructor result).Ensures fun found =>
    ∃ name fields, found = .ofFields name fields result :=
  .after fun name => .after fun fields => ensures_pure ⟨name, fields, rfl⟩

theorem typeDefinition_ensures : typeDefinition.Ensures fun node =>
    ∃ name parameters constructors, node = .typeDefinition name parameters constructors ∧
      ∀ found ∈ constructors, ∃ text fields, found = .ofFields text fields name := by
  refine .after fun _ => .after fun next => ?_
  have hrest : (do
      let defined ← capitalized
      let parameters ← many name
      expect .equals
      let first ← constructor defined
      let others ← many (alternative defined)
      return .typeDefinition defined parameters (first :: others) : Parse Node).Ensures
        fun node => ∃ name parameters constructors,
          node = .typeDefinition name parameters constructors ∧
            ∀ found ∈ constructors, ∃ text fields, found = .ofFields text fields name := by
    refine .after fun defined => .after fun parameters => .after fun _ => ?_
    have halternative : (alternative defined).Ensures fun found =>
        ∃ text fields, found = .ofFields text fields defined :=
      .after fun _ => constructor_ensures defined
    refine (constructor_ensures defined).bind fun first hfirst => ?_
    refine .bind (.after fun count => halternative.manyUpTo _) fun others hothers => ?_
    exact ensures_pure ⟨defined, parameters, _, rfl, List.forall_mem_cons.mpr ⟨hfirst, hothers⟩⟩
  cases next with
  | none => exact hrest
  | some token =>
      dsimp only
      split
      · exact .after fun _ => hrest
      · exact hrest

/-- What the grammar of units gives is an expression, the declaration of one, or a type
definition. -/
theorem item_ensures (hP : Node.Readable P) : item.Ensures (Node.UnitOf P) := by
  refine .after fun kind => ?_
  split
  · intro reader node after h
    obtain ⟨name, parameters, constructors, rfl, hconstructors⟩ :=
      typeDefinition_ensures reader node after h
    exact .typeDefinition hconstructors
  · refine .after fun reader => ?_
    split
    · intro reader node after h
      obtain ⟨name, body, rfl, hbody⟩ := declaration_ensures hP reader node after h
      exact .declaration hbody
    · exact fun reader node after h => .expression (expression_ensures hP reader node after h)

/-- Whatever is read as a unit is an expression or the declaration of one. -/
theorem item_isUnit : item.Ensures Node.IsUnit :=
  fun reader node after h => (item_ensures Node.readable_isExpression reader node after h).isUnit

theorem declaration_of_item {reader after : Reader} {name : String} {body : Node}
    (h : item.run.run reader = (.ok (.declaration name body), after)) :
    declaration.run.run reader = (.ok (.declaration name body), after) := by
  have hkind : peekKind.run.run reader = (.ok (reader.peek?.map (·.kind)), reader) := rfl
  have hget : (get : Parse Reader).run.run reader = (.ok reader, reader) := rfl
  rw [item, run_bind, hkind] at h
  dsimp only at h
  split at h
  · obtain ⟨_, _, _, heq, -⟩ := typeDefinition_ensures reader _ _ h
    cases heq
  · rw [run_bind, hget] at h
    dsimp only at h
    split at h
    · exact h
    · cases expression_ensures Node.readable_isExpression reader _ _ h with
      | inert hinert => cases hinert

end Units

end Parse

namespace Reader

variable {reader after : Reader}

theorem readUpTo_of_isDone {parse : Parse Node} (h : reader.isDone = true) (count : Nat) :
    reader.readUpTo parse count = ([], reader) := by
  cases count with
  | zero => rfl
  | succ count => rw [readUpTo, if_pos h]

theorem readUnit_ensures {parse : Parse Node} {condition : Node → Prop}
    (hparse : parse.Ensures condition) {node : Node}
    (h : reader.readUnit parse = (.ok node, after)) : condition node := by
  rw [readUnit] at h
  split at h
  · split at h
    · next hrun =>
        split at h
        · cases h
        · obtain ⟨heq, -⟩ := Prod.mk.inj h
          exact hparse _ _ _ (Except.ok.inj heq ▸ hrun)
    · cases h
  · cases h

theorem readUpTo_ensures {parse : Parse Node} {condition : Node → Prop}
    (hparse : parse.Ensures condition) {count : Nat} {node : Node}
    (h : .ok node ∈ (reader.readUpTo parse count).1) : condition node := by
  induction count generalizing reader with
  | zero => cases h
  | succ count ih =>
      rw [readUpTo] at h
      split at h
      · cases h
      · rcases List.mem_cons.mp h with hfirst | hrest
        · exact readUnit_ensures hparse (Prod.ext hfirst.symm rfl)
        · exact ih hrest

theorem readUnit_declaration {name : String} {body : Node}
    (h : reader.readUnit Parse.item = (.ok (.declaration name body), after)) :
    reader.readUnit Parse.declaration = (.ok (.declaration name body), after) ∧
      body.IsExpression := by
  rw [readUnit] at h ⊢
  split at h
  · next hnext =>
      rw [if_pos hnext]
      split at h
      · next node middle hrun =>
          split at h
          · cases h
          · next hdone =>
              obtain ⟨heq, rfl⟩ := Prod.mk.inj h
              obtain rfl := Except.ok.inj heq
              have hdeclaration := Parse.declaration_of_item hrun
              obtain ⟨name', body', heq', hbody⟩ :=
                Parse.declaration_ensures Node.readable_isExpression _ _ _ hdeclaration
              cases heq'
              rw [hdeclaration]
              exact ⟨if_neg hdone, hbody⟩
      · cases h
  · cases h

theorem readUpTo_declaration {nodes : List Node} {count : Nat}
    (h : (reader.readUpTo Parse.item count).1 = nodes.map .ok)
    (hnodes : ∀ node ∈ nodes, ∃ name body, node = .declaration name body) :
    (reader.readUpTo Parse.declaration count).1 = nodes.map .ok ∧
      ∀ node ∈ nodes, ∃ name body, node = .declaration name body ∧ body.IsExpression := by
  induction count generalizing reader nodes with
  | zero =>
      obtain rfl := List.map_eq_nil_iff.mp h.symm
      exact ⟨rfl, fun node hmem => absurd hmem List.not_mem_nil⟩
  | succ count ih =>
      rw [readUpTo] at h ⊢
      by_cases hdone : reader.isDone = true
      · rw [if_pos hdone] at h ⊢
        obtain rfl := List.map_eq_nil_iff.mp h.symm
        exact ⟨rfl, fun node hmem => absurd hmem List.not_mem_nil⟩
      · rw [if_neg hdone] at h ⊢
        rcases hunit : reader.readUnit Parse.item with ⟨result, next⟩
        rw [hunit] at h
        cases nodes with
        | nil => cases h
        | cons node nodes =>
            obtain ⟨rfl, hrest⟩ := List.cons.inj h
            obtain ⟨name, body, rfl⟩ := hnodes node List.mem_cons_self
            obtain ⟨hfirst, hbody⟩ := readUnit_declaration hunit
            obtain ⟨hothers, hformed⟩ :=
              ih hrest fun node hmem => hnodes node (List.mem_cons_of_mem _ hmem)
            rw [hfirst]
            exact ⟨congrArg (Except.ok (.declaration name body) :: ·) hothers,
              List.forall_mem_cons.mpr ⟨⟨name, body, rfl, hbody⟩, hformed⟩⟩

end Reader

theorem mem_separate {results : List (Except SyntaxError Node)} {node : Node} :
    node ∈ (separate results).1 ↔ .ok node ∈ results := by
  rw [separate, List.mem_filterMap]
  constructor
  · rintro ⟨result, hmem, hresult⟩
    cases result with
    | error => cases hresult
    | ok found =>
        cases hresult
        exact hmem
  · intro hmem
    exact ⟨.ok node, hmem, rfl⟩

theorem eq_map_of_separate {results : List (Except SyntaxError Node)} {nodes : List Node}
    (h : separate results = (nodes, [])) : results = nodes.map .ok := by
  obtain ⟨hnodes, herrors⟩ := Prod.mk.inj h
  clear h
  induction results generalizing nodes with
  | nil =>
      cases hnodes
      rfl
  | cons result results ih =>
      cases result with
      | error error => cases herrors
      | ok node =>
          cases hnodes
          exact congrArg (Except.ok node :: ·) (ih rfl herrors)

/-- If a text is read without complaints and its units are declarations, the grammar of
declarations reads them too, and what they declare are expressions. -/
theorem readAll_declaration {source : String} {nodes : List Node}
    (h : readProgram source = .ok (nodes, []))
    (hnodes : ∀ node ∈ nodes, ∃ name body, node = .declaration name body) :
    ∃ stream, TokenStream.ofSource source = .ok stream ∧
      ((Reader.ofStream stream).readAll Parse.declaration).1 = nodes.map .ok ∧
      ∀ node ∈ nodes, ∃ name body, node = .declaration name body ∧ body.IsExpression := by
  rw [readProgram] at h
  cases hstream : TokenStream.ofSource source with
  | error error =>
      rw [hstream] at h
      cases h
  | ok stream =>
      rw [hstream] at h
      have hresults := eq_map_of_separate (Except.ok.inj h)
      exact ⟨stream, rfl, Reader.readUpTo_declaration hresults hnodes⟩

theorem readProgram_eq_ok {source : String} {nodes : List Node}
    (hexact : Node.allExact nodes = true)
    (h : (readProgram source).toOption.any
      (fun found => Node.sameAll nodes found.1 && found.2.isEmpty) = true) :
    readProgram source = .ok (nodes, []) := by
  cases hread : readProgram source with
  | error error =>
      rw [hread] at h
      cases h
  | ok found =>
      obtain ⟨found, errors⟩ := found
      rw [hread] at h
      obtain ⟨hsame, hempty⟩ := Bool.and_eq_true_iff.mp h
      obtain rfl := Node.eq_of_sameAll (fun _ _ _ => Node.eq_of_same) hexact hsame
      obtain rfl := List.isEmpty_iff.mp hempty
      rfl

end Viewlet
