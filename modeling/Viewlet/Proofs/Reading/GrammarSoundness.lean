import Viewlet.Proofs.Reading.Grammar
import Viewlet.Proofs.Reading.ParseRun

namespace Viewlet.Parse

/-- Whatever the parse reads forms the phrase. -/
def Finds {α : Type} (x : Parse α) (phrase : Phrase α) : Prop :=
  ∀ tokens, x.Ends tokens (phrase.Opens tokens) True

/-- The word that is an operator in expressions. -/
def IsNot (token : Token) : Prop :=
  token.kind = .name ∧ token.text = "not"

section Repetition

variable {α : Type} {x : Parse α} {phrase : Phrase α}

theorem manyUpTo_finds (hx : x.Finds phrase) (count : Nat) :
    (manyUpTo x count).Finds (.many phrase) := by
  induction count with
  | zero => exact fun tokens => ends_pure ⟨[], .nil phrase, rfl⟩
  | succ count ih =>
      intro tokens
      refine (hx tokens).manyUpTo_succ ?_ fun _ => ⟨[], .nil phrase, rfl⟩
      rintro result rest ⟨first, hfirst, rfl⟩
      refine (ih rest).mono ?_ id
      rintro results left ⟨others, hothers, rfl⟩
      exact ⟨first ++ others, .cons hfirst hothers, (List.append_assoc ..).symm⟩

theorem many_finds (hx : x.Finds phrase) : (many x).Finds (.many phrase) := fun tokens =>
  ends_remaining_bind (manyUpTo_finds hx _ tokens)

end Repetition

theorem expect_finds (kind : Token.Kind) (tokens : List Token) :
    (expect kind).Ends tokens (fun _ rest => ∃ token : Token, token.kind = kind ∧
      tokens = token :: rest) True :=
  ends_expect (fun token _ htokens hkind => ⟨token, hkind, htokens⟩) fun _ => trivial

theorem name_finds : name.Finds .name := fun _ =>
  ends_nameWhere (fun token _ htokens hname hadmits =>
    ⟨[token], .name hname (Bool.not_eq_true' _ ▸ hadmits), htokens⟩) fun _ => trivial

theorem capitalized_finds : capitalized.Finds .capitalized := fun _ =>
  ends_nameWhere (fun token _ htokens hname hadmits =>
    ⟨[token], .capitalized hname hadmits, htokens⟩) fun _ => trivial

theorem field_finds : (either capitalized name).Finds .field := by
  intro tokens
  refine Ends.either ((capitalized_finds tokens).mono ?_ id) fun _ =>
    (name_finds tokens).mono ?_ id
  · rintro text rest ⟨read, hread, htokens⟩
    exact ⟨read, .typeField hread, htokens⟩
  · rintro text rest ⟨read, hread, htokens⟩
    exact ⟨read, .parameterField hread, htokens⟩

section Expressions

variable {expression : Parse Node} {tokens : List Token}

theorem callee_finds (h : expression.Finds .expression)
    (hplain : ∀ token ∈ tokens.head?, token.kind = .name →
      Token.isCapitalized token.text = false ∧ token.text ≠ "not") :
    (atom expression).Ends tokens (Phrase.callee.Opens tokens) True := by
  refine ends_peek_bind ?_
  cases tokens with
  | nil => exact ends_unexpected trivial
  | cons token rest =>
      rw [List.head?_cons]
      dsimp only
      split
      · next hkind =>
          rw [integer]
          split
          · next hvalue => exact ends_advance_bind (ends_pure ⟨[token], .integer hkind hvalue, rfl⟩)
          · exact ends_fail trivial
      · next hkind => exact ends_advance_bind (ends_pure ⟨[token], .float hkind, rfl⟩)
      · next hkind => exact ends_advance_bind (ends_pure ⟨[token], .isTrue hkind, rfl⟩)
      · next hkind => exact ends_advance_bind (ends_pure ⟨[token], .isFalse hkind, rfl⟩)
      · next hkind =>
          obtain ⟨hlower, hnot⟩ := hplain token rfl hkind
          rw [hlower]
          exact ends_advance_bind (ends_pure ⟨[token], .var (.name hkind hlower) hnot, rfl⟩)
      · next hkind =>
          refine ends_advance_bind ((h rest).bind ?_)
          rintro node _ ⟨inner, hinner, rfl⟩
          refine (expect_finds .rightParen _).bind ?_
          rintro _ left ⟨right, hright, rfl⟩
          refine ends_pure ⟨token :: (inner ++ [right]), .parentheses hkind hinner hright, ?_⟩
          simp
      · exact ends_unexpected trivial

theorem atom_finds (h : expression.Finds .expression)
    (hnot : ∀ token ∈ tokens.head?, ¬IsNot token) :
    (atom expression).Ends tokens (Phrase.atom.Opens tokens) True := by
  by_cases hcapital : ∃ token ∈ tokens.head?, token.kind = .name ∧
      Token.isCapitalized token.text = true
  · obtain ⟨token, hhead, hname, hcapital⟩ := hcapital
    cases tokens with
    | nil => cases hhead
    | cons first rest =>
        obtain rfl : first = token := Option.some.inj hhead
        refine ends_peek_bind ?_
        rw [List.head?_cons]
        dsimp only
        rw [hname]
        dsimp only
        rw [hcapital]
        exact ends_advance_bind (ends_pure ⟨[first], .constant (.capitalized hname hcapital), rfl⟩)
  · refine (callee_finds h fun token hhead hname => ⟨?_, fun heq => ?_⟩).mono ?_ id
    · rw [← Bool.not_eq_true]
      exact fun hcapitalized => hcapital ⟨token, hhead, hname, hcapitalized⟩
    · exact hnot token hhead ⟨hname, heq⟩
    · rintro node rest ⟨read, hread, htokens⟩
      exact ⟨read, .callee hread, htokens⟩

theorem not_isNot_of_startsArgument {token : Token} (h : startsArgument token = true) :
    ¬IsNot token := by
  rintro ⟨hkind, htext⟩
  rw [startsArgument, hkind] at h
  dsimp only at h
  rw [htext] at h
  cases h

theorem arguments_finds (h : expression.Finds .expression) :
    (arguments expression).Finds (.many .atom) := by
  intro tokens
  refine ends_remaining_bind ?_
  generalize tokens.length = count
  induction count generalizing tokens with
  | zero => exact ends_pure ⟨[], .nil _, rfl⟩
  | succ count ih =>
      refine ends_peek_bind ?_
      cases tokens with
      | nil => exact ends_pure ⟨[], .nil _, rfl⟩
      | cons token rest =>
          rw [List.head?_cons]
          dsimp only
          split
          · next hstarts =>
              have hnot : ∀ other ∈ (token :: rest).head?, ¬IsNot other := by
                rintro _ ⟨⟩
                exact not_isNot_of_startsArgument hstarts
              refine (atom_finds h hnot).bind ?_
              rintro node left ⟨first, hfirst, htokens⟩
              refine (ih left).bind ?_
              rintro nodes last ⟨others, hothers, rfl⟩
              refine ends_pure ⟨first ++ others, .cons hfirst hothers, ?_⟩
              rw [htokens, List.append_assoc]
          · exact ends_pure ⟨[], .nil _, rfl⟩

theorem application_finds (h : expression.Finds .expression)
    (hnot : ∀ token ∈ tokens.head?, ¬IsNot token) :
    (application expression).Ends tokens (Phrase.application.Opens tokens) True := by
  refine ends_peek_bind ?_
  cases tokens with
  | nil => exact ends_unexpected trivial
  | cons token rest =>
      rw [List.head?_cons]
      dsimp only
      split
      · next hcapital =>
          refine ends_advance_bind ((arguments_finds h rest).bind ?_)
          rintro nodes left ⟨others, hothers, rfl⟩
          exact ends_pure ⟨[token] ++ others,
            .construction (.capitalized hcapital.1 hcapital.2) hothers, rfl⟩
      · next hcapital =>
          have hplain : ∀ other ∈ (token :: rest).head?, other.kind = .name →
              Token.isCapitalized other.text = false ∧ other.text ≠ "not" := by
            rintro _ ⟨⟩ hname
            refine ⟨?_, fun heq => hnot token rfl ⟨hname, heq⟩⟩
            rw [← Bool.not_eq_true]
            exact fun hcapitalized => hcapital ⟨hname, hcapitalized⟩
          refine (callee_finds h hplain).bind ?_
          rintro callee left ⟨first, hfirst, htokens⟩
          refine (arguments_finds h left).bind ?_
          rintro nodes last ⟨others, hothers, rfl⟩
          refine ends_pure ⟨first ++ others, .call hfirst hothers, ?_⟩
          rw [htokens, List.append_assoc]

theorem unary_finds (h : expression.Finds .expression) : (unary expression).Finds .unary := by
  intro tokens
  refine ends_remaining_bind ?_
  have happlication : ∀ tokens : List Token, (∀ token ∈ tokens.head?, ¬IsNot token) →
      (application expression).Ends tokens (Phrase.unary.Opens tokens) True := by
    intro tokens hnot
    refine (application_finds h hnot).mono ?_ id
    rintro node rest ⟨read, hread, htokens⟩
    exact ⟨read, .unsigned hread, htokens⟩
  -- The bound on the number of signs is the number of tokens, so all signs are read.
  induction tokens with
  | nil => exact happlication [] fun _ hhead => by cases hhead
  | cons token rest ih =>
      refine ends_peek_bind ?_
      rw [List.head?_cons]
      dsimp only
      split
      · next hnot =>
          refine ends_advance_bind (ih.bind ?_)
          rintro node left ⟨read, hread, rfl⟩
          exact ends_pure ⟨token :: read, .not hnot.1 hnot.2 hread, rfl⟩
      · next hnot =>
          split
          · next hminus =>
              refine ends_advance_bind (ih.bind ?_)
              rintro node left ⟨read, hread, rfl⟩
              exact ends_pure ⟨token :: read, .minus hminus hread, rfl⟩
          · refine happlication _ ?_
            rintro _ ⟨⟩
            exact hnot

theorem chainUpTo_finds {operand : Parse Node} {operators : List BinOp}
    {tiers : List (List BinOp)} (h : operand.Finds (.operation tiers)) (count : Nat) (left : Node)
    (tokens : List Token) :
    (chainUpTo (BinOp.table operators) operand count left).Ends tokens
      (fun node rest => ∃ operands, (Phrase.many (.operand operators tiers)).Opens tokens operands
        rest ∧ node = operands.foldl (fun left right => .binary right.1 left right.2) left)
      True := by
  induction count generalizing left tokens with
  | zero => exact ends_pure ⟨[], ⟨[], .nil _, rfl⟩, rfl⟩
  | succ count ih =>
      refine ends_peekKind_bind ?_
      split
      · next op hop =>
          cases tokens with
          | nil => cases hop
          | cons token rest =>
              obtain ⟨hmem, hkind⟩ := BinOp.lookup_table_eq_some.mp hop
              refine ends_advance_bind ((h rest).bind ?_)
              rintro right middle ⟨first, hfirst, rfl⟩
              refine (ih (.binary op left right) middle).mono ?_ id
              rintro node last ⟨operands, ⟨others, hothers, rfl⟩, rfl⟩
              refine ⟨(op, right) :: operands,
                ⟨(token :: first) ++ others, .cons (.operand hmem hkind hfirst) hothers, ?_⟩, rfl⟩
              simp
      · exact ends_pure ⟨[], ⟨[], .nil _, rfl⟩, rfl⟩

theorem operation_finds (h : expression.Finds .expression) (tiers : List (List BinOp)) :
    (operation expression (tiers.map BinOp.table)).Finds (.operation tiers) := by
  induction tiers with
  | nil =>
      intro tokens
      refine (unary_finds h tokens).mono ?_ id
      rintro node rest ⟨read, hread, htokens⟩
      exact ⟨read, .unary hread, htokens⟩
  | cons operators tiers ih =>
      intro tokens
      refine (ih tokens).bind ?_
      rintro left rest ⟨first, hfirst, rfl⟩
      refine ends_remaining_bind ((chainUpTo_finds ih _ left rest).mono ?_ id)
      rintro node last ⟨operands, ⟨others, hothers, rfl⟩, rfl⟩
      exact ⟨first ++ others, .operation hfirst hothers, (List.append_assoc ..).symm⟩

theorem pipelineStep_finds (h : expression.Finds .expression) :
    (pipelineStep expression).Finds .step := by
  intro tokens
  refine (expect_finds .pipeRight tokens).bind ?_
  rintro _ rest ⟨token, hkind, rfl⟩
  refine (operation_finds h BinOp.tiers rest).mono ?_ id
  rintro node left ⟨read, hread, rfl⟩
  exact ⟨token :: read, .step hkind hread, rfl⟩

theorem pipeline_finds (h : expression.Finds .expression) :
    (pipeline expression).Finds .plain := by
  intro tokens
  refine (operation_finds h BinOp.tiers tokens).bind ?_
  rintro left rest ⟨first, hfirst, rfl⟩
  refine ends_peekKind_bind ?_
  split
  · next hkind =>
      cases rest with
      | nil => cases hkind
      | cons token rest =>
          refine ends_advance_bind ((h rest).bind ?_)
          rintro argument last ⟨others, hothers, rfl⟩
          refine ends_pure ⟨first ++ token :: others,
            .applied hfirst (Option.some.inj hkind) hothers, ?_⟩
          simp
  · refine (many_finds (pipelineStep_finds h) rest).bind ?_
    rintro callees last ⟨others, hothers, rfl⟩
    exact ends_pure ⟨first ++ others, .piped hfirst hothers, (List.append_assoc ..).symm⟩
  · refine ends_pure ⟨first ++ [], .piped hfirst (.nil _), ?_⟩
    rw [List.append_nil]

theorem lambda_finds (h : expression.Finds .expression) : (lambda expression).Finds .plain := by
  intro tokens
  refine (expect_finds .backslash tokens).bind ?_
  rintro _ rest ⟨backslash, hbackslash, rfl⟩
  have hparameters : (manyOne name).Ends rest (fun parameters left =>
      ∃ parameter others first others',
      parameters = parameter :: others ∧ Derives .name first parameter ∧
        Derives (.many .name) others' others ∧ rest = first ++ (others' ++ left)) True := by
    refine (name_finds rest).bind ?_
    rintro parameter middle ⟨first, hfirst, rfl⟩
    refine (many_finds name_finds middle).bind ?_
    rintro others left ⟨others', hothers, rfl⟩
    exact ends_pure ⟨parameter, others, first, others', rfl, hfirst, hothers, rfl⟩
  refine hparameters.label.bind ?_
  rintro _ left ⟨parameter, others, first, others', rfl, hfirst, hothers, rfl⟩
  refine (expect_finds .arrow left).bind ?_
  rintro _ last ⟨arrow, harrow, rfl⟩
  refine (h last).bind ?_
  rintro body final ⟨read, hread, rfl⟩
  refine ends_pure ⟨_, .lambda hbackslash hfirst hothers harrow hread, ?_⟩
  simp

/-- The expression behind an `else` is no chain of conditions, or its arms would have been read as
further arms. -/
theorem armsUpTo_finds (h : expression.Finds .expression)
    (hplain : ∀ tokens : List Token, tokens.head?.map (·.kind) ≠ some .wordIf →
      expression.Ends tokens (Phrase.plain.Opens tokens) True) (count : Nat) :
    (armsUpTo expression count).Finds .arms := by
  induction count with
  | zero => exact fun tokens => ends_unexpected trivial
  | succ count ih =>
      intro tokens
      refine (h tokens).bind ?_
      rintro condition rest ⟨first, hfirst, rfl⟩
      refine (expect_finds .wordThen rest).bind ?_
      rintro _ rest ⟨wordThen, hthen, rfl⟩
      refine (h rest).bind ?_
      rintro branch rest ⟨second, hsecond, rfl⟩
      refine (expect_finds .wordElse rest).bind ?_
      rintro _ rest ⟨wordElse, helse, rfl⟩
      refine ends_peekKind_bind ?_
      split
      · next hkind =>
          cases rest with
          | nil => cases hkind
          | cons wordIf rest =>
              refine ends_advance_bind ((ih rest).bind ?_)
              rintro ⟨conditions, branches⟩ last ⟨others, hothers, rfl⟩
              refine ends_pure ⟨_,
                .arm hfirst hthen hsecond helse (Option.some.inj hkind) hothers, ?_⟩
              simp
      · next hkind =>
          refine (hplain rest hkind).bind ?_
          rintro otherwise last ⟨others, hothers, rfl⟩
          refine ends_pure ⟨_, .lastArm hfirst hthen hsecond helse hothers, ?_⟩
          simp

theorem conditional_finds (h : expression.Finds .expression)
    (hplain : ∀ tokens : List Token, tokens.head?.map (·.kind) ≠ some .wordIf →
      expression.Ends tokens (Phrase.plain.Opens tokens) True) :
    (conditional expression).Finds .expression := by
  intro tokens
  refine (expect_finds .wordIf tokens).bind ?_
  rintro _ rest ⟨wordIf, hif, rfl⟩
  refine ends_remaining_bind ((armsUpTo_finds h hplain _ rest).bind ?_)
  rintro ⟨conditions, branches⟩ last ⟨read, hread, rfl⟩
  exact ends_pure ⟨wordIf :: read, .conditional hif hread, rfl⟩

theorem expressionWithin_finds (depth : Nat) :
    (expressionWithin depth).Finds .expression ∧
      ∀ tokens : List Token, tokens.head?.map (·.kind) ≠ some .wordIf →
        (expressionWithin depth).Ends tokens (Phrase.plain.Opens tokens) True := by
  induction depth with
  | zero => exact ⟨fun tokens => ends_unexpected trivial, fun tokens _ => ends_unexpected trivial⟩
  | succ depth ih =>
      obtain ⟨hexpression, hplain⟩ := ih
      have hopens : ∀ tokens node rest, Phrase.plain.Opens tokens node rest →
          Phrase.expression.Opens tokens node rest := by
        rintro tokens node rest ⟨read, hread, htokens⟩
        exact ⟨read, .plain hread, htokens⟩
      constructor
      · intro tokens
        refine ends_peekKind_bind ?_
        split
        · exact (lambda_finds hexpression tokens).mono (hopens tokens) id
        · exact conditional_finds hexpression hplain tokens
        · exact (pipeline_finds hexpression tokens).mono (hopens tokens) id
      · intro tokens hif
        refine ends_peekKind_bind ?_
        split
        · exact lambda_finds hexpression tokens
        · next hkind => exact absurd hkind hif
        · exact pipeline_finds hexpression tokens

theorem expression_finds : Parse.expression.Finds .expression := fun tokens =>
  ends_remaining_bind ((expressionWithin_finds _).1 tokens)

end Expressions

section Units

theorem declaration_finds : declaration.Finds .item := by
  intro tokens
  refine (name_finds tokens).label.bind ?_
  rintro text rest ⟨first, hfirst, rfl⟩
  refine (many_finds name_finds rest).bind ?_
  rintro parameters rest ⟨others, hothers, rfl⟩
  refine (expect_finds .equals rest).bind ?_
  rintro _ rest ⟨equals, hequals, rfl⟩
  refine (expression_finds rest).bind ?_
  rintro body last ⟨read, hread, rfl⟩
  refine ends_pure ⟨_, .declaration hfirst hothers hequals hread, ?_⟩
  simp

theorem constructor_finds (result : String) : (constructor result).Finds (.constructor result) := by
  intro tokens
  refine (capitalized_finds tokens).label.bind ?_
  rintro text rest ⟨first, hfirst, rfl⟩
  refine (many_finds field_finds rest).bind ?_
  rintro fields last ⟨others, hothers, rfl⟩
  exact ends_pure ⟨_, .constructor hfirst hothers, (List.append_assoc ..).symm⟩

theorem alternative_finds (result : String) : (alternative result).Finds (.alternative result) := by
  intro tokens
  refine (expect_finds .bar tokens).bind ?_
  rintro _ rest ⟨bar, hbar, rfl⟩
  refine (constructor_finds result rest).mono ?_ id
  rintro found last ⟨read, hread, rfl⟩
  exact ⟨bar :: read, .alternative hbar hread, rfl⟩

theorem typeDefinition_finds : typeDefinition.Finds .item := by
  intro tokens
  refine (expect_finds .wordType tokens).bind ?_
  rintro _ rest ⟨wordType, htype, rfl⟩
  have hrest : (do
      let defined ← capitalized
      let parameters ← many name
      expect .equals
      let first ← constructor defined
      let others ← many (alternative defined)
      return .typeDefinition defined parameters (first :: others) : Parse Node).Ends rest
        (fun node last => Phrase.item.Opens (wordType :: rest) node last) True := by
    refine (capitalized_finds rest).bind ?_
    rintro text rest ⟨first, hfirst, rfl⟩
    refine (many_finds name_finds rest).bind ?_
    rintro parameters rest ⟨others, hothers, rfl⟩
    refine (expect_finds .equals rest).bind ?_
    rintro _ rest ⟨equals, hequals, rfl⟩
    refine (constructor_finds text rest).bind ?_
    rintro found rest ⟨second, hsecond, rfl⟩
    refine (many_finds (alternative_finds text) rest).bind ?_
    rintro constructors last ⟨alternatives, halternatives, rfl⟩
    refine ends_pure ⟨_, .typeDefinition htype hfirst hothers hequals hsecond halternatives, ?_⟩
    simp
  refine ends_peek_bind ?_
  cases hhead : rest.head? with
  | none => exact hrest
  | some token =>
      dsimp only
      split
      · have hfail : ∀ error : SyntaxError,
            (fail error : Parse Unit).Ends rest (fun _ left => left = rest) True :=
          fun _ => ends_fail trivial
        refine (hfail _).bind ?_
        rintro _ _ rfl
        exact hrest
      · exact hrest

/-- All that is read as a unit is derived as one. -/
theorem item_finds : item.Finds .item := by
  intro tokens
  refine ends_peekKind_bind ?_
  split
  · exact typeDefinition_finds tokens
  · refine ends_get_bind fun reader hreader => ?_
    split
    · exact declaration_finds tokens
    · refine (expression_finds tokens).mono ?_ id
      rintro node rest ⟨read, hread, htokens⟩
      exact ⟨read, .expression hread, htokens⟩

end Units

end Viewlet.Parse
