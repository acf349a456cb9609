import Viewlet.Proofs.Reading.GrammarSoundness

namespace Viewlet

namespace Parse

/-- The parse reads the tokens if `rest` follows them, and gives the result. -/
def Reads {α : Type} (x : Parse α) (tokens rest : List Token) (result : α) : Prop :=
  x.Ends (tokens ++ rest) (fun found left => found = result ∧ left = rest) False

/-- The parse reads all tokens, and gives the result. -/
def ReadsAll {α : Type} (x : Parse α) (tokens : List Token) (result : α) : Prop :=
  x.Ends tokens (fun found left => found = result ∧ left = []) False

/-- Neither an argument nor an operator of the tiers comes next. -/
def Stops (tiers : List (List BinOp)) (rest : List Token) : Prop :=
  ∀ token ∈ rest.head?, startsArgument token = false ∧
    ∀ operators ∈ tiers, ∀ op ∈ operators, token.kind ≠ op.tokenKind

/-- What can come after an expression: the end, or a token that closes it. -/
def Closes (rest : List Token) : Prop :=
  ∀ token ∈ rest.head?, token.kind = .rightParen ∨ token.kind = .wordThen ∨ token.kind = .wordElse

/-- One piece of tokens for each result. -/
inductive Repeats {α : Type} (relates : List Token → α → Prop) : List Token → List α → Prop where
  | nil : Repeats relates [] []
  | cons {first rest result results} : relates first result → Repeats relates rest results →
      Repeats relates (first ++ rest) (result :: results)

/-- The phrase begins with a token with the property. -/
def BeginsWith (property : Token → Prop) (tokens : List Token) : Prop :=
  ∃ token others, tokens = token :: others ∧ property token

/-- The tokens are read as operations of the tiers. -/
def ReadsOperation (tiers : List (List BinOp)) (tokens : List Token) (node : Node) : Prop :=
  tiers.flatten.Nodup → ∀ depth rest, tokens.length ≤ depth + 1 → Stops tiers rest →
    (operation (expressionWithin depth) (tiers.map BinOp.table)).Reads tokens rest node

/-- The tokens are read as a constructor. -/
def ReadsConstructor (result : String) (tokens : List Token) (found : Constructor) : Prop :=
  ∀ rest, (∀ token ∈ rest.head?, token.kind ≠ .name) →
    (constructor result).Reads tokens rest found

/-- The rule for the phrase reads the tokens. Pieces of it that no rule of its own reads are
described by their tokens. -/
def Completes : {α : Type} → Phrase α → List Token → α → Prop
  | _, .many phrase, tokens, results => Repeats (Completes phrase) tokens results
  | _, .name, tokens, text => ∃ token, tokens = [token] ∧ isPlainName token = true ∧
      token.text = text
  | _, .capitalized, tokens, text => ∃ token, tokens = [token] ∧ token.kind = .name ∧
      Token.isCapitalized token.text = true ∧ token.text = text
  | _, .field, tokens, text => ∃ token, tokens = [token] ∧ token.kind = .name ∧ token.text = text
  | _, .callee, tokens, node =>
      BeginsWith (fun token => startsArgument token = true ∧
        ¬(token.kind = .name ∧ Token.isCapitalized token.text = true)) tokens ∧
      ∀ depth rest, tokens.length ≤ depth + 1 →
        (atom (expressionWithin depth)).Reads tokens rest node
  | _, .atom, tokens, node =>
      BeginsWith (fun token => startsArgument token = true) tokens ∧
      ∀ depth rest, tokens.length ≤ depth + 1 →
        (atom (expressionWithin depth)).Reads tokens rest node
  | _, .application, tokens, node =>
      BeginsWith (fun token => startsArgument token = true) tokens ∧
      ∀ depth rest, tokens.length ≤ depth + 1 → Stops [] rest →
        (application (expressionWithin depth)).Reads tokens rest node
  | _, .unary, tokens, node =>
      BeginsWith (fun token => token.kind ≠ .backslash ∧ token.kind ≠ .wordIf) tokens ∧
      ∀ depth rest, tokens.length ≤ depth + 1 → Stops [] rest →
        (unary (expressionWithin depth)).Reads tokens rest node
  | _, .operation tiers, tokens, node =>
      BeginsWith (fun token => token.kind ≠ .backslash ∧ token.kind ≠ .wordIf) tokens ∧
      ReadsOperation tiers tokens node
  | _, .operand operators tiers, tokens, (op, node) =>
      ∃ token others, tokens = token :: others ∧ op ∈ operators ∧ token.kind = op.tokenKind ∧
      ReadsOperation tiers others node
  | _, .step, tokens, node =>
      ∃ token others, tokens = token :: others ∧ token.kind = .pipeRight ∧
      ReadsOperation BinOp.tiers others node
  | _, .plain, tokens, node =>
      BeginsWith (fun token => token.kind ≠ .wordIf) tokens ∧
      ∀ depth rest, tokens.length ≤ depth → Closes rest →
        (expressionWithin depth).Reads tokens rest node
  | _, .arms, tokens, result =>
      ∀ depth count rest, tokens.length ≤ depth → tokens.length < count → Closes rest →
        (armsUpTo (expressionWithin depth) count).Reads tokens rest result
  | _, .expression, tokens, node =>
      ∀ depth rest, tokens.length ≤ depth → Closes rest →
        (expressionWithin depth).Reads tokens rest node
  | _, .constructor result, tokens, found =>
      ReadsConstructor result tokens found
  | _, .alternative result, tokens, found =>
      ∃ bar others, tokens = bar :: others ∧ bar.kind = .bar ∧
      ReadsConstructor result others found
  | _, .item, tokens, node => item.ReadsAll tokens node

section Reading

variable {α β : Type} {x : Parse α} {f : α → Parse β} {tokens rest : List Token} {result : α}
  {goal : β → List Token → Prop} {token : Token}

theorem Reads.bind (hx : x.Reads tokens rest result) (hf : (f result).Ends rest goal False) :
    (x >>= f).Ends (tokens ++ rest) goal False := by
  refine Ends.bind hx ?_
  rintro _ _ ⟨rfl, rfl⟩
  exact hf

theorem Reads.readsAll (h : x.Reads tokens [] result) : x.ReadsAll tokens result := by
  rwa [Reads, List.append_nil] at h

theorem ReadsAll.bind (hx : x.ReadsAll tokens result) (hf : (f result).Ends [] goal False) :
    (x >>= f).Ends tokens goal False := by
  refine Ends.bind hx ?_
  rintro _ _ ⟨rfl, rfl⟩
  exact hf

theorem reads_nameWhere {admits : String → Bool} {expected : String} (hname : token.kind = .name)
    (hadmits : admits token.text = true) :
    (nameWhere admits expected).Reads [token] rest token.text := by
  refine ends_nameWhere ?_ fun hnone => ?_
  · rintro _ _ ⟨⟩ _ _
    exact ⟨rfl, rfl⟩
  · have hrefused := hnone token rest rfl hname
    rw [hadmits] at hrefused
    cases hrefused

theorem name_reads (h : isPlainName token = true) : name.Reads [token] rest token.text := by
  obtain ⟨hname, hplain⟩ := Bool.and_eq_true_iff.mp h
  exact reads_nameWhere (of_decide_eq_true hname) hplain

theorem ends_nameWhere_of_ne {admits : String → Bool} {expected : String}
    (h : ∀ token ∈ tokens.head?, token.kind ≠ .name) :
    (nameWhere admits expected).Ends tokens (fun _ _ => False) True := by
  refine ends_nameWhere ?_ fun _ => trivial
  rintro token rest rfl hname _
  exact h token rfl hname

theorem Repeats.reads_manyUpTo {relates : List Token → α → Prop} (follows : List Token → Prop)
    {results : List α} {count : Nat}
    (hreads : ∀ first result rest, relates first result → follows rest → x.Reads first rest result)
    (hfollows : ∀ first result rest, relates first result → first ≠ [] ∧ follows (first ++ rest))
    (hrest : follows rest) (hstop : x.Ends rest (fun _ _ => False) True)
    (h : Repeats relates tokens results) (hcount : tokens.length < count) :
    (manyUpTo x count).Reads tokens rest results := by
  induction h generalizing count with
  | nil =>
      obtain ⟨count, rfl⟩ := Nat.exists_eq_add_one_of_ne_zero (Nat.ne_zero_of_lt hcount)
      exact hstop.manyUpTo_succ (fun _ _ hfalse => hfalse.elim) fun _ => ⟨rfl, rfl⟩
  | @cons first others result results hfirst hothers ih =>
      obtain ⟨count, rfl⟩ := Nat.exists_eq_add_one_of_ne_zero (Nat.ne_zero_of_lt hcount)
      have hnonempty := List.length_pos_iff.mpr (hfollows first result [] hfirst).1
      rw [List.length_append] at hcount
      have hnext : follows (others ++ rest) := by
        cases hothers with
        | nil => exact hrest
        | cons hsecond =>
            rw [List.append_assoc]
            exact (hfollows _ _ _ hsecond).2
      rw [Reads, List.append_assoc]
      refine (hreads first result _ hfirst hnext).manyUpTo_succ ?_ False.elim
      rintro _ _ ⟨rfl, rfl⟩
      have hothers : (manyUpTo x count).Reads others rest results := ih (by omega)
      refine hothers.mono ?_ id
      rintro _ _ ⟨rfl, rfl⟩
      exact ⟨rfl, rfl⟩

theorem Repeats.reads_many {relates : List Token → α → Prop} (follows : List Token → Prop)
    {results : List α}
    (hreads : ∀ first result rest, relates first result → follows rest → x.Reads first rest result)
    (hfollows : ∀ first result rest, relates first result → first ≠ [] ∧ follows (first ++ rest))
    (hrest : follows rest) (hstop : x.Ends rest (fun _ _ => False) True)
    (h : Repeats relates tokens results) : (many x).Reads tokens rest results := by
  refine ends_remaining_bind (h.reads_manyUpTo follows hreads hfollows hrest hstop ?_)
  rw [List.length_append]
  omega

theorem names_reads {texts : List String} (h : Repeats (Completes .name) tokens texts)
    (hrest : ∀ token ∈ rest.head?, token.kind ≠ .name) : (many name).Reads tokens rest texts := by
  refine h.reads_many (fun _ => True) ?_ ?_ trivial (ends_nameWhere_of_ne hrest)
  · rintro _ _ rest ⟨token, rfl, hplain, rfl⟩ _
    exact name_reads hplain
  · rintro _ _ rest ⟨token, rfl, -⟩
    exact ⟨List.cons_ne_nil token [], trivial⟩

end Reading

section Follow

variable {tiers : List (List BinOp)} {operators : List BinOp} {rest : List Token} {token : Token}

theorem startsArgument_of_tokenKind {op : BinOp} (h : token.kind = op.tokenKind) :
    startsArgument token = false := by
  rw [startsArgument, h]
  cases op <;> rfl

theorem Stops.of_cons (h : Stops (operators :: tiers) rest) : Stops tiers rest :=
  fun token hhead => ⟨(h token hhead).1,
    fun other hmem => (h token hhead).2 other (List.mem_cons_of_mem _ hmem)⟩

theorem Stops.lookup_eq_none (h : Stops (operators :: tiers) rest) :
    (rest.head?.map (·.kind)).bind (fun kind => (BinOp.table operators).lookup kind) = none := by
  cases rest with
  | nil => rfl
  | cons token rest =>
      exact BinOp.lookup_table_eq_none.mpr ((h token rfl).2 operators List.mem_cons_self)

theorem stops_operator {op : BinOp} (hop : op ∈ operators)
    (hdistinct : (operators :: tiers).flatten.Nodup) (hkind : token.kind = op.tokenKind) :
    Stops tiers (token :: rest) := by
  rintro _ ⟨⟩
  refine ⟨startsArgument_of_tokenKind hkind, fun others hothers op' hop' heq => ?_⟩
  rw [List.flatten_cons, List.nodup_append] at hdistinct
  exact hdistinct.2.2 op hop op' (List.mem_flatten.mpr ⟨others, hothers, hop'⟩)
    (BinOp.tokenKind_injective (hkind.symm.trans heq))

theorem Closes.stops (h : Closes rest) (tiers : List (List BinOp)) : Stops tiers rest := by
  intro token hhead
  refine ⟨?_, fun _ _ op _ heq => ?_⟩
  · rcases h token hhead with hkind | hkind | hkind <;> rw [startsArgument, hkind]
  · rcases h token hhead with hkind | hkind | hkind <;> rw [hkind] at heq <;> cases op <;> cases heq

theorem closes_nil : Closes [] := by
  rintro _ ⟨⟩

theorem closes_then (h : token.kind = .wordThen) : Closes (token :: rest) := by
  rintro _ ⟨⟩
  exact .inr (.inl h)

theorem closes_else (h : token.kind = .wordElse) : Closes (token :: rest) := by
  rintro _ ⟨⟩
  exact .inr (.inr h)

theorem Closes.kind_ne (h : Closes rest) :
    rest.head?.map (·.kind) ≠ some .pipeLeft ∧ rest.head?.map (·.kind) ≠ some .pipeRight := by
  cases rest with
  | nil => simp
  | cons token rest =>
      refine ⟨fun heq => ?_, fun heq => ?_⟩ <;>
        rcases h token rfl with hkind | hkind | hkind <;>
        cases hkind.symm.trans (Option.some.inj heq)

theorem stops_pipe (tiers : List (List BinOp))
    (hkind : token.kind = .pipeLeft ∨ token.kind = .pipeRight) : Stops tiers (token :: rest) := by
  rintro _ ⟨⟩
  refine ⟨?_, fun _ _ op _ heq => ?_⟩
  · rcases hkind with hkind | hkind <;> rw [startsArgument, hkind]
  · rcases hkind with hkind | hkind <;> rw [hkind] at heq <;> cases op <;> cases heq

end Follow

section Expressions

variable {tokens rest : List Token} {node : Node} {depth : Nat}

theorem completes_callee_token {token : Token} (hstarts : startsArgument token = true)
    (hplain : ¬(token.kind = .name ∧ Token.isCapitalized token.text = true))
    (hreads : ∀ expression rest, (atom expression).Reads [token] rest node) :
    Completes .callee [token] node :=
  ⟨⟨token, [], rfl, hstarts, hplain⟩, fun depth rest _ => hreads (expressionWithin depth) rest⟩

theorem completes_integer {token : Token} (hkind : token.kind = .integer)
    (hvalue : Decimal.digitsValue token.text.toList < Nat.pow 2 63) :
    Completes .callee [token]
      (.integer (Int64.ofNat (Decimal.digitsValue token.text.toList))) := by
  refine completes_callee_token ?_ ?_ fun expression rest => ends_peek_bind ?_
  · rw [startsArgument, hkind]
  · rintro ⟨hname, -⟩
    cases hkind.symm.trans hname
  · rw [List.singleton_append, List.head?_cons]
    dsimp only
    rw [hkind]
    dsimp only
    rw [integer, if_pos hvalue]
    exact ends_advance_bind (ends_pure ⟨rfl, rfl⟩)

theorem completes_literal {token : Token}
    (h : (token.kind = .float ∧ node = .float (Decimal.toFloat token.text.toList)) ∨
      (token.kind = .wordTrue ∧ node = .boolean true) ∨
      (token.kind = .wordFalse ∧ node = .boolean false)) : Completes .callee [token] node := by
  refine completes_callee_token ?_ ?_ fun expression rest => ends_peek_bind ?_
  · rcases h with ⟨hkind, -⟩ | ⟨hkind, -⟩ | ⟨hkind, -⟩ <;> rw [startsArgument, hkind]
  · rintro ⟨hname, -⟩
    rcases h with ⟨hkind, -⟩ | ⟨hkind, -⟩ | ⟨hkind, -⟩ <;> cases hkind.symm.trans hname
  · rw [List.singleton_append, List.head?_cons]
    dsimp only
    rcases h with ⟨hkind, rfl⟩ | ⟨hkind, rfl⟩ | ⟨hkind, rfl⟩ <;> rw [hkind] <;>
      exact ends_advance_bind (ends_pure ⟨rfl, rfl⟩)

theorem completes_parentheses {left right : Token} {inner : List Token}
    (hleft : left.kind = .leftParen) (hinner : Completes .expression inner node)
    (hright : right.kind = .rightParen) :
    Completes .callee (left :: (inner ++ [right])) node := by
  refine ⟨⟨left, inner ++ [right], rfl, ?_, ?_⟩, fun depth rest hlength => ends_peek_bind ?_⟩
  · rw [startsArgument, hleft]
  · rintro ⟨hname, -⟩
    cases hleft.symm.trans hname
  · rw [List.cons_append, List.head?_cons, List.append_assoc]
    dsimp only
    rw [hleft]
    dsimp only
    have hcloses : Closes ([right] ++ rest) := by
      rintro _ ⟨⟩
      exact .inl hright
    simp only [List.length_cons, List.length_append, List.length_nil] at hlength
    refine ends_advance_bind ((hinner depth _ (by omega) hcloses).bind ?_)
    exact ends_expect_bind hright (ends_pure ⟨rfl, rfl⟩)

theorem startsArgument_name {token : Token} (hname : token.kind = .name)
    (hnot : token.text ≠ "not") : startsArgument token = true := by
  rw [startsArgument, hname]
  exact bne_iff_ne.mpr hnot

theorem startsArgument_capitalized {token : Token} (hname : token.kind = .name)
    (hcapital : Token.isCapitalized token.text = true) : startsArgument token = true := by
  refine startsArgument_name hname fun hnot => ?_
  rw [hnot] at hcapital
  exact absurd hcapital (by decide)

theorem completes_constant {text : String} (h : Completes .capitalized tokens text) :
    Completes .atom tokens (.construction text []) := by
  obtain ⟨token, rfl, hname, hcapital, rfl⟩ := h
  refine ⟨⟨token, [], rfl, startsArgument_capitalized hname hcapital⟩,
    fun depth rest _ => ends_peek_bind ?_⟩
  rw [List.singleton_append, List.head?_cons]
  dsimp only
  rw [hname]
  dsimp only
  rw [hcapital]
  exact ends_advance_bind (ends_pure ⟨rfl, rfl⟩)

theorem completes_var {text : String} (h : Completes .name tokens text) (hnot : text ≠ "not") :
    Completes .callee tokens (.var text) := by
  obtain ⟨token, rfl, hplain, rfl⟩ := h
  obtain ⟨hname, hplain⟩ := Bool.and_eq_true_iff.mp hplain
  rw [decide_eq_true_eq] at hname
  rw [Bool.not_eq_true'] at hplain
  refine completes_callee_token (startsArgument_name hname hnot) ?_ fun expression rest =>
    ends_peek_bind ?_
  · rintro ⟨-, hcapital⟩
    rw [hplain] at hcapital
    cases hcapital
  · rw [List.singleton_append, List.head?_cons]
    dsimp only
    rw [hname]
    dsimp only
    rw [hplain]
    exact ends_advance_bind (ends_pure ⟨rfl, rfl⟩)

theorem completes_atom (h : Completes .callee tokens node) : Completes .atom tokens node := by
  obtain ⟨⟨token, others, htokens, hstarts, -⟩, hreads⟩ := h
  exact ⟨⟨token, others, htokens, hstarts⟩, hreads⟩

theorem arguments_read {nodes : List Node} (h : Repeats (Completes .atom) tokens nodes)
    (hdepth : tokens.length ≤ depth + 1) (hrest : Stops [] rest) :
    (arguments (expressionWithin depth)).Reads tokens rest nodes := by
  refine ends_remaining_bind ?_
  have hcount : tokens.length ≤ (tokens ++ rest).length := by
    rw [List.length_append]
    omega
  generalize (tokens ++ rest).length = count at hcount
  induction h generalizing count with
  | nil =>
      cases count with
      | zero => exact ends_pure ⟨rfl, rfl⟩
      | succ count =>
          refine ends_peek_bind ?_
          rw [List.nil_append]
          cases rest with
          | nil => exact ends_pure ⟨rfl, rfl⟩
          | cons token rest =>
              rw [List.head?_cons]
              dsimp only
              rw [(hrest token rfl).1]
              exact ends_pure ⟨rfl, rfl⟩
  | @cons first others node nodes hfirst hothers ih =>
      obtain ⟨⟨token, left, rfl, hstarts⟩, hreads⟩ := hfirst
      simp only [List.length_append, List.length_cons] at hdepth hcount
      obtain ⟨count, rfl⟩ := Nat.exists_eq_add_one_of_ne_zero (n := count) (by omega)
      refine ends_peek_bind ?_
      rw [List.append_assoc, List.cons_append, List.head?_cons]
      dsimp only
      rw [hstarts]
      have hatom : (atom (expressionWithin depth)).Reads (token :: left) (others ++ rest) node :=
        hreads depth (others ++ rest) (by simp only [List.length_cons]; omega)
      refine hatom.bind ?_
      have hlater : (argumentsUpTo (expressionWithin depth) count).Reads others rest nodes :=
        ih (by omega) count (by omega)
      exact hlater.bind (ends_pure ⟨rfl, rfl⟩)

theorem completes_call {first others : List Token} {callee : Node} {nodes : List Node}
    (hcallee : Completes .callee first callee) (hnodes : Repeats (Completes .atom) others nodes) :
    Completes .application (first ++ others) (callee.applyAll nodes) := by
  obtain ⟨⟨token, left, rfl, hstarts, hplain⟩, hreads⟩ := hcallee
  refine ⟨⟨token, left ++ others, rfl, hstarts⟩, fun depth rest hlength hrest =>
    ends_peek_bind ?_⟩
  rw [List.length_append] at hlength
  rw [List.append_assoc, List.cons_append, List.head?_cons]
  dsimp only
  rw [if_neg hplain]
  have hatom : (atom (expressionWithin depth)).Reads (token :: left) (others ++ rest) callee :=
    hreads depth (others ++ rest) (by omega)
  exact hatom.bind ((arguments_read hnodes (by omega) hrest).bind (ends_pure ⟨rfl, rfl⟩))

theorem completes_construction {first others : List Token} {text : String} {nodes : List Node}
    (hcapital : Completes .capitalized first text)
    (hnodes : Repeats (Completes .atom) others nodes) :
    Completes .application (first ++ others) (.construction text nodes) := by
  obtain ⟨token, rfl, hname, hcapital, rfl⟩ := hcapital
  refine ⟨⟨token, others, rfl, startsArgument_capitalized hname hcapital⟩,
    fun depth rest hlength hrest => ends_peek_bind ?_⟩
  rw [List.length_append] at hlength
  rw [List.append_assoc, List.singleton_append, List.head?_cons]
  dsimp only
  rw [if_pos ⟨hname, hcapital⟩]
  exact ends_advance_bind ((arguments_read hnodes (by omega) hrest).bind (ends_pure ⟨rfl, rfl⟩))


theorem kind_of_startsArgument {token : Token} (h : startsArgument token = true) :
    token.kind ≠ .minus ∧ token.kind ≠ .backslash ∧ token.kind ≠ .wordIf := by
  refine ⟨fun hkind => ?_, fun hkind => ?_, fun hkind => ?_⟩ <;>
    rw [startsArgument, hkind] at h <;> cases h

theorem completes_not {token : Token} (hname : token.kind = .name) (hnot : token.text = "not")
    (h : Completes .unary tokens node) : Completes .unary (token :: tokens) (.negation node) := by
  refine ⟨⟨token, tokens, rfl, ?_, ?_⟩, fun depth rest hlength hrest => ends_remaining_bind ?_⟩
  · exact fun heq => by cases hname.symm.trans heq
  · exact fun heq => by cases hname.symm.trans heq
  · rw [List.length_cons] at hlength
    have hoperand := ends_remaining_bind_iff.mp (h.2 depth rest (by omega) hrest)
    refine ends_peek_bind ?_
    rw [List.cons_append, List.head?_cons]
    dsimp only
    rw [if_pos ⟨hname, hnot⟩]
    exact ends_advance_bind (Reads.bind hoperand (ends_pure ⟨rfl, rfl⟩))

theorem completes_minus {token : Token} (hminus : token.kind = .minus)
    (h : Completes .unary tokens node) : Completes .unary (token :: tokens) (negate node) := by
  refine ⟨⟨token, tokens, rfl, ?_, ?_⟩, fun depth rest hlength hrest => ends_remaining_bind ?_⟩
  · exact fun heq => by cases hminus.symm.trans heq
  · exact fun heq => by cases hminus.symm.trans heq
  · rw [List.length_cons] at hlength
    have hoperand := ends_remaining_bind_iff.mp (h.2 depth rest (by omega) hrest)
    have hname : ¬(token.kind = .name ∧ token.text = "not") := by
      rintro ⟨hname, -⟩
      cases hminus.symm.trans hname
    refine ends_peek_bind ?_
    rw [List.cons_append, List.head?_cons]
    dsimp only
    rw [if_neg hname, if_pos hminus]
    exact ends_advance_bind (Reads.bind hoperand (ends_pure ⟨rfl, rfl⟩))

theorem completes_unsigned (h : Completes .application tokens node) :
    Completes .unary tokens node := by
  obtain ⟨⟨token, others, rfl, hstarts⟩, hreads⟩ := h
  obtain ⟨hminus, hkinds⟩ := kind_of_startsArgument hstarts
  refine ⟨⟨token, others, rfl, hkinds⟩, fun depth rest hlength hrest => ends_remaining_bind ?_⟩
  have hnot : ¬(token.kind = .name ∧ token.text = "not") := not_isNot_of_startsArgument hstarts
  refine ends_peek_bind ?_
  rw [List.cons_append, List.head?_cons]
  dsimp only
  rw [if_neg hnot, if_neg hminus]
  exact hreads depth rest hlength hrest

theorem nodup_of_cons {operators : List BinOp} {tiers : List (List BinOp)}
    (h : (operators :: tiers).flatten.Nodup) : tiers.flatten.Nodup := by
  rw [List.flatten_cons, List.nodup_append] at h
  exact h.2.1

theorem Repeats.stops {operators : List BinOp} {tiers : List (List BinOp)}
    {operands : List (BinOp × Node)}
    (h : Repeats (Completes (.operand operators tiers)) tokens operands)
    (hdistinct : (operators :: tiers).flatten.Nodup) (hrest : Stops (operators :: tiers) rest) :
    Stops tiers (tokens ++ rest) := by
  cases h with
  | nil => exact hrest.of_cons
  | @cons _ _ next _ hnext =>
      obtain ⟨op, node⟩ := next
      obtain ⟨token, operand, rfl, hop, hkind, -⟩ := hnext
      exact stops_operator hop hdistinct hkind

theorem chain_reads {operators : List BinOp} {tiers : List (List BinOp)}
    {operands : List (BinOp × Node)}
    (h : Repeats (Completes (.operand operators tiers)) tokens operands)
    (hdistinct : (operators :: tiers).flatten.Nodup) (hdepth : tokens.length ≤ depth + 1)
    (hrest : Stops (operators :: tiers) rest) (left : Node) {count : Nat}
    (hcount : tokens.length ≤ count) :
    (chainUpTo (BinOp.table operators)
      (operation (expressionWithin depth) (tiers.map BinOp.table)) count left).Reads tokens rest
      (operands.foldl (fun left right => .binary right.1 left right.2) left) := by
  induction h generalizing left count with
  | nil =>
      cases count with
      | zero => exact ends_pure ⟨rfl, rfl⟩
      | succ count =>
          refine ends_peekKind_bind ?_
          rw [List.nil_append, hrest.lookup_eq_none]
          exact ends_pure ⟨rfl, rfl⟩
  | @cons first others result results hfirst hothers ih =>
      obtain ⟨op, node⟩ := result
      obtain ⟨token, operand, rfl, hop, hkind, hreads⟩ := hfirst
      simp only [List.length_append, List.length_cons] at hdepth hcount
      obtain ⟨count, rfl⟩ := Nat.exists_eq_add_one_of_ne_zero (n := count) (by omega)
      have hlookup : (BinOp.table operators).lookup token.kind = some op :=
        BinOp.lookup_table_eq_some.mpr ⟨hop, hkind⟩
      have hoperand := hreads (nodup_of_cons hdistinct) depth (others ++ rest) (by omega)
        (hothers.stops hdistinct hrest)
      refine ends_peekKind_bind ?_
      rw [List.append_assoc, List.cons_append, List.head?_cons, Option.map_some, Option.bind_some,
        hlookup]
      refine ends_advance_bind (hoperand.bind ?_)
      exact ih (by omega) (.binary op left node) (by omega)

theorem completes_operation {operators : List BinOp} {tiers : List (List BinOp)}
    {first others : List Token} {operands : List (BinOp × Node)}
    (hfirst : Completes (.operation tiers) first node)
    (hothers : Repeats (Completes (.operand operators tiers)) others operands) :
    Completes (.operation (operators :: tiers)) (first ++ others)
      (operands.foldl (fun left right => .binary right.1 left right.2) node) := by
  obtain ⟨⟨token, left, rfl, hkinds⟩, hreads⟩ := hfirst
  refine ⟨⟨token, left ++ others, rfl, hkinds⟩, fun hdistinct depth rest hlength hrest => ?_⟩
  rw [List.length_append] at hlength
  have hleft := hreads (nodup_of_cons hdistinct) depth (others ++ rest) (by omega)
    (hothers.stops hdistinct hrest)
  rw [Reads, List.append_assoc]
  refine hleft.bind (ends_remaining_bind ?_)
  refine chain_reads hothers hdistinct (by omega) hrest node ?_
  rw [List.length_append]
  omega

theorem Repeats.bounded {α : Type} {relates : List Token → α → Prop} {results : List α}
    {bound : Nat}
    (h : Repeats relates tokens results) (hbound : tokens.length ≤ bound) :
    Repeats (fun piece result => relates piece result ∧ piece.length ≤ bound) tokens results := by
  induction h with
  | nil => exact .nil
  | cons hfirst _ ih =>
      rw [List.length_append] at hbound
      exact .cons ⟨hfirst, by omega⟩ (ih (by omega))

theorem nodup_tiers : BinOp.tiers.flatten.Nodup := by
  decide

theorem pipeline_reads (hbegins : BeginsWith (fun token => token.kind ≠ .backslash ∧
      token.kind ≠ .wordIf) tokens) (hdepth : tokens.length ≤ depth)
    (h : ∀ depth, tokens.length ≤ depth + 1 →
      (pipeline (expressionWithin depth)).Reads tokens rest node) :
    (expressionWithin depth).Reads tokens rest node := by
  obtain ⟨token, others, rfl, hbackslash, hif⟩ := hbegins
  rw [List.length_cons] at hdepth
  obtain ⟨depth, rfl⟩ := Nat.exists_eq_add_one_of_ne_zero (n := depth) (by omega)
  refine ends_peekKind_bind ?_
  split
  · next hkind => exact absurd (Option.some.inj hkind) hbackslash
  · next hkind => exact absurd (Option.some.inj hkind) hif
  · exact h depth (by rw [List.length_cons]; omega)

theorem steps_read {callees : List Node} (h : Repeats (Completes .step) tokens callees)
    (hdepth : tokens.length ≤ depth + 1) (hrest : Closes rest) :
    (many (pipelineStep (expressionWithin depth))).Reads tokens rest callees := by
  refine (h.bounded hdepth).reads_many (Stops BinOp.tiers) ?_ ?_ (hrest.stops _) ?_
  · rintro _ callee left ⟨⟨token, operand, rfl, hkind, hreads⟩, hlength⟩ hleft
    rw [List.length_cons] at hlength
    exact ends_expect_bind hkind (hreads nodup_tiers depth left (by omega) hleft)
  · rintro _ callee left ⟨⟨token, operand, rfl, hkind, -⟩, -⟩
    exact ⟨List.cons_ne_nil token operand, stops_pipe _ (.inr hkind)⟩
  · have hexpect : (expect .pipeRight).Ends rest (fun _ _ => False) True := by
      refine ends_expect ?_ fun _ => trivial
      rintro token left rfl hkind
      exact hrest.kind_ne.2 (congrArg some hkind)
    exact hexpect.bind fun _ _ hfalse => hfalse.elim

theorem completes_piped {first others : List Token} {callees : List Node}
    (hfirst : Completes (.operation BinOp.tiers) first node)
    (hothers : Repeats (Completes .step) others callees) :
    Completes .plain (first ++ others)
      (callees.foldl (fun argument callee => .apply callee argument) node) := by
  obtain ⟨⟨token, left, rfl, hkinds⟩, hreads⟩ := hfirst
  refine ⟨⟨token, left ++ others, rfl, hkinds.2⟩, fun depth rest hlength hrest => ?_⟩
  refine pipeline_reads ⟨token, left ++ others, rfl, hkinds⟩ hlength fun depth hlength => ?_
  rw [List.length_append] at hlength
  have hstops : Stops BinOp.tiers (others ++ rest) := by
    cases hothers with
    | nil => exact hrest.stops _
    | cons hnext =>
        obtain ⟨pipe, operand, rfl, hkind, -⟩ := hnext
        exact stops_pipe _ (.inr hkind)
  rw [Reads, List.append_assoc]
  refine (hreads nodup_tiers depth _ (by omega) hstops).bind (ends_peekKind_bind ?_)
  have hsteps : (many (pipelineStep (expressionWithin depth))).Reads others rest callees :=
    steps_read hothers (by omega) hrest
  cases hothers with
  | nil =>
      rw [List.nil_append]
      split
      · next hkind => exact absurd hkind hrest.kind_ne.1
      · next hkind => exact absurd hkind hrest.kind_ne.2
      · exact ends_pure ⟨rfl, rfl⟩
  | cons hnext =>
      obtain ⟨pipe, operand, rfl, hkind, -⟩ := hnext
      rw [List.cons_append, List.cons_append, List.head?_cons, Option.map_some, hkind]
      exact hsteps.bind (ends_pure ⟨rfl, rfl⟩)

theorem completes_applied {first others : List Token} {token : Token} {argument : Node}
    (hfirst : Completes (.operation BinOp.tiers) first node) (hkind : token.kind = .pipeLeft)
    (hothers : Completes .expression others argument) :
    Completes .plain (first ++ token :: others) (.apply node argument) := by
  obtain ⟨⟨begin, left, rfl, hkinds⟩, hreads⟩ := hfirst
  refine ⟨⟨begin, left ++ token :: others, rfl, hkinds.2⟩, fun depth rest hlength hrest => ?_⟩
  refine pipeline_reads ⟨begin, left ++ token :: others, rfl, hkinds⟩ hlength
    fun depth hlength => ?_
  simp only [List.length_append, List.length_cons] at hlength
  have hcallee := hreads nodup_tiers depth (token :: (others ++ rest)) (by
    rw [List.length_cons]
    omega) (stops_pipe _ (.inl hkind))
  rw [Reads, List.append_assoc, List.cons_append]
  refine hcallee.bind (ends_peekKind_bind ?_)
  rw [List.head?_cons, Option.map_some, hkind]
  exact ends_advance_bind ((hothers depth rest (by omega) hrest).bind (ends_pure ⟨rfl, rfl⟩))

theorem completes_lambda {backslash arrow : Token} {first others body : List Token}
    {parameter : String} {parameters : List String} (hbackslash : backslash.kind = .backslash)
    (hfirst : Completes .name first parameter)
    (hothers : Repeats (Completes .name) others parameters) (harrow : arrow.kind = .arrow)
    (hbody : Completes .expression body node) :
    Completes .plain (backslash :: (first ++ (others ++ arrow :: body)))
      (Node.curried (parameter :: parameters) node) := by
  obtain ⟨token, rfl, hplain, rfl⟩ := hfirst
  refine ⟨⟨backslash, _, rfl, fun hif => by cases hbackslash.symm.trans hif⟩,
    fun depth rest hlength hrest => ?_⟩
  simp only [List.length_append, List.length_cons] at hlength
  obtain ⟨depth, rfl⟩ := Nat.exists_eq_add_one_of_ne_zero (n := depth) (by omega)
  have hnames : (manyOne name).Reads (token :: others) (arrow :: (body ++ rest))
      (token.text :: parameters) := by
    have hmore : (many name).Reads others (arrow :: (body ++ rest)) parameters := by
      refine names_reads hothers ?_
      rintro _ ⟨⟩ hname
      cases harrow.symm.trans hname
    have hone : name.Reads [token] (others ++ arrow :: (body ++ rest)) token.text :=
      name_reads hplain
    exact hone.bind (hmore.bind (ends_pure ⟨rfl, rfl⟩))
  refine ends_peekKind_bind ?_
  rw [List.cons_append, List.head?_cons, Option.map_some, hbackslash]
  refine ends_expect_bind hbackslash ?_
  rw [List.append_assoc, List.append_assoc, List.cons_append, List.cons_append]
  have hlabelled : (label "parameter" (manyOne name)).Reads (token :: others)
      (arrow :: (body ++ rest)) (token.text :: parameters) := Ends.label hnames
  refine hlabelled.bind (ends_expect_bind harrow ?_)
  exact (hbody depth rest (by omega) hrest).bind (ends_pure ⟨rfl, rfl⟩)

theorem completes_lastArm {wordThen wordElse : Token} {first second last : List Token}
    {branch otherwise : Node} (hfirst : Completes .expression first node)
    (hthen : wordThen.kind = .wordThen) (hsecond : Completes .expression second branch)
    (helse : wordElse.kind = .wordElse) (hlast : Completes .plain last otherwise) :
    Completes .arms (first ++ wordThen :: (second ++ wordElse :: last))
      ([node], [branch, otherwise]) := by
  obtain ⟨⟨token, left, rfl, hif⟩, hlast⟩ := hlast
  intro depth count rest hdepth hcount hrest
  obtain ⟨count, rfl⟩ := Nat.exists_eq_add_one_of_ne_zero (Nat.ne_zero_of_lt hcount)
  simp only [List.length_append, List.length_cons] at hdepth
  rw [Reads, List.append_assoc, List.cons_append, List.append_assoc, List.cons_append]
  refine (hfirst depth _ (by omega) (closes_then hthen)).bind (ends_expect_bind hthen ?_)
  refine (hsecond depth _ (by omega) (closes_else helse)).bind (ends_expect_bind helse ?_)
  refine ends_peekKind_bind ?_
  rw [List.cons_append, List.head?_cons, Option.map_some,
    if_neg fun heq => hif (Option.some.inj heq)]
  have hotherwise := hlast depth rest (by rw [List.length_cons]; omega) hrest
  exact hotherwise.bind (ends_pure ⟨rfl, rfl⟩)

theorem completes_arm {wordThen wordElse wordIf : Token} {first second others : List Token}
    {branch : Node} {conditions branches : List Node} (hfirst : Completes .expression first node)
    (hthen : wordThen.kind = .wordThen) (hsecond : Completes .expression second branch)
    (helse : wordElse.kind = .wordElse) (hif : wordIf.kind = .wordIf)
    (hothers : Completes .arms others (conditions, branches)) :
    Completes .arms (first ++ wordThen :: (second ++ wordElse :: wordIf :: others))
      (node :: conditions, branch :: branches) := by
  intro depth count rest hdepth hcount hrest
  obtain ⟨count, rfl⟩ := Nat.exists_eq_add_one_of_ne_zero (Nat.ne_zero_of_lt hcount)
  simp only [List.length_append, List.length_cons] at hdepth hcount
  rw [Reads, List.append_assoc, List.cons_append, List.append_assoc, List.cons_append]
  refine (hfirst depth _ (by omega) (closes_then hthen)).bind (ends_expect_bind hthen ?_)
  refine (hsecond depth _ (by omega) (closes_else helse)).bind (ends_expect_bind helse ?_)
  refine ends_peekKind_bind ?_
  rw [List.cons_append, List.head?_cons, Option.map_some, if_pos (congrArg some hif)]
  have hfurther := hothers depth count rest (by omega) (by omega) hrest
  exact ends_advance_bind (hfurther.bind (ends_pure ⟨rfl, rfl⟩))

theorem completes_conditional {wordIf : Token} {conditions branches : List Node}
    (hif : wordIf.kind = .wordIf) (h : Completes .arms tokens (conditions, branches)) :
    Completes .expression (wordIf :: tokens) (.ifElse conditions branches) := by
  intro depth rest hlength hrest
  rw [List.length_cons] at hlength
  obtain ⟨depth, rfl⟩ := Nat.exists_eq_add_one_of_ne_zero (n := depth) (by omega)
  refine ends_peekKind_bind ?_
  rw [List.cons_append, List.head?_cons, Option.map_some, hif]
  refine ends_expect_bind hif (ends_remaining_bind ?_)
  have harms := h depth ((tokens ++ rest).length + 1) rest (by omega) (by
    rw [List.length_append]
    omega) hrest
  exact harms.bind (ends_pure ⟨rfl, rfl⟩)

end Expressions

section Units

variable {tokens rest : List Token} {node : Node} {token equals : Token} {text result : String}
  {first others body : List Token} {texts : List String}

theorem startsDeclaration_eq_false (h : ∀ token ∈ tokens, token.kind ≠ .equals) :
    startsDeclaration tokens = false := by
  rw [startsDeclaration, Bool.and_eq_false_iff]
  refine .inr ?_
  cases hhead : (tokens.dropWhile isPlainName).head? with
  | none => rfl
  | some token =>
      have hmem := (List.dropWhile_sublist _).subset (List.mem_of_head? hhead)
      exact decide_eq_false (h token hmem)

theorem startsDeclaration_eq_true (hfirst : ∀ token ∈ first, isPlainName token = true)
    (hne : first ≠ []) (hequals : equals.kind = .equals) :
    startsDeclaration (first ++ equals :: rest) = true := by
  have hplain : isPlainName equals = false := by
    rw [isPlainName, hequals]
    rfl
  rw [startsDeclaration, List.takeWhile_append_of_pos hfirst, List.dropWhile_append_of_pos hfirst,
    List.takeWhile_cons_of_neg (by rw [hplain]; decide),
    List.dropWhile_cons_of_neg (by rw [hplain]; decide), List.append_nil, List.head?_cons]
  simp [hne, hequals]

theorem Repeats.isPlainName (h : Repeats (Completes .name) tokens texts) :
    ∀ token ∈ tokens, isPlainName token = true := by
  induction h with
  | nil => exact fun _ hmem => absurd hmem List.not_mem_nil
  | cons hfirst _ ih =>
      obtain ⟨token, rfl, hplain, -⟩ := hfirst
      exact List.forall_mem_cons.mpr ⟨hplain, ih⟩

theorem kind_of_isPlainName (h : isPlainName token = true) : token.kind = .name :=
  of_decide_eq_true (Bool.and_eq_true_iff.mp h).1

theorem expression_readsAll (h : Completes .expression tokens node) :
    expression.ReadsAll tokens node :=
  ends_remaining_bind (h _ [] (Nat.le_succ _) closes_nil).readsAll

theorem readsAll_item {parse : Parse Node}
    (hkind : tokens.head?.map (·.kind) ≠ some .wordType)
    (hparse : (if startsDeclaration tokens = true then declaration else expression) = parse)
    (h : parse.ReadsAll tokens node) : item.ReadsAll tokens node := by
  refine ends_peekKind_bind ?_
  rw [if_neg hkind]
  refine ends_get_bind fun reader hreader => ?_
  rw [hreader.rest, hparse]
  exact h

theorem completes_expression
    (hkinds : ∀ token ∈ tokens, token.kind ≠ .equals ∧ token.kind ≠ .wordType)
    (h : Completes .expression tokens node) : Completes .item tokens node := by
  have hstarts := startsDeclaration_eq_false fun token hmem => (hkinds token hmem).1
  refine readsAll_item ?_ (if_neg (by rw [hstarts]; decide)) (expression_readsAll h)
  cases tokens with
  | nil => simp
  | cons token rest =>
      exact fun heq => (hkinds token List.mem_cons_self).2 (Option.some.inj heq)

theorem completes_declaration (hfirst : Completes .name first text)
    (hothers : Repeats (Completes .name) others texts) (hequals : equals.kind = .equals)
    (hbody : Completes .expression body node) :
    Completes .item (first ++ (others ++ equals :: body))
      (.declaration text (Node.curried texts node)) := by
  obtain ⟨token, rfl, hplain, rfl⟩ := hfirst
  have hstarts : startsDeclaration ([token] ++ (others ++ equals :: body)) = true := by
    rw [← List.append_assoc]
    refine startsDeclaration_eq_true ?_ (by simp) hequals
    exact List.forall_mem_append.mpr ⟨List.forall_mem_singleton.mpr hplain, hothers.isPlainName⟩
  have hdeclared : (label "declaration name" name).Reads [token] (others ++ equals :: body)
      token.text := Ends.label (name_reads hplain)
  have hparameters : (many name).Reads others (equals :: body) texts := by
    refine names_reads hothers ?_
    rintro _ ⟨⟩ hname
    cases hequals.symm.trans hname
  have hkind : ([token] ++ (others ++ equals :: body)).head?.map (·.kind) ≠ some .wordType :=
    fun heq => by cases (kind_of_isPlainName hplain).symm.trans (Option.some.inj heq)
  refine readsAll_item hkind (if_pos hstarts) ?_
  refine hdeclared.bind (hparameters.bind (ends_expect_bind hequals ?_))
  exact (expression_readsAll hbody).bind (ends_pure ⟨rfl, rfl⟩)

theorem capitalized_reads (hname : token.kind = .name)
    (hcapital : Token.isCapitalized token.text = true) :
    capitalized.Reads [token] rest token.text :=
  reads_nameWhere hname hcapital

theorem field_reads (hname : token.kind = .name) :
    (either capitalized name).Reads [token] rest token.text := by
  by_cases hcapital : Token.isCapitalized token.text = true
  · exact Ends.either (capitalized_reads hname hcapital) False.elim
  · have hrefused : capitalized.Ends ([token] ++ rest)
        (fun found left => found = token.text ∧ left = rest) True := by
      refine ends_nameWhere ?_ fun _ => trivial
      rintro _ _ ⟨⟩ _ hadmitted
      exact absurd hadmitted hcapital
    refine hrefused.either fun _ => name_reads ?_
    rw [isPlainName, hname, Bool.eq_false_iff.mpr hcapital]
    rfl

theorem completes_constructor (hfirst : Completes .capitalized first text)
    (hothers : Repeats (Completes .field) others texts) :
    Completes (.constructor result) (first ++ others) (.ofFields text texts result) := by
  obtain ⟨token, rfl, hname, hcapital, rfl⟩ := hfirst
  intro rest hrest
  have hfields : (many (either capitalized name)).Reads others rest texts := by
    refine hothers.reads_many (fun _ => True) ?_ ?_ trivial ?_
    · rintro _ _ left ⟨field, rfl, hfield, rfl⟩ _
      exact field_reads hfield
    · rintro _ _ left ⟨field, rfl, -⟩
      exact ⟨List.cons_ne_nil field [], trivial⟩
    · exact (ends_nameWhere_of_ne hrest).either fun _ => ends_nameWhere_of_ne hrest
  have hconstructor : (label "constructor" capitalized).Reads [token] (others ++ rest) token.text :=
    Ends.label (capitalized_reads hname hcapital)
  rw [Reads, List.append_assoc]
  exact hconstructor.bind (hfields.bind (ends_pure ⟨rfl, rfl⟩))

theorem alternatives_read {constructors : List Constructor}
    (h : Repeats (Completes (.alternative result)) tokens constructors) :
    (many (alternative result)).Reads tokens [] constructors := by
  refine h.reads_many (fun rest => ∀ token ∈ rest.head?, token.kind ≠ .name) ?_ ?_ ?_ ?_
  · rintro _ found left ⟨bar, tokens, rfl, hbar, hreads⟩ hleft
    exact ends_expect_bind hbar (hreads left hleft)
  · rintro _ found left ⟨bar, tokens, rfl, hbar, -⟩
    refine ⟨List.cons_ne_nil bar tokens, ?_⟩
    rintro _ ⟨⟩ hname
    cases hbar.symm.trans hname
  · rintro _ ⟨⟩
  · have hexpect : (expect .bar).Ends [] (fun _ _ => False) True :=
      ends_expect (fun _ _ heq => by cases heq) fun _ => trivial
    exact hexpect.bind fun _ _ hfalse => hfalse.elim

theorem completes_typeDefinition {wordType : Token} {second alternatives : List Token}
    {constructor : Constructor} {constructors : List Constructor}
    (htype : wordType.kind = .wordType) (hfirst : Completes .capitalized first text)
    (hothers : Repeats (Completes .name) others texts) (hequals : equals.kind = .equals)
    (hsecond : Completes (.constructor text) second constructor)
    (halternatives : Repeats (Completes (.alternative text)) alternatives constructors) :
    Completes .item (wordType :: (first ++ (others ++ equals :: (second ++ alternatives))))
      (.typeDefinition text texts (constructor :: constructors)) := by
  obtain ⟨token, rfl, hname, hcapital, rfl⟩ := hfirst
  have hparameters : (many name).Reads others (equals :: (second ++ alternatives)) texts := by
    refine names_reads hothers ?_
    rintro _ ⟨⟩ hname
    cases hequals.symm.trans hname
  have hnext : ∀ token ∈ alternatives.head?, token.kind ≠ .name := by
    cases halternatives with
    | nil => rintro _ ⟨⟩
    | cons hbar =>
        obtain ⟨bar, tokens, rfl, hbar, -⟩ := hbar
        rintro _ ⟨⟩ hname
        cases hbar.symm.trans hname
  have halias : token.kind ≠ .wordAlias := fun heq => by cases hname.symm.trans heq
  refine ends_peekKind_bind ?_
  rw [List.head?_cons, Option.map_some, if_pos (congrArg some htype)]
  refine ends_expect_bind htype (ends_peek_bind ?_)
  rw [List.singleton_append, List.head?_cons]
  dsimp only
  rw [if_neg halias]
  have hdefined : capitalized.Reads [token] (others ++ equals :: (second ++ alternatives))
      token.text := capitalized_reads hname hcapital
  refine hdefined.bind (hparameters.bind (ends_expect_bind hequals ?_))
  refine (hsecond alternatives hnext).bind ?_
  exact (alternatives_read halternatives).readsAll.bind (ends_pure ⟨rfl, rfl⟩)

end Units

end Parse

/-- Whether the phrase is a unit. -/
def Phrase.isItem : {α : Type} → Phrase α → Bool
  | _, .item => true
  | _, .many phrase => phrase.isItem
  | _, _ => false

theorem Derives.kind_ne {α : Type} {phrase : Phrase α} {tokens : List Token} {result : α}
    (h : Derives phrase tokens result) (hphrase : phrase.isItem = false) :
    ∀ token ∈ tokens, token.kind ≠ .equals ∧ token.kind ≠ .wordType := by
  induction h with
  | @operand operators tiers op token tokens node hop hkind _ ih =>
      refine List.forall_mem_cons.mpr ⟨?_, ih rfl⟩
      rw [hkind]
      cases op <;> exact ⟨Token.Kind.noConfusion, Token.Kind.noConfusion⟩
  | _ => simp_all [Phrase.isItem, or_imp, forall_and]

/-- Whether the phrase is a repetition. -/
def Phrase.isMany : {α : Type} → Phrase α → Bool
  | _, .many _ => true
  | _, _ => false

theorem Derives.ne_nil {α : Type} {phrase : Phrase α} {tokens : List Token} {result : α}
    (h : Derives phrase tokens result) (hphrase : phrase.isMany = false) : tokens ≠ [] := by
  induction h <;> simp_all [Phrase.isMany]

/-- Everything the grammar derives is read. -/
theorem Derives.completes {α : Type} {phrase : Phrase α} {tokens : List Token} {result : α}
    (h : Derives phrase tokens result) : Parse.Completes phrase tokens result := by
  induction h with
  | nil => exact .nil
  | cons _ _ ih ihs => exact .cons ih ihs
  | @name token hname hplain =>
      refine ⟨token, rfl, ?_, rfl⟩
      rw [Parse.isPlainName, hname, hplain]
      rfl
  | @capitalized token hname hcapital => exact ⟨token, rfl, hname, hcapital, rfl⟩
  | typeField _ ih =>
      obtain ⟨token, rfl, hname, -, rfl⟩ := ih
      exact ⟨token, rfl, hname, rfl⟩
  | parameterField _ ih =>
      obtain ⟨token, rfl, hplain, rfl⟩ := ih
      exact ⟨token, rfl, Parse.kind_of_isPlainName hplain, rfl⟩
  | integer hkind hvalue => exact Parse.completes_integer hkind hvalue
  | float hkind => exact Parse.completes_literal (.inl ⟨hkind, rfl⟩)
  | isTrue hkind => exact Parse.completes_literal (.inr (.inl ⟨hkind, rfl⟩))
  | isFalse hkind => exact Parse.completes_literal (.inr (.inr ⟨hkind, rfl⟩))
  | var _ hnot ih => exact Parse.completes_var ih hnot
  | parentheses hleft _ hright ih => exact Parse.completes_parentheses hleft ih hright
  | callee _ ih => exact Parse.completes_atom ih
  | constant _ ih => exact Parse.completes_constant ih
  | call _ _ ih ihs => exact Parse.completes_call ih ihs
  | construction _ _ ih ihs => exact Parse.completes_construction ih ihs
  | not hname hnot _ ih => exact Parse.completes_not hname hnot ih
  | minus hkind _ ih => exact Parse.completes_minus hkind ih
  | unsigned _ ih => exact Parse.completes_unsigned ih
  | unary _ ih => exact ⟨ih.1, fun _ => ih.2⟩
  | operand hop hkind _ ih => exact ⟨_, _, rfl, hop, hkind, ih.2⟩
  | operation _ _ ih ihs => exact Parse.completes_operation ih ihs
  | step hkind _ ih => exact ⟨_, _, rfl, hkind, ih.2⟩
  | piped _ _ ih ihs => exact Parse.completes_piped ih ihs
  | applied _ hkind _ ih ih' => exact Parse.completes_applied ih hkind ih'
  | lambda hbackslash _ _ harrow _ ih ihs ihb =>
      exact Parse.completes_lambda hbackslash ih ihs harrow ihb
  | lastArm _ hthen _ helse _ ihc ihb ihl => exact Parse.completes_lastArm ihc hthen ihb helse ihl
  | arm _ hthen _ helse hif _ ihc ihb ihs =>
      exact Parse.completes_arm ihc hthen ihb helse hif ihs
  | plain _ ih => exact ih.2
  | conditional hif _ ih => exact Parse.completes_conditional hif ih
  | constructor _ _ ih ihs => exact Parse.completes_constructor ih ihs
  | alternative hbar _ ih => exact ⟨_, _, rfl, hbar, ih⟩
  | expression h ih => exact Parse.completes_expression (h.kind_ne rfl) ih
  | declaration _ _ hequals _ ih ihs ihb => exact Parse.completes_declaration ih ihs hequals ihb
  | typeDefinition htype _ _ hequals _ _ ih ihs ihc ihas =>
      exact Parse.completes_typeDefinition htype ih ihs hequals ihc ihas

section Units

variable {reader : Reader} {tokens : List Token} {node : Node}

theorem Reader.sees_ofTokens (tokens : List Token) :
    (Reader.ofTokens tokens []).beginUnit.Sees tokens := by
  refine ⟨?_, Nat.le_refl tokens.length⟩
  rw [Reader.rest]
  exact List.take_length

/-- If the parse reads units of the grammar only, what it reads derives. -/
theorem Reader.derives_of_finds {parse : Parse Node} (hparse : parse.Finds .item)
    (hunit : reader.beginUnit.Sees tokens) (h : (reader.readUnit parse).1 = .ok node) :
    Derives .item tokens node := by
  obtain ⟨-, hfulfils⟩ := hparse tokens reader.beginUnit hunit
  rw [Reader.readUnit] at h
  split at h
  · split at h
    · next found after hrun =>
        rw [hrun] at hfulfils
        obtain ⟨rest, hsees, read, hread, rfl⟩ := hfulfils
        split at h
        · cases h
        · next hnext =>
            rw [hsees.hasNext] at hnext
            obtain rfl : rest = [] := by simpa using hnext
            obtain rfl := Except.ok.inj h
            rwa [List.append_nil]
    · cases h
  · cases h

theorem Reader.derives_of_readUnit (hunit : reader.beginUnit.Sees tokens)
    (h : (reader.readUnit Parse.item).1 = .ok node) : Derives .item tokens node :=
  derives_of_finds Parse.item_finds hunit h

/-- What derives is read to the end of the unit. -/
theorem Reader.exists_readUnit_of_derives (hunit : reader.beginUnit.Sees tokens)
    (h : Derives .item tokens node) : ∃ after, reader.readUnit Parse.item = (.ok node, after) ∧
      reader.beginUnit.InUnit after ∧ after.hasNext = false := by
  have hnext : reader.beginUnit.hasNext = true := by
    rw [hunit.hasNext, List.isEmpty_eq_false_iff.mpr (h.ne_nil rfl)]
    rfl
  obtain ⟨hsame, hfulfils⟩ := h.completes reader.beginUnit hunit
  rw [Reader.readUnit, if_pos hnext]
  rcases hrun : Parse.item.run.run reader.beginUnit with ⟨error | found, after⟩
  · rw [hrun] at hfulfils
    exact hfulfils.elim
  · rw [hrun] at hsame hfulfils
    obtain ⟨rest, hsees, rfl, rfl⟩ := hfulfils
    have hdone : after.hasNext = false := hsees.hasNext
    refine ⟨after, ?_, hsame, hdone⟩
    simp only [hdone, Bool.false_eq_true, if_false]

theorem Reader.readUnit_of_derives (hunit : reader.beginUnit.Sees tokens)
    (h : Derives .item tokens node) : (reader.readUnit Parse.item).1 = .ok node := by
  obtain ⟨after, hread, -⟩ := exists_readUnit_of_derives hunit h
  rw [hread]

/-- A unit is read if and only if its tokens derive from the grammar, and as what they denote. No
tokens denote two nodes. -/
theorem Reader.readUnit_iff_derives (hunit : reader.beginUnit.Sees tokens) :
    (∀ node, (reader.readUnit Parse.item).1 = .ok node ↔ Derives .item tokens node) ∧
      ∀ node node', Derives .item tokens node → Derives .item tokens node' → node = node' := by
  have hread : ∀ node, Derives .item tokens node → (reader.readUnit Parse.item).1 = .ok node :=
    fun node h => readUnit_of_derives hunit h
  refine ⟨fun node => ⟨derives_of_readUnit hunit, hread node⟩, fun node node' h h' => ?_⟩
  exact Except.ok.inj ((hread node h).symm.trans (hread node' h'))

/-- Two operators of one tier. -/
theorem Reader.readUnit_iff_derives_difference :
    let name (text : String) : Token := ⟨.name, text, ⟨"", 0, 0, 0⟩⟩
    let minus : Token := ⟨.minus, "-", ⟨"", 0, 0, 0⟩⟩
    let tokens := [name "a", minus, name "b", minus, name "c"]
    let node := Node.binary .sub (.binary .sub (.var "a") (.var "b")) (.var "c")
    (Reader.ofTokens tokens []).beginUnit.Sees tokens ∧ Derives .item tokens node ∧
      ((Reader.ofTokens tokens []).readUnit Parse.item).1 = .ok node := by
  intro name minus tokens node
  have hunit : (Reader.ofTokens tokens []).beginUnit.Sees tokens := sees_ofTokens tokens
  have hoperand : ∀ tiers text, Token.isCapitalized text = false → text ≠ "not" →
      Derives (.operation tiers) [name text] (.var text) := fun tiers text hplain hnot =>
    .operation_of_unary tiers (.unary_of_callee (.var (.name rfl hplain) hnot))
  have hright : ∀ text, Token.isCapitalized text = false → text ≠ "not" →
      Derives (.operand [.add, .sub] [[.mul, .div]]) [minus, name text] (.sub, .var text) :=
    fun text hplain hnot => .operand (by decide) rfl (hoperand _ text hplain hnot)
  have hsum : Derives (.operation [[.add, .sub], [.mul, .div]]) tokens node :=
    .operation (hoperand _ "a" (by decide) (by decide)) (.cons
      (hright "b" (by decide) (by decide)) (.cons (hright "c" (by decide) (by decide)) (.nil _)))
  have hitem : Derives .item tokens node :=
    .expression (.plain (.plain_of_operation (((hsum.operation_of_inner _).operation_of_inner
      _).operation_of_inner _)))
  exact ⟨hunit, hitem, ((readUnit_iff_derives hunit).1 node).mpr hitem⟩

end Units

end Viewlet
