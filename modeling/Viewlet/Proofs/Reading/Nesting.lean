import Viewlet.Proofs.Reading.ParseRun

/-!
The bounds of the grammar. Expressions inside an expression, and what is repeated in it, stand
behind a token of their own. So a bound above the number of tokens left is never reached: reading
does not depend on it, fails as it would without one, and obeys the recursion of the grammar.
-/

namespace Viewlet

theorem Reader.remaining_pos {reader : Reader} {token : Token} (h : reader.peek? = some token) :
    0 < reader.limit - reader.index := by
  rw [peek?, peekAt?, Nat.add_zero] at h
  split at h
  · omega
  · cases h

namespace Parse

variable {α β : Type}

/-- With `left` tokens left of the unit both parses do the same, and where they read something
fewer than `bound` tokens are left. -/
def AgreeAt (left bound : Nat) (x y : Parse α) : Prop :=
  ∀ reader : Reader, reader.limit - reader.index = left →
    y.run.run reader = x.run.run reader ∧ (x.run.run reader).2.limit = reader.limit ∧
      ∀ result after, x.run.run reader = (.ok result, after) →
        after.limit - after.index < bound

section Rules

variable {left bound bound' : Nat} {x y : Parse α} {f g : α → Parse β} {expected : String}

theorem AgreeAt.mono (h : AgreeAt left bound x y) (hle : bound ≤ bound') :
    AgreeAt left bound' x y := by
  intro reader hleft
  obtain ⟨hsame, hlimit, hread⟩ := h reader hleft
  exact ⟨hsame, hlimit, fun result after hrun => Nat.lt_of_lt_of_le (hread result after hrun) hle⟩

theorem agreeAt_pure (result : α) (h : left < bound) :
    AgreeAt left bound (pure result) (pure result) := by
  intro reader hleft
  refine ⟨rfl, rfl, fun result after hrun => ?_⟩
  cases hrun
  rwa [hleft]

theorem agreeAt_fail (error : SyntaxError) :
    AgreeAt left bound (fail error : Parse α) (fail error) := by
  intro reader hleft
  refine ⟨rfl, (Reader.inUnit_record error).2, fun result after hrun => ?_⟩
  cases hrun

theorem agreeAt_unexpected :
    AgreeAt left bound (unexpected expected : Parse α) (unexpected expected) :=
  fun reader hleft => agreeAt_fail (reader.mismatch expected) reader hleft

theorem AgreeAt.bind (hx : AgreeAt left bound x y)
    (hf : ∀ result rest, rest < bound → AgreeAt rest bound' (f result) (g result)) :
    AgreeAt left bound' (x >>= f) (y >>= g) := by
  intro reader hleft
  obtain ⟨hsame, hlimit, hread⟩ := hx reader hleft
  rcases hrun : x.run.run reader with ⟨error | result, after⟩
  · rw [hrun] at hsame hlimit
    rw [run_bind_error hrun, run_bind_error hsame]
    refine ⟨rfl, hlimit, fun result after hok => ?_⟩
    cases hok
  · rw [hrun] at hsame hlimit
    obtain ⟨hsame', hlimit', hread'⟩ := hf result _ (hread result after hrun) after rfl
    rw [run_bind_ok hrun, run_bind_ok hsame]
    exact ⟨hsame', hlimit'.trans hlimit, hread'⟩

theorem agreeAt_peek_bind {f g : Option Token → Parse β}
    (hnone : AgreeAt left bound (f none) (g none))
    (hsome : ∀ token, 0 < left → AgreeAt left bound (f (some token)) (g (some token))) :
    AgreeAt left bound (peek >>= f) (peek >>= g) := by
  intro reader hleft
  rw [run_bind_ok (run_peek reader), run_bind_ok (run_peek reader)]
  cases hnext : reader.peek? with
  | none => exact hnone reader hleft
  | some token => exact hsome token (hleft ▸ Reader.remaining_pos hnext) reader hleft

theorem agreeAt_peekKind_bind {f g : Option Token.Kind → Parse β}
    (hnone : AgreeAt left bound (f none) (g none))
    (hsome : ∀ kind, 0 < left → AgreeAt left bound (f (some kind)) (g (some kind))) :
    AgreeAt left bound (peekKind >>= f) (peekKind >>= g) := by
  intro reader hleft
  rw [run_bind_ok (run_peekKind reader), run_bind_ok (run_peekKind reader)]
  cases hnext : reader.peek? with
  | none => exact hnone reader hleft
  | some token => exact hsome token.kind (hleft ▸ Reader.remaining_pos hnext) reader hleft

theorem agreeAt_remaining_bind {f g : Nat → Parse β} (h : AgreeAt left bound (f left) (g left)) :
    AgreeAt left bound (remaining >>= f) (remaining >>= g) := by
  intro reader hleft
  rw [run_bind_ok (run_remaining reader), run_bind_ok (run_remaining reader), hleft]
  exact h reader hleft

theorem agreeAt_advance (h : 0 < left) : AgreeAt left left advance advance := by
  intro reader hleft
  refine ⟨rfl, Reader.inUnit_advance.2, fun result after hrun => ?_⟩
  have hnext : reader.hasNext = true := decide_eq_true (by omega)
  cases hrun
  rw [Reader.advance, if_pos hnext]
  change reader.limit - (reader.index + 1) < left
  omega

theorem agreeAt_expect (kind : Token.Kind) : AgreeAt left left (expect kind) (expect kind) := by
  refine agreeAt_peekKind_bind ?_ fun found hleft => ?_
  · rw [if_neg (Option.some_ne_none kind).symm]
    exact agreeAt_unexpected
  · split
    · exact agreeAt_advance hleft
    · exact agreeAt_unexpected

theorem agreeAt_nameWhere (admits : String → Bool) :
    AgreeAt left left (nameWhere admits expected) (nameWhere admits expected) := by
  refine agreeAt_peek_bind agreeAt_unexpected fun token hleft => ?_
  dsimp only
  split
  · exact (agreeAt_advance hleft).bind fun _ rest hrest => agreeAt_pure token.text hrest
  · exact agreeAt_unexpected

theorem AgreeAt.label (h : AgreeAt left bound x y) :
    AgreeAt left bound (label expected x) (label expected y) := by
  intro reader hleft
  obtain ⟨hsame, hlimit, hread⟩ := h reader hleft
  rcases hrun : x.run.run reader with ⟨error | result, after⟩
  · rw [hrun] at hsame hlimit
    rw [Parse.label, Parse.label, run_tryCatch_error hrun, run_tryCatch_error hsame]
    refine ⟨rfl, (Reader.inUnit_record _).2.trans hlimit, fun result after hok => ?_⟩
    cases hok
  · rw [hrun] at hsame hlimit
    rw [Parse.label, Parse.label, run_tryCatch_ok hrun, run_tryCatch_ok hsame]
    refine ⟨rfl, hlimit, fun result after hok => ?_⟩
    cases hok
    exact hread _ _ hrun

theorem agreeAt_manyUpTo {count count' : Nat} (h : ∀ rest ≤ left, AgreeAt rest rest x y)
    (hcount : left < count) (hcount' : left < count') :
    AgreeAt left (left + 1) (manyUpTo x count) (manyUpTo y count') := by
  induction count generalizing left count' with
  | zero => exact absurd hcount (Nat.not_lt_zero left)
  | succ count ih =>
      obtain ⟨count', rfl⟩ := Nat.exists_eq_add_one.mpr (Nat.zero_lt_of_lt hcount')
      intro reader hleft
      obtain ⟨hsame, hlimit, hread⟩ := h left (Nat.le_refl left) reader hleft
      rcases hrun : x.run.run reader with ⟨error | result, after⟩
      · rw [hrun] at hsame hlimit
        rw [run_manyUpTo_error hrun, run_manyUpTo_error hsame]
        refine ⟨rfl, hlimit, fun results last hok => ?_⟩
        cases hok
        change after.limit - reader.index < left + 1
        rw [hlimit]
        omega
      · rw [hrun] at hsame hlimit
        have hrest := hread result after hrun
        have hothers : AgreeAt (after.limit - after.index) (left + 1)
            (manyUpTo x count >>= fun results => pure (result :: results))
            (manyUpTo y count' >>= fun results => pure (result :: results)) := by
          refine (ih (fun rest hle => h rest (by omega)) (by omega) (by omega)).bind ?_
          exact fun results rest hlt => agreeAt_pure (result :: results) (by omega)
        obtain ⟨hsame', hlimit', hread'⟩ := hothers after rfl
        rw [run_manyUpTo_ok hrun, run_manyUpTo_ok hsame]
        exact ⟨hsame', hlimit'.trans hlimit, hread'⟩

theorem agreeAt_many (h : ∀ rest ≤ left, AgreeAt rest rest x y) :
    AgreeAt left (left + 1) (many x) (many y) :=
  agreeAt_remaining_bind (agreeAt_manyUpTo h (Nat.lt_succ_self left) (Nat.lt_succ_self left))

theorem agreeAt_manyOne (h : ∀ rest ≤ left, AgreeAt rest rest x y) :
    AgreeAt left left (manyOne x) (manyOne y) := by
  refine (h left (Nat.le_refl left)).bind fun first rest hrest => ?_
  refine (agreeAt_many fun rest' hle => h rest' (by omega)).bind fun others rest' hrest' => ?_
  exact agreeAt_pure (first :: others) (by omega)

end Rules

/-- An expression, if this is how the expressions inside it are read. -/
def expressionOf (inner : Parse Node) : Parse Node := do
  match ← peekKind with
  | some .backslash => lambda inner
  | some .wordIf => conditional inner
  | _ => pipeline inner

/-- A condition with its branch and what follows, if this is how further conditions are read. -/
def armsOf (inner : Parse Node) (others : Parse (List Node × List Node)) :
    Parse (List Node × List Node) := do
  let condition ← inner
  expect .wordThen
  let branch ← inner
  expect .wordElse
  if (← peekKind) = some .wordIf then
    advance
    let (conditions, branches) ← others
    return (condition :: conditions, branch :: branches)
  else
    return ([condition], [branch, ← inner])

/-- Conditions with their branches, as a chain of conditions reads them. -/
def arms (inner : Parse Node) : Parse (List Node × List Node) := do
  armsUpTo inner ((← remaining) + 1)

section Expressions

variable {left count count' : Nat} {e e' : Parse Node}
  {others others' : Parse (List Node × List Node)}

theorem agreeAt_integer (token : Token) (h : 0 < left) :
    AgreeAt left left (integer token) (integer token) := by
  dsimp only [integer]
  split
  · exact (agreeAt_advance h).bind fun _ rest hrest => agreeAt_pure _ hrest
  · exact agreeAt_fail _

theorem agreeAt_atom (h : ∀ rest < left, AgreeAt rest rest e e') :
    AgreeAt left left (atom e) (atom e') := by
  refine agreeAt_peek_bind agreeAt_unexpected fun token hleft => ?_
  dsimp only
  split
  · exact agreeAt_integer token hleft
  · exact (agreeAt_advance hleft).bind fun _ rest hrest => agreeAt_pure _ hrest
  · exact (agreeAt_advance hleft).bind fun _ rest hrest => agreeAt_pure _ hrest
  · exact (agreeAt_advance hleft).bind fun _ rest hrest => agreeAt_pure _ hrest
  · refine (agreeAt_advance hleft).bind fun _ rest hrest => ?_
    split <;> exact agreeAt_pure _ hrest
  · refine (agreeAt_advance hleft).bind fun _ rest hrest => (h rest hrest).bind ?_
    intro inner rest₁ hrest₁
    refine (agreeAt_expect _).bind fun _ rest₂ hrest₂ => ?_
    exact agreeAt_pure inner (by omega)
  · exact agreeAt_unexpected

theorem agreeAt_argumentsUpTo (h : ∀ rest < left, AgreeAt rest rest e e') (count : Nat) :
    AgreeAt left (left + 1) (argumentsUpTo e count) (argumentsUpTo e' count) := by
  induction count generalizing left with
  | zero => exact agreeAt_pure [] (Nat.lt_succ_self left)
  | succ count ih =>
      refine agreeAt_peek_bind (agreeAt_pure [] (Nat.lt_succ_self left)) fun token hleft => ?_
      dsimp only
      split
      · refine (agreeAt_atom h).bind fun first rest hrest => ?_
        refine (ih fun rest₁ hlt => h rest₁ (by omega)).bind fun others rest₁ hrest₁ => ?_
        exact agreeAt_pure (first :: others) (by omega)
      · exact agreeAt_pure [] (Nat.lt_succ_self left)

theorem agreeAt_arguments (h : ∀ rest < left, AgreeAt rest rest e e') :
    AgreeAt left (left + 1) (arguments e) (arguments e') :=
  agreeAt_remaining_bind (agreeAt_argumentsUpTo h left)

theorem agreeAt_application (h : ∀ rest < left, AgreeAt rest rest e e') :
    AgreeAt left left (application e) (application e') := by
  refine agreeAt_peek_bind agreeAt_unexpected fun token hleft => ?_
  dsimp only
  split
  · refine (agreeAt_advance hleft).bind fun _ rest hrest => ?_
    refine (agreeAt_arguments fun rest₁ hlt => h rest₁ (by omega)).bind ?_
    exact fun arguments rest₁ hrest₁ => agreeAt_pure _ (by omega)
  · refine (agreeAt_atom h).bind fun callee rest hrest => ?_
    refine (agreeAt_arguments fun rest₁ hlt => h rest₁ (by omega)).bind ?_
    exact fun arguments rest₁ hrest₁ => agreeAt_pure _ (by omega)

theorem agreeAt_unaryUpTo (h : ∀ rest < left, AgreeAt rest rest e e') (count : Nat) :
    AgreeAt left left (unaryUpTo e count) (unaryUpTo e' count) := by
  induction count generalizing left with
  | zero => exact agreeAt_application h
  | succ count ih =>
      refine agreeAt_peek_bind (agreeAt_application h) fun token hleft => ?_
      have hoperand (wrap : Node → Node) : AgreeAt left left
          (advance >>= fun _ => unaryUpTo e count >>= fun operand => pure (wrap operand))
          (advance >>= fun _ => unaryUpTo e' count >>= fun operand => pure (wrap operand)) := by
        refine (agreeAt_advance hleft).bind fun _ rest hrest => ?_
        refine (ih fun rest₁ hlt => h rest₁ (by omega)).bind fun operand rest₁ hrest₁ => ?_
        exact agreeAt_pure _ (by omega)
      dsimp only
      split
      · exact hoperand .negation
      · split
        · exact hoperand negate
        · exact agreeAt_application h

theorem agreeAt_chainUpTo {operators : List (Token.Kind × BinOp)}
    (h : ∀ rest < left, AgreeAt rest rest e e') (count : Nat) (node : Node) :
    AgreeAt left (left + 1) (chainUpTo operators e count node)
      (chainUpTo operators e' count node) := by
  induction count generalizing left node with
  | zero => exact agreeAt_pure node (Nat.lt_succ_self left)
  | succ count ih =>
      refine agreeAt_peekKind_bind (agreeAt_pure node (Nat.lt_succ_self left)) fun kind hleft => ?_
      dsimp only [Option.bind]
      cases operators.lookup kind with
      | none => exact agreeAt_pure node (Nat.lt_succ_self left)
      | some op =>
          refine (agreeAt_advance hleft).bind fun _ rest hrest => ?_
          refine (h rest hrest).bind fun right rest₁ hrest₁ => ?_
          exact (ih (fun rest₂ hlt => h rest₂ (by omega)) _).mono (by omega)

theorem agreeAt_operation (h : ∀ rest < left, AgreeAt rest rest e e')
    (tiers : List (List (Token.Kind × BinOp))) :
    AgreeAt left left (operation e tiers) (operation e' tiers) := by
  induction tiers generalizing left with
  | nil => exact agreeAt_remaining_bind (agreeAt_unaryUpTo h left)
  | cons operators inner ih =>
      have hinner : ∀ rest ≤ left, AgreeAt rest rest (operation e inner) (operation e' inner) :=
        fun rest hle => ih fun rest₁ hlt => h rest₁ (by omega)
      refine (hinner left (Nat.le_refl left)).bind fun node rest hrest => ?_
      refine agreeAt_remaining_bind ((agreeAt_chainUpTo (fun rest₁ hlt => ?_) rest node).mono hrest)
      exact hinner rest₁ (by omega)

theorem agreeAt_pipeline (h : ∀ rest < left, AgreeAt rest rest e e') :
    AgreeAt left left (pipeline e) (pipeline e') := by
  refine (agreeAt_operation h tiers).bind fun node rest hrest => ?_
  refine agreeAt_peekKind_bind (agreeAt_pure node hrest) fun kind hleft => ?_
  split
  · refine (agreeAt_advance hleft).bind fun _ rest₁ hrest₁ => ?_
    refine (h rest₁ (by omega)).bind fun argument rest₂ hrest₂ => ?_
    exact agreeAt_pure _ (by omega)
  · have hstep : ∀ rest₁ ≤ rest, AgreeAt rest₁ rest₁ (pipelineStep e) (pipelineStep e') := by
      intro rest₁ hle
      refine (agreeAt_expect _).bind fun _ rest₂ hrest₂ => ?_
      exact (agreeAt_operation (fun rest₃ hlt => h rest₃ (by omega)) tiers).mono (by omega)
    refine (agreeAt_many hstep).bind fun steps rest₁ hrest₁ => ?_
    exact agreeAt_pure _ (by omega)
  · exact agreeAt_pure node hrest

theorem agreeAt_lambda (h : ∀ rest < left, AgreeAt rest rest e e') :
    AgreeAt left left (lambda e) (lambda e') := by
  refine (agreeAt_expect _).bind fun _ rest hrest => ?_
  refine (agreeAt_manyOne fun _ _ => agreeAt_nameWhere _).label.bind
    fun parameters rest₁ hrest₁ => ?_
  refine (agreeAt_expect _).bind fun _ rest₂ hrest₂ => ?_
  refine (h rest₂ (by omega)).bind fun body rest₃ hrest₃ => ?_
  exact agreeAt_pure _ (by omega)

theorem agreeAt_armsOf (h : ∀ rest ≤ left, AgreeAt rest rest e e')
    (hothers : ∀ rest < left, AgreeAt rest rest others others') :
    AgreeAt left left (armsOf e others) (armsOf e' others') := by
  refine (h left (Nat.le_refl left)).bind fun condition rest hrest => ?_
  refine (agreeAt_expect _).bind fun _ rest₁ hrest₁ => ?_
  refine (h rest₁ (by omega)).bind fun branch rest₂ hrest₂ => ?_
  refine (agreeAt_expect _).bind fun _ rest₃ hrest₃ => ?_
  have hlast : AgreeAt rest₃ left (e >>= fun last => pure ([condition], [branch, last]))
      (e' >>= fun last => pure ([condition], [branch, last])) :=
    (h rest₃ (by omega)).bind fun last rest₄ hrest₄ => agreeAt_pure _ (by omega)
  refine agreeAt_peekKind_bind ?_ fun kind hleft => ?_
  · rw [if_neg (Option.some_ne_none _).symm]
    exact hlast
  · split
    · refine (agreeAt_advance hleft).bind fun _ rest₄ hrest₄ => ?_
      refine (hothers rest₄ (by omega)).bind ?_
      rintro ⟨conditions, branches⟩ rest₅ hrest₅
      exact agreeAt_pure _ (by omega)
    · exact hlast

theorem agreeAt_armsUpTo (h : ∀ rest ≤ left, AgreeAt rest rest e e') (hcount : left < count)
    (hcount' : left < count') : AgreeAt left left (armsUpTo e count) (armsUpTo e' count') := by
  induction count generalizing left count' with
  | zero => exact absurd hcount (Nat.not_lt_zero left)
  | succ count ih =>
      obtain ⟨count', rfl⟩ := Nat.exists_eq_add_one.mpr (Nat.zero_lt_of_lt hcount')
      refine agreeAt_armsOf h fun rest hrest => ?_
      exact ih (fun rest₁ hle => h rest₁ (by omega)) (by omega) (by omega)

theorem agreeAt_arms (h : ∀ rest ≤ left, AgreeAt rest rest e e') (hcount : left < count) :
    AgreeAt left left (armsUpTo e count) (arms e') := by
  intro reader hleft
  rw [arms, run_bind_ok (run_remaining reader), hleft]
  exact agreeAt_armsUpTo h hcount (Nat.lt_succ_self left) reader hleft

theorem agreeAt_conditional (h : ∀ rest < left, AgreeAt rest rest e e') :
    AgreeAt left left (conditional e) (conditional e') := by
  refine (agreeAt_expect _).bind fun _ rest hrest => agreeAt_remaining_bind ?_
  have hlt := Nat.lt_succ_self rest
  refine (agreeAt_armsUpTo (fun rest₁ hle => h rest₁ (by omega)) hlt hlt).bind ?_
  rintro ⟨conditions, branches⟩ rest₁ hrest₁
  exact agreeAt_pure _ (by omega)

end Expressions

section Bounds

variable {left depth depth' count : Nat} {e e' : Parse Node} {reader : Reader}
  {others : Parse (List Node × List Node)}

theorem agreeAt_expressionOf (h : ∀ rest < left, AgreeAt rest rest e e') :
    AgreeAt left left (expressionOf e) (expressionOf e') := by
  refine agreeAt_peekKind_bind (agreeAt_pipeline h) fun kind hleft => ?_
  split
  · exact agreeAt_lambda h
  · exact agreeAt_conditional h
  · exact agreeAt_pipeline h

theorem agreeAt_expressionWithin (h : depth = depth' ∨ left < depth ∧ left < depth') :
    AgreeAt left left (expressionWithin depth) (expressionWithin depth') := by
  induction depth generalizing left depth' with
  | zero =>
      obtain rfl : 0 = depth' := by omega
      exact agreeAt_unexpected
  | succ depth ih =>
      obtain ⟨depth', rfl⟩ : ∃ depth₁, depth' = depth₁ + 1 := ⟨depth' - 1, by omega⟩
      exact agreeAt_expressionOf fun rest hrest => ih (by omega)

theorem agreeAt_expression (h : left < depth) :
    AgreeAt left left (expressionWithin depth) expression := by
  intro reader hleft
  rw [expression, run_bind_ok (run_remaining reader), hleft]
  exact agreeAt_expressionWithin (.inr ⟨h, Nat.lt_succ_self left⟩) reader hleft

theorem agreeAt_expression_self (left : Nat) : AgreeAt left left expression expression := by
  intro reader hleft
  have hwithin := agreeAt_expression (Nat.lt_succ_self left) reader hleft
  rw [hwithin.1]
  exact ⟨rfl, hwithin.2⟩

/-- An expression is read in the same way within any depth above the number of tokens left. -/
theorem run_expressionWithin (h : reader.limit - reader.index < depth) :
    (expressionWithin depth).run.run reader = expression.run.run reader :=
  (agreeAt_expression h reader rfl).1.symm

theorem run_armsUpTo (h : reader.limit - reader.index < count) :
    (armsUpTo expression count).run.run reader = (arms expression).run.run reader :=
  (agreeAt_arms (fun rest _ => agreeAt_expression_self rest) h reader rfl).1.symm

theorem expression_eq_expressionOf : expression = expressionOf expression := by
  funext reader
  exact (run_expressionWithin (Nat.lt_succ_self _)).symm.trans
    (agreeAt_expressionOf (fun _ => agreeAt_expression) reader rfl).1.symm

theorem arms_eq_armsOf : arms expression = armsOf expression (arms expression) := by
  have hself := agreeAt_expression_self
  funext reader
  exact (run_armsUpTo (Nat.lt_succ_self _)).symm.trans
    (agreeAt_armsOf (fun rest _ => hself rest)
      (fun rest => agreeAt_arms fun rest₁ _ => hself rest₁) reader rfl).1.symm

/-- The recursion of the grammar, which has no bound, has one solution. -/
theorem eq_expressionOf_iff : e = expressionOf e ↔ e = expression := by
  constructor
  · intro h
    have hagree : ∀ left, AgreeAt left left expression e := by
      intro left
      induction left using Nat.strongRecOn with
      | ind left ih =>
          rw [expression_eq_expressionOf, h]
          exact agreeAt_expressionOf ih
    funext reader
    exact (hagree _ reader rfl).1
  · rintro rfl
    exact expression_eq_expressionOf

theorem eq_armsOf_iff : others = armsOf expression others ↔ others = arms expression := by
  constructor
  · intro h
    have hagree : ∀ left, AgreeAt left left (arms expression) others := by
      intro left
      induction left using Nat.strongRecOn with
      | ind left ih =>
          rw [arms_eq_armsOf, h]
          exact agreeAt_armsOf (fun rest _ => agreeAt_expression_self rest) ih
    funext reader
    exact (hagree _ reader rfl).1
  · rintro rfl
    exact arms_eq_armsOf

end Bounds

end Parse

end Viewlet
