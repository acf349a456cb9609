import Viewlet.Proofs.Reading.Rendering
import Viewlet.Proofs.Reading.Units

namespace Viewlet

/-- The complaint about digits that denote no machine integer. -/
def SyntaxError.outOfRange (token : Token) : SyntaxError :=
  { reason := .integerRange, found := some token.text, span := some token.span }

namespace Parse

variable {reader after : Reader} {token : Token} {e : Parse Node} {error : SyntaxError}

theorem run_peek_of_next (h : reader.peek? = some token) :
    peek.run.run reader = (.ok (some token), reader) :=
  h ▸ run_peek reader

theorem run_peekKind_of_next (h : reader.peek? = some token) :
    peekKind.run.run reader = (.ok (some token.kind), reader) :=
  run_bind_ok (run_peek_of_next h)

theorem run_application_outOfRange (hnext : reader.peek? = some token)
    (hkind : token.kind = .integer)
    (hvalue : ¬Decimal.digitsValue token.text.toList < Nat.pow 2 63) :
    (application e).run.run reader =
      (.error (.outOfRange token), reader.record (.outOfRange token)) := by
  have hinteger : (integer token).run.run reader =
      (.error (.outOfRange token), reader.record (.outOfRange token)) := by
    rw [integer, if_neg hvalue]
    rfl
  have hatom : (atom e).run.run reader =
      (.error (.outOfRange token), reader.record (.outOfRange token)) := by
    rw [atom, run_bind_ok (run_peek_of_next hnext)]
    simp only [hkind]
    exact hinteger
  have hname : ¬(token.kind = .name ∧ Token.isCapitalized token.text = true) := by simp [hkind]
  rw [application, run_bind_ok (run_peek_of_next hnext)]
  simp only [if_neg hname]
  exact run_bind_error hatom

theorem run_unaryUpTo_outOfRange (hnext : reader.peek? = some token) (hkind : token.kind = .integer)
    (hvalue : ¬Decimal.digitsValue token.text.toList < Nat.pow 2 63) (count : Nat) :
    (unaryUpTo e count).run.run reader =
      (.error (.outOfRange token), reader.record (.outOfRange token)) := by
  have happlication : (application e).run.run reader = _ :=
    run_application_outOfRange hnext hkind hvalue
  cases count with
  | zero => exact happlication
  | succ count =>
      rw [unaryUpTo, run_bind_ok (run_peek_of_next hnext)]
      simpa [hkind] using happlication

theorem run_unaryUpTo_minus {count : Nat} (hnext : reader.peek? = some token)
    (hkind : token.kind = .minus)
    (h : (unaryUpTo e count).run.run reader.advance = (.error error, after)) :
    (unaryUpTo e (count + 1)).run.run reader = (.error error, after) := by
  have hadvance : advance.run.run reader = (.ok (), reader.advance) := rfl
  rw [unaryUpTo, run_bind_ok (run_peek_of_next hnext)]
  simp only [hkind, reduceCtorEq, false_and, if_false, if_true]
  rw [run_bind_ok hadvance]
  exact run_bind_error h

theorem run_operation_error (h : (unary e).run.run reader = (.error error, after))
    (tiers : List (List (Token.Kind × BinOp))) :
    (operation e tiers).run.run reader = (.error error, after) := by
  induction tiers with
  | nil => exact h
  | cons operators inner ih => exact run_bind_error ih

theorem run_item_error (hnext : reader.peek? = some token)
    (hkind : token.kind = .integer ∨ token.kind = .minus)
    (h : ∀ e, (unary e).run.run reader = (.error error, after)) :
    item.run.run reader = (.error error, after) := by
  have hwithin (depth : Nat) :
      (expressionWithin (depth + 1)).run.run reader = (.error error, after) := by
    have hpipeline : (pipeline (expressionWithin depth)).run.run reader = (.error error, after) :=
      run_bind_error (run_operation_error (h _) tiers)
    rw [expressionWithin, run_bind_ok (run_peekKind_of_next hnext)]
    rcases hkind with hkind | hkind <;> simpa only [hkind] using hpipeline
  have hstart : startsDeclaration reader.rest = false := by
    rw [Reader.peek?_eq_head?] at hnext
    obtain ⟨others, hothers⟩ := List.head?_eq_some_iff.mp hnext
    have hplain : isPlainName token = false := by
      rcases hkind with hkind | hkind <;> simp [isPlainName, hkind]
    simp [startsDeclaration, hothers, hplain]
  have hword : ¬some token.kind = some Token.Kind.wordType := by
    rcases hkind with hkind | hkind <;> simp [hkind]
  rw [item, run_bind_ok (run_peekKind_of_next hnext), if_neg hword,
    run_bind_ok (run_get reader), hstart]
  rw [if_neg Bool.false_ne_true, expression, run_bind_ok (run_remaining reader)]
  exact hwithin _

end Parse

namespace Reader

variable {tokens : List Token} {token sign : Token} {error : SyntaxError} {after : Reader}

theorem readAlone_error {parse : Parse Node} (hne : tokens ≠ [])
    (h : parse.run.run (ofTokens tokens []) = (.error error, after))
    (hfurthest : after.furthestError? = some error) : readAlone parse tokens = .error error := by
  have hnext : (ofTokens tokens []).hasNext = true := decide_eq_true (List.length_pos_iff.mpr hne)
  have hbegin : (ofTokens tokens []).beginUnit = ofTokens tokens [] := rfl
  rw [readAlone, readUnit, hbegin, if_pos hnext, h]
  simp only [hfurthest, Option.getD_some]

variable (hkind : token.kind = .integer)
  (hvalue : ¬Decimal.digitsValue token.text.toList < Nat.pow 2 63)
include hkind hvalue

theorem readAlone_digits : readAlone Parse.item [token] = .error (.outOfRange token) := by
  have hnext : (ofTokens [token] []).peek? = some token := rfl
  exact readAlone_error (List.cons_ne_nil _ _) (Parse.run_item_error hnext (.inl hkind) fun e =>
    Parse.run_unaryUpTo_outOfRange hnext hkind hvalue _) rfl

theorem readAlone_minus_digits (hsign : sign.kind = .minus) :
    readAlone Parse.item [sign, token] = .error (.outOfRange token) := by
  have hnext : (ofTokens [sign, token] []).peek? = some sign := rfl
  have hbehind : (ofTokens [sign, token] []).advance.peek? = some token := rfl
  exact readAlone_error (List.cons_ne_nil _ _) (Parse.run_item_error hnext (.inr hsign) fun e =>
    Parse.run_unaryUpTo_minus hnext hsign
      (Parse.run_unaryUpTo_outOfRange hbehind hkind hvalue _)) rfl

end Reader

theorem Written.refused {follow : Char → Bool} {source : String} {property : List Token → Prop}
    {condition : SyntaxError → Prop} (h : Written follow source.toList property)
    (hrefused : ∀ tokens, property tokens → tokens ≠ [] ∧ ∃ error,
      Reader.readAlone Parse.item tokens = .error error ∧ condition error) :
    ∃ error, readProgram source = .ok ([], [error]) ∧ condition error := by
  obtain ⟨tokens, hproperty, hsource⟩ := h.ofSource
  obtain ⟨hne, error, hread, herror⟩ := hrefused tokens hproperty
  refine ⟨error, ?_, herror⟩
  rw [readProgram_of_runs hsource, List.filter_cons_of_pos (by simpa using hne), List.filter_nil,
    List.map_singleton, hread]
  rfl

/-- An integer whose digits denote no machine integer is refused, with or without a sign. -/
theorem refuses_decimal {z : Int} (h : ¬z.natAbs < Nat.pow 2 63) :
    ∃ error, readProgram z.repr = .ok ([], [error]) ∧ ∃ span, error =
      { reason := .integerRange, found := some z.natAbs.repr, span := some span } := by
  obtain ⟨hdigits, hhead⟩ := Node.written_decimal z.natAbs
  cases z with
  | ofNat n =>
      have htext : (Int.ofNat n).repr.toList = Nat.toDigits 10 n := String.toList_ofList
      refine (htext ▸ hdigits : Written _ (Int.ofNat n).repr.toList _).refused ?_
      rintro _ ⟨token, rfl, hkind, htoken, hvalue⟩
      refine ⟨List.cons_ne_nil _ _, _, Reader.readAlone_digits hkind (hvalue.symm ▸ h), token.span,
        ?_⟩
      rw [SyntaxError.outOfRange, htoken]
  | negSucc n =>
      have htext : (Int.negSucc n).repr.toList =
          Token.Kind.letters .minus ++ Nat.toDigits 10 (n + 1) :=
        String.toList_append.trans (congrArg ('-' :: ·) String.toList_ofList)
      have hminus := written_bare .minus rfl (by decide)
      refine (htext ▸ hminus.append hdigits hhead :
        Written _ (Int.negSucc n).repr.toList _).refused ?_
      rintro _ ⟨_, _, rfl, ⟨sign, rfl, hsign⟩, token, rfl, hkind, htoken, hvalue⟩
      refine ⟨List.cons_ne_nil _ _, _,
        Reader.readAlone_minus_digits hkind (hvalue.symm ▸ h) hsign, token.span, ?_⟩
      rw [SyntaxError.outOfRange, htoken]

/-- A machine integer other than the least one is read from its text. -/
theorem reads_integer {value : Int64} (h : value ≠ Int64.minValue) :
    readProgram (Node.integer value).render = .ok ([.integer value], []) := by
  have hreads : (Node.integer value).ReadsBack true := .integer h
  have hwritten : Written Token.isApart (Node.integer value).render.toList
      (Derives .item · (.integer value)) := hreads.expression.imp fun _ => .expression
  exact hwritten.reads.1

theorem natAbs_lt_iff {z : Int} :
    z.natAbs < Nat.pow 2 63 ↔ Int64.minValue.toInt < z ∧ z ≤ Int64.maxValue.toInt := by
  rw [Int64.toInt_minValue, Int64.toInt_maxValue]
  have hlimit : Nat.pow 2 63 = 9223372036854775808 := rfl
  omega

theorem exists_reads_decimal {z : Int} (h : z.natAbs < Nat.pow 2 63) :
    ∃ value : Int64, value.toInt = z ∧ readProgram z.repr = .ok ([.integer value], []) := by
  obtain ⟨hlow, hhigh⟩ := natAbs_lt_iff.mp h
  have hvalue : (Int64.ofInt z).toInt = z :=
    Int64.toInt_ofInt_of_le (Int.le_of_lt hlow) (Int.lt_of_le_of_lt hhigh (by decide))
  have hleast : Int64.ofInt z ≠ Int64.minValue := by
    intro heq
    rw [← hvalue, heq] at hlow
    exact Int.lt_irrefl _ hlow
  have hread := reads_integer hleast
  rw [Node.render, hvalue] at hread
  exact ⟨Int64.ofInt z, hvalue, hread⟩

/-- An integer in decimal is read as itself if it is a machine integer other than the least one,
and refused as out of range if it is not. So the least machine integer is the only one that is not
read back from its text. -/
theorem reads_decimal (z : Int) (value : Int64) :
    ((∃ value : Int64, value.toInt = z ∧ readProgram z.repr = .ok ([.integer value], [])) ↔
      Int64.minValue.toInt < z ∧ z ≤ Int64.maxValue.toInt) ∧
    ((∃ span, readProgram z.repr = .ok ([],
        [{ reason := .integerRange, found := some z.natAbs.repr, span := some span }])) ↔
      ¬(Int64.minValue.toInt < z ∧ z ≤ Int64.maxValue.toInt)) ∧
    (readProgram (Node.integer value).render = .ok ([.integer value], []) ↔
      value ≠ Int64.minValue) := by
  have hleast : readProgram (Node.integer value).render = .ok ([.integer value], []) ↔
      value ≠ Int64.minValue := by
    refine ⟨?_, reads_integer⟩
    rintro hread rfl
    have hrange : ¬Int64.minValue.toInt.natAbs < Nat.pow 2 63 := by decide
    obtain ⟨error, hrefused, -⟩ := refuses_decimal hrange
    rw [Node.render, hrefused] at hread
    cases hread
  rw [← natAbs_lt_iff]
  by_cases h : z.natAbs < Nat.pow 2 63
  · obtain ⟨value, hvalue, hread⟩ := exists_reads_decimal h
    refine ⟨iff_of_true ⟨value, hvalue, hread⟩ h, iff_of_false ?_ (not_not_intro h), hleast⟩
    rintro ⟨span, hrefused⟩
    rw [hread] at hrefused
    cases hrefused
  · obtain ⟨_, hrefused, span, rfl⟩ := refuses_decimal h
    refine ⟨iff_of_false ?_ h, iff_of_true ⟨span, hrefused⟩ h, hleast⟩
    rintro ⟨value, -, hread⟩
    rw [hrefused] at hread
    cases hread

/-- The least machine integer is the value of a difference, and its text is refused. -/
theorem reads_decimal_least :
    (Session.interpret 20 {} "-9223372036854775807 - 1").map
        (fun outcome => outcome.1.toOption.map Node.render) =
      some (some "-9223372036854775808") ∧
    Int64.minValue.toInt.repr = "-9223372036854775808" ∧
    (readProgram "-9223372036854775808").toOption.map
        (fun found => (found.1.length, found.2.map (·.reason))) = some (0, [.integerRange]) := by
  decide +kernel

end Viewlet
