import Viewlet.Proofs.Reading.ReadNodes

/-!
Runs of parses. A reader sees the tokens that are left of its unit. `x.Ends tokens post fails`
says what comes of a parse that is started before the tokens: a result, with tokens left that are
as `post` says, or a failure, which is possible only if `fails` holds. With `True` for `fails` it
says what is read, and with `False` that something is read.
-/

namespace Viewlet

namespace Reader

/-- The tokens are what is left of the unit. -/
structure Sees (reader : Reader) (tokens : List Token) : Prop where
  rest : reader.rest = tokens
  limit : reader.limit ≤ reader.tokens.length

/-- Both readers stand in the same unit. -/
def InUnit (reader reader' : Reader) : Prop :=
  reader'.tokens = reader.tokens ∧ reader'.limit = reader.limit

variable {reader reader' reader'' : Reader} {tokens rest : List Token} {token : Token}

theorem InUnit.refl (reader : Reader) : reader.InUnit reader :=
  ⟨rfl, rfl⟩

theorem InUnit.trans (h : reader.InUnit reader') (h' : reader'.InUnit reader'') :
    reader.InUnit reader'' :=
  ⟨h'.1.trans h.1, h'.2.trans h.2⟩

theorem InUnit.symm (h : reader.InUnit reader') : reader'.InUnit reader :=
  ⟨h.1.symm, h.2.symm⟩

theorem inUnit_record (error : SyntaxError) : reader.InUnit (reader.record error) := by
  rw [record]
  split
  · split
    · exact .refl reader
    · exact ⟨rfl, rfl⟩
  · exact ⟨rfl, rfl⟩

theorem inUnit_advance : reader.InUnit reader.advance := by
  rw [advance]
  split <;> exact ⟨rfl, rfl⟩

namespace Sees

theorem peek? (h : reader.Sees tokens) : reader.peek? = tokens.head? := by
  rw [reader.peek?_eq_head?, h.rest]

theorem remaining (h : reader.Sees tokens) : reader.limit - reader.index = tokens.length := by
  rw [← h.rest, Reader.rest, List.length_drop, List.length_take, Nat.min_eq_left h.limit]

theorem hasNext (h : reader.Sees tokens) : reader.hasNext = !tokens.isEmpty := by
  have hlength := h.remaining
  cases tokens with
  | nil =>
      rw [List.length_nil] at hlength
      simp only [Reader.hasNext, List.isEmpty_nil, Bool.not_true, decide_eq_false_iff_not]
      omega
  | cons token rest =>
      rw [List.length_cons] at hlength
      simp only [Reader.hasNext, List.isEmpty_cons, Bool.not_false, decide_eq_true_eq]
      omega

theorem advance (h : reader.Sees (token :: rest)) : reader.advance.Sees rest := by
  have hnext : reader.hasNext = true := h.hasNext
  rw [Reader.advance, if_pos hnext]
  refine ⟨?_, h.limit⟩
  calc (reader.tokens.take reader.limit).drop (reader.index + 1)
      = reader.rest.drop 1 := List.drop_drop.symm
    _ = rest := by rw [h.rest, List.drop_one, List.tail_cons]

theorem moveTo (h : reader.Sees tokens) (hunit : reader.InUnit reader') :
    (reader'.moveTo reader.index).Sees tokens := by
  refine ⟨?_, ?_⟩
  · rw [← h.rest, Reader.rest, Reader.rest, Reader.moveTo, hunit.1, hunit.2]
  · rw [Reader.moveTo, hunit.1, hunit.2]
    exact h.limit

end Sees

end Reader

namespace Parse

variable {α β : Type} {x first second : Parse α} {f : α → Parse β} {reader after : Reader}
  {tokens rest : List Token} {token : Token} {post post' : α → List Token → Prop}
  {goal : β → List Token → Prop} {fails failed : Prop}

/-- A result that leaves tokens as `post` says, or a failure if `fails` allows one. -/
def Fulfils (post : α → List Token → Prop) (fails : Prop) : Except SyntaxError α × Reader → Prop
  | (.ok result, reader) => ∃ rest, reader.Sees rest ∧ post result rest
  | (.error _, _) => fails

/-- What comes of the parse, started before the tokens. It stays in its unit. -/
def Ends (x : Parse α) (tokens : List Token) (post : α → List Token → Prop) (fails : Prop) : Prop :=
  ∀ reader : Reader, reader.Sees tokens →
    reader.InUnit (x.run.run reader).2 ∧ Fulfils post fails (x.run.run reader)

theorem run_bind_ok {result : α} (h : x.run.run reader = (.ok result, after)) :
    (x >>= f).run.run reader = (f result).run.run after := by
  rw [run_bind, h]

theorem run_bind_error {error : SyntaxError} (h : x.run.run reader = (.error error, after)) :
    (x >>= f).run.run reader = (.error error, after) := by
  rw [run_bind, h]

theorem run_tryCatch_ok {handle : SyntaxError → Parse α} {result : α}
    (h : x.run.run reader = (.ok result, after)) :
    (tryCatch x handle : Parse α).run.run reader = (.ok result, after) := by
  simp only [ExceptT.run_tryCatch, StateT.run_bind, h]
  rfl

theorem run_tryCatch_error {handle : SyntaxError → Parse α} {error : SyntaxError}
    (h : x.run.run reader = (.error error, after)) :
    (tryCatch x handle : Parse α).run.run reader = (handle error).run.run after := by
  simp only [ExceptT.run_tryCatch, StateT.run_bind, h]
  rfl

theorem run_get (reader : Reader) : (get : Parse Reader).run.run reader = (.ok reader, reader) :=
  rfl

theorem run_peek (reader : Reader) : peek.run.run reader = (.ok reader.peek?, reader) :=
  rfl

theorem run_peekKind (reader : Reader) :
    peekKind.run.run reader = (.ok (reader.peek?.map (·.kind)), reader) :=
  rfl

theorem run_remaining (reader : Reader) :
    remaining.run.run reader = (.ok (reader.limit - reader.index), reader) :=
  rfl

theorem cases_either (first second : Parse α) (reader : Reader) :
    (∃ result after, first.run.run reader = (.ok result, after) ∧
      (either first second).run.run reader = (.ok result, after)) ∨
    ∃ error after, first.run.run reader = (.error error, after) ∧
      (either first second).run.run reader = second.run.run (after.moveTo reader.index) := by
  rcases hrun : first.run.run reader with ⟨error | result, after⟩
  · refine .inr ⟨error, after, rfl, ?_⟩
    rw [either, run_bind_ok (run_get reader), run_tryCatch_error hrun]
    rfl
  · refine .inl ⟨result, after, rfl, ?_⟩
    rw [either, run_bind_ok (run_get reader), run_tryCatch_ok hrun]

theorem run_manyUpTo_ok {result : α} (h : x.run.run reader = (.ok result, after)) (count : Nat) :
    (manyUpTo x (count + 1)).run.run reader =
      (manyUpTo x count >>= fun results => pure (result :: results)).run.run after := by
  have htry : (tryCatch (some <$> x) fun _ => return none : Parse (Option α)).run.run reader =
      (.ok (some result), after) := run_tryCatch_ok (run_bind_ok h)
  rw [manyUpTo, run_bind_ok (run_get reader), run_bind_ok htry]

theorem run_manyUpTo_error {error : SyntaxError} (h : x.run.run reader = (.error error, after))
    (count : Nat) :
    (manyUpTo x (count + 1)).run.run reader = (.ok [], after.moveTo reader.index) := by
  have htry : (tryCatch (some <$> x) fun _ => return none : Parse (Option α)).run.run reader =
      (.ok none, after) := run_tryCatch_error (run_bind_error h)
  rw [manyUpTo, run_bind_ok (run_get reader), run_bind_ok htry]
  rfl

theorem cases_manyUpTo (x : Parse α) (count : Nat) (reader : Reader) :
    (∃ result after, x.run.run reader = (.ok result, after) ∧
      (manyUpTo x (count + 1)).run.run reader =
        (manyUpTo x count >>= fun results => pure (result :: results)).run.run after) ∨
    ∃ error after, x.run.run reader = (.error error, after) ∧
      (manyUpTo x (count + 1)).run.run reader = (.ok [], after.moveTo reader.index) := by
  rcases hrun : x.run.run reader with ⟨error | result, after⟩
  · exact .inr ⟨error, after, rfl, run_manyUpTo_error hrun count⟩
  · exact .inl ⟨result, after, rfl, run_manyUpTo_ok hrun count⟩

theorem ends_pure {result : α} (h : post result tokens) :
    (pure result : Parse α).Ends tokens post fails :=
  fun reader hreader => ⟨.refl reader, tokens, hreader, h⟩

theorem ends_fail {error : SyntaxError} (h : fails) :
    (fail error : Parse α).Ends tokens post fails :=
  fun _ _ => ⟨Reader.inUnit_record error, h⟩

theorem ends_unexpected {expected : String} (h : fails) :
    (unexpected expected : Parse α).Ends tokens post fails :=
  fun reader _ => ⟨Reader.inUnit_record (reader.mismatch expected), h⟩

theorem Ends.mono (h : x.Ends tokens post failed)
    (hpost : ∀ result rest, post result rest → post' result rest) (hfails : failed → fails) :
    x.Ends tokens post' fails := by
  intro reader hreader
  obtain ⟨hunit, hfulfils⟩ := h reader hreader
  refine ⟨hunit, ?_⟩
  rcases hrun : x.run.run reader with ⟨error | result, after⟩
  · rw [hrun] at hfulfils
    exact hfails hfulfils
  · rw [hrun] at hfulfils
    obtain ⟨rest, hsees, hresult⟩ := hfulfils
    exact ⟨rest, hsees, hpost result rest hresult⟩

theorem Ends.bind (hx : x.Ends tokens post fails)
    (hf : ∀ result rest, post result rest → (f result).Ends rest goal fails) :
    (x >>= f).Ends tokens goal fails := by
  intro reader hreader
  obtain ⟨hunit, hfulfils⟩ := hx reader hreader
  rcases hrun : x.run.run reader with ⟨error | result, after⟩
  · rw [hrun] at hunit hfulfils
    rw [run_bind_error hrun]
    exact ⟨hunit, hfulfils⟩
  · rw [hrun] at hunit hfulfils
    obtain ⟨rest, hsees, hresult⟩ := hfulfils
    obtain ⟨hunit', hfulfils'⟩ := hf result rest hresult after hsees
    rw [run_bind_ok hrun]
    exact ⟨hunit.trans hunit', hfulfils'⟩

section Primitives

variable {g : Reader → Parse β} {next : Option Token → Parse β}
  {kindNext : Option Token.Kind → Parse β}
  {count : Nat → Parse β} {go : Unit → Parse β} {kind : Token.Kind}

theorem ends_get_bind
    (h : ∀ reader : Reader, reader.Sees tokens → (g reader).Ends tokens goal fails) :
    (get >>= g : Parse β).Ends tokens goal fails :=
  fun reader hreader => h reader hreader reader hreader

theorem ends_peek_bind (h : (next tokens.head?).Ends tokens goal fails) :
    (peek >>= next).Ends tokens goal fails := by
  intro reader hreader
  rw [run_bind_ok (run_peek reader), hreader.peek?]
  exact h reader hreader

theorem ends_peekKind_bind (h : (kindNext (tokens.head?.map (·.kind))).Ends tokens goal fails) :
    (peekKind >>= kindNext).Ends tokens goal fails := by
  intro reader hreader
  rw [run_bind_ok (run_peekKind reader), hreader.peek?]
  exact h reader hreader

theorem ends_remaining_bind_iff :
    (remaining >>= count).Ends tokens goal fails ↔
      (count tokens.length).Ends tokens goal fails := by
  refine forall₂_congr fun reader hreader => ?_
  rw [run_bind_ok (run_remaining reader), hreader.remaining]

theorem ends_remaining_bind (h : (count tokens.length).Ends tokens goal fails) :
    (remaining >>= count).Ends tokens goal fails :=
  ends_remaining_bind_iff.mpr h

theorem ends_advance {post : Unit → List Token → Prop} (h : post () rest) :
    advance.Ends (token :: rest) post fails :=
  fun _ hreader => ⟨Reader.inUnit_advance, rest, hreader.advance, h⟩

theorem ends_advance_bind (h : (go ()).Ends rest goal fails) :
    (advance >>= go).Ends (token :: rest) goal fails := by
  have hadvance : advance.Ends (token :: rest) (fun _ left => left = rest) fails := ends_advance rfl
  refine hadvance.bind ?_
  rintro _ _ rfl
  exact h

theorem ends_expect {post : Unit → List Token → Prop}
    (hnext : ∀ token rest, tokens = token :: rest → token.kind = kind → post () rest)
    (hfails : tokens.head?.map (·.kind) ≠ some kind → fails) :
    (expect kind).Ends tokens post fails := by
  refine ends_peekKind_bind ?_
  split
  · next hkind =>
      cases tokens with
      | nil => cases hkind
      | cons token rest => exact ends_advance (hnext token rest rfl (Option.some.inj hkind))
  · next hkind => exact ends_unexpected (hfails hkind)

theorem ends_expect_bind (hkind : token.kind = kind) (h : (go ()).Ends rest goal fails) :
    (expect kind >>= go).Ends (token :: rest) goal fails := by
  have hexpect : (expect kind).Ends (token :: rest) (fun _ left => left = rest) fails := by
    refine ends_expect ?_ fun hne => absurd (congrArg some hkind) hne
    rintro _ _ ⟨⟩ _
    rfl
  refine hexpect.bind ?_
  rintro _ _ rfl
  exact h

theorem ends_nameWhere {admits : String → Bool} {expected : String}
    {post : String → List Token → Prop}
    (hnext : ∀ token rest, tokens = token :: rest → token.kind = .name →
      admits token.text = true → post token.text rest)
    (hfails : (∀ token rest, tokens = token :: rest → token.kind = .name →
      admits token.text = false) → fails) :
    (nameWhere admits expected).Ends tokens post fails := by
  refine ends_peek_bind ?_
  cases tokens with
  | nil => exact ends_unexpected (hfails fun _ _ heq => by cases heq)
  | cons token rest =>
      rw [List.head?_cons]
      dsimp only
      split
      · next hadmits =>
          exact ends_advance_bind (ends_pure (hnext token rest rfl hadmits.1 hadmits.2))
      · next hadmits =>
          refine ends_unexpected (hfails ?_)
          rintro _ _ ⟨⟩ hname
          rw [← Bool.not_eq_true]
          exact fun hadmitted => hadmits ⟨hname, hadmitted⟩

end Primitives

theorem Ends.label {expected : String} (h : x.Ends tokens post fails) :
    (label expected x).Ends tokens post fails := by
  intro reader hreader
  obtain ⟨hunit, hfulfils⟩ := h reader hreader
  rcases hrun : x.run.run reader with ⟨error | result, after⟩
  · rw [hrun] at hunit hfulfils
    rw [Parse.label, run_tryCatch_error hrun]
    exact ⟨hunit.trans (Reader.inUnit_record _), hfulfils⟩
  · rw [hrun] at hunit hfulfils
    rw [Parse.label, run_tryCatch_ok hrun]
    exact ⟨hunit, hfulfils⟩

theorem Ends.either (hfirst : first.Ends tokens post failed)
    (hsecond : failed → second.Ends tokens post fails) :
    (either first second).Ends tokens post fails := by
  intro reader hreader
  obtain ⟨hunit, hfulfils⟩ := hfirst reader hreader
  rcases cases_either first second reader with
    ⟨result, after, hrun, hboth⟩ | ⟨error, after, hrun, hboth⟩
  · rw [hrun] at hunit hfulfils
    rw [hboth]
    exact ⟨hunit, hfulfils⟩
  · rw [hrun] at hunit hfulfils
    obtain ⟨hunit', hfulfils'⟩ := hsecond hfulfils _ (hreader.moveTo hunit)
    rw [hboth]
    exact ⟨hunit.trans hunit', hfulfils'⟩

theorem Ends.manyUpTo_succ {goal : List α → List Token → Prop} {count : Nat}
    (hx : x.Ends tokens post failed)
    (hnext : ∀ result rest, post result rest →
      (manyUpTo x count).Ends rest (fun results => goal (result :: results)) fails)
    (hstop : failed → goal [] tokens) : (manyUpTo x (count + 1)).Ends tokens goal fails := by
  intro reader hreader
  obtain ⟨hunit, hfulfils⟩ := hx reader hreader
  rcases cases_manyUpTo x count reader with
    ⟨result, after, hrun, hmany⟩ | ⟨error, after, hrun, hmany⟩
  · rw [hrun] at hunit hfulfils
    obtain ⟨rest, hsees, hresult⟩ := hfulfils
    have hothers : (manyUpTo x count >>= fun results => pure (result :: results)).Ends rest goal
        fails := (hnext result rest hresult).bind fun _ _ hresults => ends_pure hresults
    obtain ⟨hunit', hfulfils'⟩ := hothers after hsees
    rw [hmany]
    exact ⟨hunit.trans hunit', hfulfils'⟩
  · rw [hrun] at hunit hfulfils
    rw [hmany]
    exact ⟨hunit, tokens, hreader.moveTo hunit, hstop hfulfils⟩

end Parse

end Viewlet
