import Viewlet.Proofs.Reading.BlankedText
import Viewlet.Proofs.Reading.Placement

namespace Viewlet

/-- The span in another text, below the given number of lines more. -/
def Span.shifted (source : String) (lines : Nat) (span : Span) : Span :=
  { span with source := source, line := span.line + lines }

namespace Token

section Places

variable {source source' : String} {place place' : Place} {lines : Nat}

/-- The second place is the given number of lines below the first. -/
def Place.Below (lines : Nat) (place place' : Place) : Prop :=
  place'.line = place.line + lines ∧ place'.column = place.column

theorem Place.Below.afterBlank (h : Place.Below lines place place') (c : Char) :
    Place.Below lines (place.afterBlank c) (place'.afterBlank c) := by
  rw [Place.afterBlank, Place.afterBlank]
  split
  · exact ⟨by rw [h.1, Nat.add_right_comm], rfl⟩
  · exact ⟨h.1, by rw [h.2]⟩

theorem Place.Below.afterLexeme (h : Place.Below lines place place') (lexeme : List Char) :
    Place.Below lines (place.afterLexeme lexeme) (place'.afterLexeme lexeme) :=
  ⟨h.1, congrArg (· + Text.byteLength lexeme) h.2⟩

theorem ofLexeme_below (h : Place.Below lines place place') (kind : Kind) (lexeme : List Char) :
    ofLexeme source' place' kind lexeme =
      (ofLexeme source place kind lexeme).moved (Span.shifted source' lines) := by
  simp only [ofLexeme, moved, Span.shifted, h.1, h.2]

/-- Wherever characters stand, they become the same tokens up to their spans. -/
theorem scanFrom_below (h : Place.Below lines place place') (skipped : Nat) (text : List Char) :
    (scanFrom source' place' skipped text).toOption =
      (scanFrom source place skipped text).toOption.map
        (List.map (moved (Span.shifted source' lines))) := by
  induction text generalizing place place' skipped with
  | nil => cases skipped <;> rfl
  | cons c rest ih =>
      cases skipped with
      | succ skipped => exact ih h skipped
      | zero =>
          rw [scanFrom, scanFrom]
          split
          · exact ih (h.afterBlank c) 0
          · cases longest? (c :: rest) with
            | none => rfl
            | some found =>
                obtain ⟨kind, length⟩ := found
                have hrest := ih (h.afterLexeme ((c :: rest).take length)) (length - 1)
                dsimp only
                generalize scanFrom source' _ (length - 1) rest = placed at hrest ⊢
                generalize scanFrom source _ (length - 1) rest = alone at hrest ⊢
                cases placed with
                | error => cases alone with
                  | error => rfl
                  | ok => cases hrest
                | ok tokens' => cases alone with
                  | error => cases hrest
                  | ok tokens =>
                      obtain rfl := Option.some.inj hrest
                      rw [ofLexeme_below h]
                      rfl

theorem scanFrom_newlines (source : String) (offset line count : Nat) (text : List Char) :
    scanFrom source ⟨offset, line, 0⟩ 0 (List.replicate count '\n' ++ text) =
      scanFrom source ⟨offset + count, line + count, 0⟩ 0 text := by
  induction count generalizing offset line with
  | zero => rfl
  | succ count ih =>
      have hblank : Text.isBlank '\n' = true := rfl
      rw [List.replicate_succ, List.cons_append, scanFrom, if_pos hblank, Place.afterBlank,
        if_pos rfl, ih, Nat.add_right_comm offset, Nat.add_right_comm line]
      rfl

end Places

section Quotes

open Text

variable {c : Char} {text rest : List Char} {kind : Kind} {n : Nat}

theorem isQuote_of_continuesName (h : continuesName c = true) : isQuote c = false := by
  rw [← Bool.not_eq_true]
  intro hquote
  simp only [isQuote, Bool.or_eq_true, beq_iff_eq] at hquote
  rcases hquote with rfl | rfl <;> cases h

theorem isQuote_of_isBlank (h : isBlank c = true) : isQuote c = false := by
  simp only [isBlank, Bool.or_eq_true, beq_iff_eq] at h
  rcases h with (((rfl | rfl) | rfl) | rfl) | rfl <;> rfl

theorem isQuote_of_mem_letters (h : c ∈ kind.letters) : isQuote c = false := by
  have hall : Kind.all.all fun kind => kind.letters.all fun c => !isQuote c := by decide +kernel
  have hkind := List.all_eq_true.mp (List.all_eq_true.mp hall kind kind.mem_all) c h
  simpa using hkind

theorem isQuote_of_mem_take {p : Char → Bool} (hp : ∀ c, p c = true → continuesName c = true)
    (h : c ∈ text.take (text.takeWhile p).length) : isQuote c = false := by
  rw [← List.prefix_iff_eq_take.mp (List.takeWhile_prefix p)] at h
  exact isQuote_of_continuesName (hp c (List.all_eq_true.mp List.all_takeWhile c h))

theorem isQuote_of_nameLength? (h : nameLength? text = some n) :
    0 < n ∧ ∀ c ∈ text.take n, isQuote c = false := by
  cases text with
  | nil => cases h
  | cons c rest =>
      rw [nameLength?] at h
      split at h
      · next hstart =>
          have hc : continuesName c = true := by
            rw [startsName] at hstart
            rw [continuesName, Char.isAlphanum]
            simp only [Bool.or_eq_true] at hstart ⊢
            exact hstart.imp .inl id
          obtain rfl := Option.some.inj h
          rw [Nat.add_comm, List.take_succ_cons]
          refine ⟨Nat.succ_pos _, List.forall_mem_cons.mpr ⟨isQuote_of_continuesName hc, ?_⟩⟩
          exact fun d hd => isQuote_of_mem_take (fun _ => id) hd
      · cases h

theorem isQuote_of_integerLength? (h : integerLength? text = some n) :
    0 < n ∧ ∀ c ∈ text.take n, isQuote c = false := by
  rw [integerLength?] at h
  split at h
  · cases h
  · next hcount =>
      obtain rfl := Option.some.inj h
      exact ⟨Nat.pos_of_ne_zero hcount,
        fun c hc => isQuote_of_mem_take (fun _ => continuesName_of_isDigit) hc⟩

theorem isQuote_of_floatLength? (h : floatLength? text = some n) :
    0 < n ∧ ∀ c ∈ text.take n, isQuote c = false := by
  rw [floatLength?] at h
  split at h
  · next whole rest hcount hrest =>
      split at h
      · cases h
      · obtain rfl := Option.some.inj h
        have hlength :
            whole + 1 + 1 + digitCount rest = digitCount text + (digitCount rest + 1) := by
          omega
        rw [hlength, List.take_add, hrest, List.take_succ_cons, List.forall_mem_append,
          List.forall_mem_cons]
        refine ⟨Nat.succ_pos _, ?_⟩
        exact ⟨fun c hc => isQuote_of_mem_take (fun _ => continuesName_of_isDigit) hc, rfl,
          fun c hc => isQuote_of_mem_take (fun _ => continuesName_of_isDigit) hc⟩
  · cases h

theorem isQuote_of_matchLength? (h : kind.matchLength? text = some n) (hstring : kind ≠ .string)
    (hchar : kind ≠ .char) : 0 < n ∧ ∀ c ∈ text.take n, isQuote c = false := by
  by_cases hletters : kind.letters = []
  · cases kind
    case name => exact isQuote_of_nameLength? h
    case integer => exact isQuote_of_integerLength? h
    case float => exact isQuote_of_floatLength? h
    case string => exact absurd rfl hstring
    case char => exact absurd rfl hchar
    all_goals cases hletters
  · obtain ⟨hfront, rfl⟩ := (Kind.matchLength?_eq_some hletters).mp h
    refine ⟨List.length_pos_iff.mpr hletters, fun c hc => ?_⟩
    rw [← List.prefix_iff_eq_take.mp hfront] at hc
    exact isQuote_of_mem_letters hc

theorem isQuote_of_scanFrom {source : String} {place : Place} {skipped : Nat}
    {tokens : List Token} (h : scanFrom source place skipped text = .ok tokens)
    (htokens : ∀ token ∈ tokens, token.kind ≠ .string ∧ token.kind ≠ .char) :
    ∀ c ∈ text.drop skipped, isQuote c = false := by
  induction text generalizing place skipped tokens with
  | nil => simp
  | cons c rest ih =>
      cases skipped with
      | succ skipped => exact ih h htokens
      | zero =>
          rw [scanFrom] at h
          rw [List.drop_zero]
          split at h
          · next hblank =>
              exact List.forall_mem_cons.mpr ⟨isQuote_of_isBlank hblank, ih h htokens⟩
          · split at h
            · cases h
            · next kind length hlongest =>
                dsimp only at h
                split at h
                · next others hrest =>
                    obtain rfl := Except.ok.inj h
                    obtain ⟨⟨hstring, hchar⟩, hothers⟩ := List.forall_mem_cons.mp htokens
                    obtain ⟨hpos, hlexeme⟩ :=
                      isQuote_of_matchLength? (matchLength?_of_longest? hlongest) hstring hchar
                    obtain ⟨length, rfl⟩ := Nat.exists_eq_add_one.mpr hpos
                    have hbehind := ih hrest hothers
                    rw [← List.take_append_drop (length + 1) (c :: rest), List.forall_mem_append]
                    exact ⟨hlexeme, hbehind⟩
                · cases h

end Quotes

end Token

end Viewlet
