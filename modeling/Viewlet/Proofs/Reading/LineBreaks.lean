import Viewlet.Proofs.Reading.ScannedText

namespace Viewlet

namespace Alphabet

/-- The text has no fault if it begins outside literals. -/
def Faultless (text : List Char) : Prop :=
  ∃ line column, faultFrom? .code line column text = none

/-- The text has no fault if it begins in a literal with the given quote. -/
def Closes (quote : Char) (text : List Char) : Prop :=
  ∃ startLine startColumn line column,
    faultFrom? (.literal quote startLine startColumn) line column text = none

variable {quote c : Char} {text front rest : List Char} {n : Nat}

theorem Faultless.drop (h : Faultless text)
    (hquotes : ∀ c ∈ text.take n, Text.isQuote c = false) : Faultless (text.drop n) := by
  obtain ⟨line, column, hfault⟩ := h
  rw [← List.take_append_drop n text] at hfault
  exact (admits_of_faultFrom? hquotes hfault).2

theorem Faultless.closes (h : Faultless (c :: text)) (hquote : Text.isQuote c = true) :
    Closes c text := by
  obtain ⟨line, column, hfault⟩ := h
  have hc : c = '"' ∨ c = '\'' := by simpa [Text.isQuote] using hquote
  have hnewline : c ≠ '\n' := by rcases hc with rfl | rfl <;> decide
  have hadmits : ¬admits c = true := by rcases hc with rfl | rfl <;> decide
  rw [faultFrom?, if_neg hnewline, if_neg hadmits, if_pos hc] at hfault
  exact ⟨_, _, _, _, hfault⟩

theorem Closes.cases_cons (h : Closes quote (c :: text)) :
    (c = '\\' ∧ ∃ d others, text = d :: others ∧ Closes quote others) ∨
      c ≠ '\\' ∧ c ≠ '\n' ∧ (c = quote ∧ Faultless text ∨ c ≠ quote ∧ Closes quote text) := by
  obtain ⟨startLine, startColumn, line, column, hfault⟩ := h
  rw [faultFrom?] at hfault
  split at hfault
  · next hshield =>
      refine .inl ⟨hshield, ?_⟩
      cases text with
      | nil => cases hfault
      | cons d others => exact ⟨d, others, rfl, _, _, _, _, hfault⟩
  · next hshield =>
      split at hfault
      · cases hfault
      · next hnewline =>
          refine .inr ⟨hshield, hnewline, ?_⟩
          split at hfault
          · next hend => exact .inl ⟨hend, _, _, hfault⟩
          · next hend => exact .inr ⟨hend, _, _, _, _, hfault⟩

end Alphabet

namespace Token

open Alphabet

variable {text front rest : List Char} {kind : Kind} {n : Nat}

section Lengths

theorem length_of_closingLength? (h : closingLength? text = some n) :
    0 < n ∧ n ≤ text.length := by
  fun_induction closingLength? text generalizing n with
  | case1 | case3 | case5 => cases h
  | case2 =>
      obtain rfl := Option.some.inj h
      exact ⟨Nat.one_pos, Nat.succ_le_succ (Nat.zero_le _)⟩
  | case4 _ _ _ ih | case6 _ _ _ _ _ ih =>
      obtain ⟨inner, hinner, rfl⟩ := Option.map_eq_some_iff.mp h
      obtain ⟨-, hle⟩ := ih hinner
      simp only [List.length_cons]
      omega

theorem length_of_charLength? (h : charLength? text = some n) : 0 < n ∧ n ≤ text.length := by
  rw [charLength?.eq_def] at h
  split at h <;> (try split at h) <;> simp_all <;> omega

theorem length_of_floatLength? (h : floatLength? text = some n) : 0 < n ∧ n ≤ text.length := by
  rw [floatLength?] at h
  split at h
  · next whole rest hcount hrest =>
      split at h
      · cases h
      · obtain rfl := Option.some.inj h
        have hdigits : digitCount rest ≤ rest.length := List.takeWhile_prefix _ |>.length_le
        have hlength := congrArg List.length hrest
        rw [List.length_drop, List.length_cons] at hlength
        omega
  · cases h

theorem length_of_matchLength? (h : kind.matchLength? text = some n) :
    0 < n ∧ n ≤ text.length := by
  by_cases hletters : kind.letters = []
  · cases kind
    case name =>
      cases text with
      | nil => cases h
      | cons c rest =>
          have hname : (rest.takeWhile continuesName).length ≤ rest.length :=
            (List.takeWhile_prefix _).length_le
          simp only [Kind.matchLength?, nameLength?, Option.ite_none_right_eq_some,
            Option.some.injEq] at h
          rw [List.length_cons]
          omega
    case integer =>
      have hdigits : digitCount text ≤ text.length := (List.takeWhile_prefix _).length_le
      simp only [Kind.matchLength?, integerLength?, Option.ite_none_left_eq_some,
        Option.some.injEq] at h
      omega
    case float => exact length_of_floatLength? h
    case string =>
      rw [Kind.matchLength?, stringLength?.eq_def] at h
      split at h
      · obtain ⟨inner, hinner, rfl⟩ := Option.map_eq_some_iff.mp h
        have hle := length_of_closingLength? hinner
        rw [List.length_cons]
        omega
      · cases h
    case char => exact length_of_charLength? h
    all_goals cases hletters
  · obtain ⟨hfront, rfl⟩ := (Kind.matchLength?_eq_some hletters).mp h
    exact ⟨List.length_pos_iff.mpr hletters, hfront.length_le⟩

end Lengths

section Blanks

variable {blank : Char}

theorem takeWhile_blank {p : Char → Bool} (hp : p blank = false) (front rest : List Char) :
    (front ++ blank :: rest).takeWhile p = front.takeWhile p := by
  induction front with
  | nil => simp [hp]
  | cons c front ih =>
      rw [List.cons_append, List.takeWhile_cons, List.takeWhile_cons, ih]

theorem continuesName_of_isBlank (h : Text.isBlank blank = true) : continuesName blank = false := by
  rw [← Bool.not_eq_true]
  intro hname
  rw [(ordinary_of_continuesName hname).2.1] at h
  cases h

theorem digitCount_blank (h : Text.isBlank blank = true) (front rest : List Char) :
    digitCount (front ++ blank :: rest) = digitCount front := by
  refine congrArg List.length (takeWhile_blank (Bool.eq_false_iff.mpr fun hdigit => ?_) front rest)
  have hname := continuesName_of_isBlank h
  rw [continuesName_of_isDigit hdigit] at hname
  cases hname

theorem nameLength?_blank (h : Text.isBlank blank = true) (front rest : List Char) :
    nameLength? (front ++ blank :: rest) = nameLength? front := by
  have hname := continuesName_of_isBlank h
  cases front with
  | nil =>
      refine if_neg fun hstart => ?_
      rw [continuesName, Char.isAlphanum] at hname
      rw [startsName] at hstart
      simp_all
  | cons c front => rw [List.cons_append, nameLength?, nameLength?, takeWhile_blank hname]

theorem integerLength?_blank (h : Text.isBlank blank = true) (front rest : List Char) :
    integerLength? (front ++ blank :: rest) = integerLength? front := by
  rw [integerLength?, integerLength?, digitCount_blank h]

theorem floatLength?_blank (h : Text.isBlank blank = true) (front rest : List Char) :
    floatLength? (front ++ blank :: rest) = floatLength? front := by
  have hle : digitCount front ≤ front.length := (List.takeWhile_prefix _).length_le
  have hblank : blank ≠ '.' := by
    rintro rfl
    cases h
  rw [floatLength?, floatLength?, digitCount_blank h, List.drop_append_of_le_length hle]
  cases digitCount front with
  | zero => rfl
  | succ whole =>
      cases front.drop (whole + 1) with
      | nil => simp [hblank]
      | cons c others =>
          by_cases hpoint : c = '.'
          · subst hpoint
            simp only [List.cons_append, digitCount_blank h]
          · simp [hpoint]

theorem letters_prefix_blank (h : Text.isBlank blank = true) (kind : Kind)
    (front rest : List Char) :
    kind.letters <+: front ++ blank :: rest ↔ kind.letters <+: front := by
  have hall : Kind.all.all fun kind => kind.letters.all fun c => !Text.isBlank c := by
    decide +kernel
  have hblank : blank ∉ kind.letters := by
    intro hmem
    have hletter := List.all_eq_true.mp (List.all_eq_true.mp hall kind kind.mem_all) blank hmem
    rw [h] at hletter
    cases hletter
  refine ⟨fun h => ?_, fun h => h.trans (List.prefix_append front _)⟩
  by_cases hle : kind.letters.length ≤ front.length
  · exact List.prefix_of_prefix_length_le h (List.prefix_append front _) hle
  · have hfront : front ++ [blank] <+: kind.letters :=
      List.prefix_of_prefix_length_le (by simp) h (by simp; omega)
    exact absurd (hfront.subset (by simp)) hblank

theorem charLength?_blank (h : Text.isBlank blank = true) (hopen : front ≠ ['\''])
    (hshield : front = ['\'', '\\'] → blank = '\n') :
    charLength? (front ++ blank :: rest) = charLength? front := by
  have hquote : blank ≠ '\'' := by
    rintro rfl
    cases h
  rcases front with _ | ⟨a, _ | ⟨b, _ | ⟨c, _ | ⟨d, tail⟩⟩⟩⟩
  · simp [charLength?, hquote]
  · have ha : a ≠ '\'' := fun ha => hopen (congrArg (fun c => [c]) ha)
    simp [charLength?, ha]
  · by_cases ha : a = '\''
    · by_cases hb : b = '\\'
      · subst ha hb
        obtain rfl := hshield rfl
        cases rest with
        | nil => simp [charLength?]
        | cons c rest => by_cases hc : c = '\'' <;> simp [charLength?, hc]
      · simp [charLength?, ha, hb, hquote]
    · simp [charLength?, ha]
  · by_cases ha : a = '\'' <;> by_cases hb : b = '\\' <;> by_cases hc : c = '\'' <;>
      simp [charLength?, ha, hb, hc, hquote]
  · by_cases ha : a = '\'' <;> by_cases hb : b = '\\' <;> by_cases hc : c = '\'' <;>
      by_cases hd : d = '\'' <;> simp [charLength?, ha, hb, hc, hd]

theorem matchLength?_of_literals (h : Text.isBlank blank = true)
    (hstring : kind = .string → stringLength? (front ++ blank :: rest) = stringLength? front)
    (hchar : kind = .char → charLength? (front ++ blank :: rest) = charLength? front) :
    kind.matchLength? (front ++ blank :: rest) = kind.matchLength? front := by
  by_cases hletters : kind.letters = []
  · cases kind
    case name => exact nameLength?_blank h front rest
    case integer => exact integerLength?_blank h front rest
    case float => exact floatLength?_blank h front rest
    case string => exact hstring rfl
    case char => exact hchar rfl
    all_goals cases hletters
  · apply Option.ext
    intro n
    rw [Kind.matchLength?_eq_some hletters, Kind.matchLength?_eq_some hletters,
      letters_prefix_blank h]

theorem notMem_take_of_ends {c : Char} (hmatch : kind.matchLength? text = some n)
    (hends : ∀ {front rest}, text = front ++ c :: rest →
      kind.matchLength? text = kind.matchLength? front) : c ∉ text.take n := by
  intro hmem
  obtain ⟨front, others, hfront⟩ := List.append_of_mem hmem
  have htext : text = front ++ c :: (others ++ text.drop n) := by
    rw [← List.cons_append, ← List.append_assoc, ← hfront, List.take_append_drop]
  have hle := (length_of_matchLength? ((hends htext).symm.trans hmatch)).2
  have hwhole := (length_of_matchLength? hmatch).2
  have hlength := congrArg List.length hfront
  rw [List.length_take_of_le hwhole, List.length_append, List.length_cons] at hlength
  omega

theorem isBlank_of_matchLength? (hmatch : kind.matchLength? text = some n)
    (hstring : kind ≠ .string) (hchar : kind ≠ .char) :
    ∀ c ∈ text.take n, Text.isBlank c = false := by
  intro c hmem
  refine Bool.eq_false_iff.mpr fun hblank => notMem_take_of_ends hmatch (fun htext => ?_) hmem
  rw [htext]
  exact matchLength?_of_literals hblank (absurd · hstring) (absurd · hchar)

end Blanks

section Newlines

theorem closingLength?_newline (h : Closes '"' (front ++ '\n' :: rest)) :
    closingLength? (front ++ '\n' :: rest) = closingLength? front := by
  fun_induction closingLength? front with
  | case1 =>
      rcases h.cases_cons with ⟨hshield, -⟩ | ⟨-, hnewline, -⟩
      · cases hshield
      · exact absurd rfl hnewline
  | case2 => rfl
  | case3 others => rfl
  | case4 c others hc ih =>
      rcases h.cases_cons with ⟨-, d, tail, htail, hcloses⟩ | ⟨hshield, -⟩
      · obtain ⟨rfl, rfl⟩ := List.cons.inj htail
        rw [List.cons_append, List.cons_append, closingLength?, if_neg hc, ih hcloses]
      · exact absurd rfl hshield
  | case5 others _ hshield =>
      cases others with
      | nil => rfl
      | cons d others => exact absurd rfl (hshield d others rfl)
  | case6 c others hquote hshield hc ih =>
      rcases h.cases_cons with ⟨rfl, -⟩ | ⟨-, -, ⟨rfl, -⟩ | ⟨-, hcloses⟩⟩
      · exact absurd rfl hc
      · exact absurd rfl hquote
      · rw [List.cons_append, closingLength?, if_neg hc, ih hcloses]
        · exact hquote
        · exact fun d tail hd => absurd hd hc

theorem charLength?_newline (h : Faultless (front ++ '\n' :: rest)) :
    charLength? (front ++ '\n' :: rest) = charLength? front := by
  refine charLength?_blank rfl ?_ fun _ => rfl
  rintro rfl
  have hcloses : Closes '\'' ('\n' :: rest) := h.closes rfl
  rcases hcloses.cases_cons with ⟨hshield, -⟩ | ⟨-, hnewline, -⟩
  · cases hshield
  · exact absurd rfl hnewline

theorem stringLength?_newline (h : Faultless (front ++ '\n' :: rest)) :
    stringLength? (front ++ '\n' :: rest) = stringLength? front := by
  cases front with
  | nil => rfl
  | cons c front =>
      by_cases hquote : c = '"'
      · subst hquote
        have hcloses : Closes '"' (front ++ '\n' :: rest) := h.closes rfl
        simp only [List.cons_append, stringLength?, closingLength?_newline hcloses]
      · simp [stringLength?, hquote]

theorem matchLength?_newline (h : Faultless (front ++ '\n' :: rest)) (kind : Kind) :
    kind.matchLength? (front ++ '\n' :: rest) = kind.matchLength? front :=
  matchLength?_of_literals rfl (fun _ => stringLength?_newline h) fun _ => charLength?_newline h

theorem longest?_newline (h : Faultless (front ++ '\n' :: rest)) :
    longest? (front ++ '\n' :: rest) = longest? front := by
  simp only [longest?, matchLength?_newline h]

/-- A token of a text without a fault is on one line. -/
theorem newline_notMem_take (h : Faultless text) (hmatch : kind.matchLength? text = some n) :
    '\n' ∉ text.take n :=
  notMem_take_of_ends hmatch fun htext => by
    subst htext
    exact matchLength?_newline h kind

end Newlines

section Rests

theorem faultless_drop_closing (h : Closes '"' text) (hlength : closingLength? text = some n) :
    Faultless (text.drop n) := by
  fun_induction closingLength? text generalizing n with
  | case1 | case3 | case5 => cases hlength
  | case2 others =>
      obtain rfl := Option.some.inj hlength
      rcases h.cases_cons with ⟨hshield, -⟩ | ⟨-, -, ⟨-, hrest⟩ | ⟨hquote, -⟩⟩
      · cases hshield
      · exact hrest
      · exact absurd rfl hquote
  | case4 c others hc ih =>
      obtain ⟨inner, hinner, rfl⟩ := Option.map_eq_some_iff.mp hlength
      rcases h.cases_cons with ⟨-, d, tail, htail, hcloses⟩ | ⟨hshield, -⟩
      · obtain ⟨rfl, rfl⟩ := List.cons.inj htail
        exact ih hcloses hinner
      · exact absurd rfl hshield
  | case6 c others hquote hshield hc ih =>
      obtain ⟨inner, hinner, rfl⟩ := Option.map_eq_some_iff.mp hlength
      rcases h.cases_cons with ⟨rfl, -⟩ | ⟨-, -, ⟨rfl, -⟩ | ⟨-, hcloses⟩⟩
      · exact absurd rfl hc
      · exact absurd rfl hquote
      · exact ih hcloses hinner

theorem faultless_drop_char (h : Faultless text) (hlength : charLength? text = some n) :
    Faultless (text.drop n) := by
  rw [charLength?.eq_def] at hlength
  split at hlength
  · next c others =>
      obtain rfl := Option.some.inj (Option.ite_none_left_eq_some.mp hlength).2
      rcases (h.closes rfl).cases_cons with ⟨-, d, tail, htail, hcloses⟩ | ⟨hshield, -⟩
      · obtain ⟨rfl, rfl⟩ := List.cons.inj htail
        rcases hcloses.cases_cons with ⟨hshield, -⟩ | ⟨-, -, ⟨-, hrest⟩ | ⟨hquote, -⟩⟩
        · cases hshield
        · exact hrest
        · exact absurd rfl hquote
      · exact absurd rfl hshield
  · next c others _ =>
      obtain ⟨hplain, hn⟩ := Option.ite_none_left_eq_some.mp hlength
      obtain rfl := Option.some.inj hn
      obtain ⟨hquote, hshield⟩ := not_or.mp hplain
      rcases (h.closes rfl).cases_cons with ⟨rfl, -⟩ | ⟨-, -, ⟨rfl, -⟩ | ⟨-, hcloses⟩⟩
      · exact absurd rfl hshield
      · exact absurd rfl hquote
      · rcases hcloses.cases_cons with ⟨hshield, -⟩ | ⟨-, -, ⟨-, hrest⟩ | ⟨hquote, -⟩⟩
        · cases hshield
        · exact hrest
        · exact absurd rfl hquote
  · cases hlength

theorem faultless_drop (h : Faultless text) (hmatch : kind.matchLength? text = some n) :
    Faultless (text.drop n) := by
  by_cases hstring : kind = .string
  · subst hstring
    rw [Kind.matchLength?, stringLength?.eq_def] at hmatch
    split at hmatch
    · obtain ⟨inner, hinner, rfl⟩ := Option.map_eq_some_iff.mp hmatch
      rw [List.drop_succ_cons]
      exact faultless_drop_closing (h.closes rfl) hinner
    · cases hmatch
  · by_cases hchar : kind = .char
    · subst hchar
      exact faultless_drop_char h hmatch
    · exact h.drop (isQuote_of_matchLength? hmatch hstring hchar).2

end Rests

section Scans

variable {source : String} {place : Place} {skipped : Nat}

theorem scanFrom_blank {c : Char} (h : Text.isBlank c = true) (text : List Char) :
    scanFrom source place 0 (c :: text) = scanFrom source (place.afterBlank c) 0 text := by
  rw [scanFrom, if_pos h]

theorem scanFrom_none {c : Char} (h : Text.isBlank c = false)
    (hnone : longest? (c :: text) = none) :
    (scanFrom source place 0 (c :: text)).toOption = none := by
  rw [scanFrom, if_neg (Bool.eq_false_iff.mp h), hnone]
  rfl

theorem scanFrom_lexeme {c : Char} (h : Text.isBlank c = false)
    (hlongest : longest? (c :: text) = some (kind, n)) :
    (scanFrom source place 0 (c :: text)).toOption =
      (scanFrom source (place.afterLexeme ((c :: text).take n)) (n - 1) text).toOption.map
        (ofLexeme source place kind ((c :: text).take n) :: ·) := by
  rw [scanFrom, if_neg (Bool.eq_false_iff.mp h), hlongest]
  dsimp only
  cases scanFrom source (place.afterLexeme ((c :: text).take n)) (n - 1) text <;> rfl

theorem Place.line_afterBlank (place : Place) (c : Char) (text : List Char) :
    (place.afterBlank c).line + text.count '\n' = place.line + (c :: text).count '\n' := by
  rw [afterBlank]
  split
  · next hnewline =>
      rw [hnewline, List.count_cons_self]
      exact Nat.add_right_comm _ _ _
  · next hnewline => rw [List.count_cons_of_ne hnewline]

/-- A blank outside literals: no token of a text in front of it that satisfies `p` runs over the
blank or over the end of a line, and `p` passes to what is left of the text behind a blank or a
token. -/
structure Parts (blank : Char) (rest : List Char) (p : List Char → Prop) : Prop where
  isBlank : Text.isBlank blank = true
  longest : ∀ {front}, p front → longest? (front ++ blank :: rest) = longest? front
  tail : ∀ {c front}, p (c :: front) → Text.isBlank c = true → p front
  lexeme : ∀ {front kind n}, p front → Kind.matchLength? kind front = some n →
    '\n' ∉ front.take n ∧ p (front.drop n)

theorem parts_newline (rest : List Char) :
    Parts '\n' rest fun front => Faultless (front ++ '\n' :: rest) where
  isBlank := rfl
  longest := longest?_newline
  tail h hblank := h.drop (n := 1) (List.forall_mem_singleton.mpr (isQuote_of_isBlank hblank))
  lexeme h hmatch := by
    have hle := (length_of_matchLength? hmatch).2
    rw [← matchLength?_newline h] at hmatch
    have hnone := newline_notMem_take h hmatch
    have hbehind := faultless_drop h hmatch
    rw [List.take_append_of_le_length hle] at hnone
    rw [List.drop_append_of_le_length hle] at hbehind
    exact ⟨hnone, hbehind⟩

theorem Parts.exists_scanFrom {blank : Char} {p : List Char → Prop} (h : Parts blank rest p)
    (hskipped : skipped ≤ front.length) (hp : p (front.drop skipped)) :
    ∃ last : Place,
      last.line = place.line + (front.drop skipped).count '\n' ∧
      ((scanFrom source place skipped front).toOption ≠ none → p []) ∧
      (scanFrom source place skipped (front ++ blank :: rest)).toOption =
        (scanFrom source place skipped front).toOption.bind fun tokens =>
          (scanFrom source (last.afterBlank blank) 0 rest).toOption.map (tokens ++ ·) := by
  induction front generalizing place skipped with
  | nil =>
      obtain rfl := Nat.le_zero.mp hskipped
      refine ⟨place, rfl, fun _ => hp, ?_⟩
      rw [List.nil_append, scanFrom_blank h.isBlank]
      simp [scanFrom, Except.toOption]
  | cons c front ih =>
      cases skipped with
      | succ skipped => exact ih (Nat.le_of_succ_le_succ hskipped) hp
      | zero =>
          rw [List.drop_zero] at hp
          rw [List.drop_zero]
          by_cases hblank : Text.isBlank c = true
          · rw [List.cons_append, scanFrom_blank hblank, scanFrom_blank hblank,
              ← Place.line_afterBlank place c front]
            exact ih (Nat.zero_le _) (h.tail hp hblank)
          · rw [Bool.not_eq_true] at hblank
            have hlonger := h.longest hp
            cases hlongest : longest? (c :: front) with
            | none =>
                rw [hlongest, List.cons_append] at hlonger
                rw [List.cons_append, scanFrom_none hblank hlonger, scanFrom_none hblank hlongest]
                exact ⟨⟨0, _, 0⟩, rfl, fun hne => absurd rfl hne, rfl⟩
            | some found =>
                obtain ⟨kind, length⟩ := found
                have hmatch := matchLength?_of_longest? hlongest
                obtain ⟨hpos, hle⟩ := length_of_matchLength? hmatch
                obtain ⟨hnone, hbehind⟩ := h.lexeme hp hmatch
                obtain ⟨length, rfl⟩ := Nat.exists_eq_add_one.mpr hpos
                obtain ⟨last, hline, hrest, hscan⟩ :=
                  @ih (place.afterLexeme ((c :: front).take (length + 1))) length
                    (Nat.le_of_succ_le_succ hle) hbehind
                have htake : (c :: (front ++ blank :: rest)).take (length + 1) =
                    (c :: front).take (length + 1) := List.take_append_of_le_length hle
                have hcount : (front.drop length).count '\n' = (c :: front).count '\n' := by
                  rw [← List.take_append_drop (length + 1) (c :: front), List.count_append,
                    List.count_eq_zero.mpr hnone, Nat.zero_add, List.drop_succ_cons]
                rw [hlongest, List.cons_append] at hlonger
                refine ⟨last, hline.trans (congrArg (place.line + ·) hcount), ?_, ?_⟩
                · rw [scanFrom_lexeme hblank hlongest, ne_eq, Option.map_eq_none_iff]
                  exact hrest
                · rw [List.cons_append, scanFrom_lexeme hblank hlonger, htake,
                    scanFrom_lexeme hblank hlongest, Nat.add_sub_cancel, hscan, Option.map_bind,
                    Option.bind_map]
                  congr 1
                  funext tokens
                  exact Option.map_map _ _ _

/-- The tokens in front of a newline are those of the text in front of it, and behind it a line
begins. -/
theorem exists_scanFrom_newline (hskipped : skipped ≤ front.length)
    (h : Faultless ((front ++ '\n' :: rest).drop skipped)) :
    ∃ offset,
      ((scanFrom source place skipped front).toOption ≠ none → Faultless rest) ∧
      (scanFrom source place skipped (front ++ '\n' :: rest)).toOption =
        (scanFrom source place skipped front).toOption.bind fun tokens =>
          (scanFrom source ⟨offset, place.line + (front.drop skipped).count '\n' + 1, 0⟩ 0
            rest).toOption.map (tokens ++ ·) := by
  rw [List.drop_append_of_le_length hskipped] at h
  obtain ⟨last, hline, hrest, hscan⟩ :=
    @Parts.exists_scanFrom front rest source place skipped _ _ (parts_newline rest) hskipped h
  refine ⟨last.offset + 1, fun hne => (hrest hne).drop (n := 1) (by simp; rfl), ?_⟩
  rw [← hline]
  exact hscan

end Scans

end Token

end Viewlet
