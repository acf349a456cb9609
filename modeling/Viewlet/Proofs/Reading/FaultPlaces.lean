import Viewlet.Proofs.Reading.Positions

namespace Viewlet

namespace Alphabet

/-- A point of the check: the context behind a character, and the line and column counted for the
character. -/
structure Point where
  context : Context
  line : Nat
  column : Nat

/-- Whether the next character stands behind a backslash in a literal. -/
def Context.isEscaped : Context → Bool
  | .code | .literal .. => false
  | .escaped .. => true

/-- The opening quote of a literal, with the line and column counted for it. -/
def Context.opening? : Context → Option (Char × Nat × Nat)
  | .code => none
  | .literal quote startLine startColumn | .escaped quote startLine startColumn =>
      some (quote, startLine, startColumn)

namespace Point

/-- The point in front of a text. -/
def origin : Point :=
  ⟨.code, 1, 0⟩

/-- Steps over a character, unless it is a fault. -/
def next? (point : Point) (c : Char) : Option Point :=
  match point.context with
  | .code =>
      if c = '\n' then some ⟨.code, point.line + 1, 0⟩
      else if admits c then some ⟨.code, point.line, point.column + 1⟩
      else if c = '"' ∨ c = '\'' then
        some ⟨.literal c point.line (point.column + 1), point.line, point.column + 1⟩
      else none
  | .literal quote startLine startColumn =>
      if c = '\\' then some ⟨.escaped quote startLine startColumn, point.line, point.column + 1⟩
      else if c = '\n' then none
      else if c = quote then some ⟨.code, point.line, point.column + 1⟩
      else some ⟨.literal quote startLine startColumn, point.line, point.column + 1⟩
  | .escaped quote startLine startColumn =>
      some ⟨.literal quote startLine startColumn, point.line, point.column + 1⟩

/-- The first fault of a text behind the point. -/
def fault? (point : Point) (text : List Char) : Option LexError :=
  faultFrom? point.context point.line point.column text

/-- Where the check ends with a fault: at a character that begins no token, or in a literal. -/
inductive Stops (point : Point) : List Char → LexError → Prop where
  | unexpected {c rest} : point.context = .code → c ≠ '\n' → admits c = false →
      ¬(c = '"' ∨ c = '\'') →
      Stops point (c :: rest) (.unexpectedCharacter c point.line (point.column + 1))
  | unterminated {quote startLine startColumn rest} :
      point.context.opening? = some (quote, startLine, startColumn) →
      Stops point rest (.unterminated quote startLine startColumn)

variable {point next stop : Point} {c : Char} {text rest front : List Char} {error : LexError}

theorem cases_fault? (h : point.fault? (c :: rest) = some error) :
    point.Stops (c :: rest) error ∨
      ∃ next, point.next? c = some next ∧ next.fault? rest = some error := by
  obtain ⟨context, line, column⟩ := point
  cases context with
  | code =>
      simp only [fault?, faultFrom?] at h
      simp only [next?]
      split_ifs at h ⊢ with hnewline hadmits hquote
      · exact .inr ⟨_, rfl, h⟩
      · exact .inr ⟨_, rfl, h⟩
      · exact .inr ⟨_, rfl, h⟩
      · obtain rfl := Option.some.inj h
        exact .inl (.unexpected rfl hnewline (Bool.eq_false_iff.mpr hadmits) hquote)
  | literal quote startLine startColumn =>
      simp only [fault?, faultFrom?] at h
      simp only [next?]
      split_ifs at h ⊢
      · exact .inr ⟨_, rfl, h⟩
      · obtain rfl := Option.some.inj h
        exact .inl (.unterminated rfl)
      · exact .inr ⟨_, rfl, h⟩
      · exact .inr ⟨_, rfl, h⟩
  | escaped quote startLine startColumn => exact .inr ⟨_, rfl, h⟩

theorem place_next? (h : point.next? c = some next) :
    c = '\n' ∧ point.context.isEscaped = false ∧ next.line = point.line + 1 ∧ next.column = 0 ∨
      (c = '\n' → point.context.isEscaped = true) ∧ next.line = point.line ∧
        next.column = point.column + 1 := by
  obtain ⟨context, line, column⟩ := point
  cases context with
  | code =>
      simp only [next?] at h
      split_ifs at h with hnewline hadmits hquote <;> obtain rfl := Option.some.inj h
      · exact .inl ⟨hnewline, rfl, rfl, rfl⟩
      · exact .inr ⟨fun hc => absurd hc hnewline, rfl, rfl⟩
      · exact .inr ⟨fun hc => absurd hc hnewline, rfl, rfl⟩
  | literal quote startLine startColumn =>
      simp only [next?] at h
      split_ifs at h with hshield hnewline hend <;> obtain rfl := Option.some.inj h
      · refine .inr ⟨fun hc => ?_, rfl, rfl⟩
        rw [hshield] at hc
        cases hc
      · exact .inr ⟨fun hc => absurd hc hnewline, rfl, rfl⟩
      · exact .inr ⟨fun hc => absurd hc hnewline, rfl, rfl⟩
  | escaped quote startLine startColumn =>
      obtain rfl := Option.some.inj h
      exact .inr ⟨fun _ => rfl, rfl, rfl⟩

theorem opening_next? {opening : Char × Nat × Nat} (h : point.next? c = some next)
    (hopen : next.context.opening? = some opening) :
    point.context.opening? = some opening ∨
      point.context = .code ∧ (c = '"' ∨ c = '\'') ∧
        opening = (c, point.line, point.column + 1) := by
  obtain ⟨context, line, column⟩ := point
  cases context with
  | code =>
      simp only [next?] at h
      split_ifs at h with hnewline hadmits hquote <;> obtain rfl := Option.some.inj h
      · cases hopen
      · cases hopen
      · exact .inr ⟨rfl, hquote, (Option.some.inj hopen).symm⟩
  | literal quote startLine startColumn =>
      simp only [next?] at h
      split_ifs at h <;> obtain rfl := Option.some.inj h
      · exact .inl hopen
      · cases hopen
      · exact .inl hopen
  | escaped quote startLine startColumn =>
      obtain rfl := Option.some.inj h
      exact .inl hopen

theorem exists_stop (h : point.fault? text = some error) :
    ∃ front rest stop, text = front ++ rest ∧ front.foldlM next? point = some stop ∧
      stop.Stops rest error := by
  induction text generalizing point with
  | nil =>
      obtain ⟨context, line, column⟩ := point
      refine ⟨[], [], _, rfl, rfl, ?_⟩
      cases context with
      | code => cases h
      | literal quote startLine startColumn =>
          obtain rfl := Option.some.inj h
          exact .unterminated rfl
      | escaped quote startLine startColumn =>
          obtain rfl := Option.some.inj h
          exact .unterminated rfl
  | cons c text ih =>
      rcases cases_fault? h with hstop | ⟨next, hnext, hrest⟩
      · exact ⟨[], c :: text, point, rfl, rfl, hstop⟩
      · obtain ⟨front, rest, stop, rfl, hfront, hstop⟩ := ih hrest
        refine ⟨c :: front, rest, stop, rfl, ?_, hstop⟩
        rw [List.foldlM_cons, hnext]
        exact hfront

end Point

/-- The point behind a text, if it has no fault. -/
def pointAfter? (front : List Char) : Option Point :=
  front.foldlM Point.next? Point.origin

variable {front : List Char} {point : Point} {c : Char}

theorem pointAfter?_concat (front : List Char) (c : Char) :
    pointAfter? (front ++ [c]) = (pointAfter? front).bind fun point => point.next? c := by
  rw [pointAfter?, List.foldlM_append]
  simp [pointAfter?]

/-- A newline stands behind a backslash in a literal. -/
def Shields (front : List Char) : Prop :=
  ∃ before behind point, front = before ++ '\n' :: behind ∧ pointAfter? before = some point ∧
    point.context.isEscaped = true

theorem not_shields_nil : ¬Shields [] := by
  rintro ⟨before, behind, -, hnil, -⟩
  exact List.append_ne_nil_of_right_ne_nil before (List.cons_ne_nil _ behind) hnil.symm

theorem shields_concat (h : pointAfter? front = some point) :
    Shields (front ++ [c]) ↔ Shields front ∨ c = '\n' ∧ point.context.isEscaped = true := by
  constructor
  · rintro ⟨before, behind, shielding, hfront, hpoint, hescaped⟩
    rcases List.eq_nil_or_concat behind with rfl | ⟨behind, d, rfl⟩
    · obtain ⟨rfl, hc⟩ := List.append_inj' hfront rfl
      obtain rfl := Option.some.inj (h.symm.trans hpoint)
      exact .inr ⟨(List.cons.inj hc).1, hescaped⟩
    · rw [List.concat_eq_append, ← List.cons_append, ← List.append_assoc] at hfront
      obtain ⟨rfl, -⟩ := List.append_inj' hfront rfl
      exact .inl ⟨before, behind, shielding, rfl, hpoint, hescaped⟩
  · rintro (⟨before, behind, shielding, rfl, hpoint, hescaped⟩ | ⟨rfl, hescaped⟩)
    · exact ⟨before, behind ++ [c], shielding, by simp, hpoint, hescaped⟩
    · exact ⟨front, [], point, rfl, h, hescaped⟩

/-- As long as no newline is shielded, the line and column that are counted are those of the last
character. From the first shielded newline on, the line is less than the number of lines. -/
theorem place_pointAfter? (h : pointAfter? front = some point) :
    (¬Shields front → point.line = front.count '\n' + 1 ∧
      point.column = (Text.lastLine front).length) ∧
    (Shields front → point.line ≤ front.count '\n') := by
  induction front using List.reverseRecOn generalizing point with
  | nil =>
      obtain rfl := Option.some.inj h
      exact ⟨fun _ => ⟨rfl, rfl⟩, fun hshields => absurd hshields not_shields_nil⟩
  | append_singleton front c ih =>
      rw [pointAfter?_concat] at h
      obtain ⟨last, hlast, hnext⟩ := Option.bind_eq_some_iff.mp h
      obtain ⟨hright, hwrong⟩ := ih hlast
      rw [shields_concat hlast, Text.lastLine_concat, List.count_append]
      rcases Point.place_next? hnext with
        ⟨rfl, hescaped, hline, hcolumn⟩ | ⟨hescaped, hline, hcolumn⟩
      · simp only [hescaped, Bool.false_eq_true, and_false, or_false, hline, hcolumn]
        exact ⟨fun h => ⟨congrArg (· + 1) (hright h).1, rfl⟩, fun h => Nat.succ_le_succ (hwrong h)⟩
      · by_cases hc : c = '\n'
        · -- The line stays behind the number of newlines from here on.
          have hbehind : last.line ≤ front.count '\n' + 1 := by
            by_cases hshields : Shields front
            · exact Nat.le_succ_of_le (hwrong hshields)
            · exact Nat.le_of_eq (hright hshields).1
          subst hc
          rw [hline]
          exact ⟨fun h => absurd (.inr ⟨rfl, hescaped rfl⟩) h, fun _ => hbehind⟩
        · have hcount : [c].count '\n' = 0 := List.count_eq_zero.mpr (by simpa using Ne.symm hc)
          rw [if_neg hc, or_iff_left (fun h => hc h.1), hcount, hline, hcolumn, List.length_append]
          exact ⟨fun h => ⟨(hright h).1, congrArg (· + 1) (hright h).2⟩, hwrong⟩

theorem exists_opening {quote : Char} {line column : Nat} (h : pointAfter? front = some point)
    (hopen : point.context.opening? = some (quote, line, column)) :
    ∃ before inner start, front = before ++ quote :: inner ∧ pointAfter? before = some start ∧
      start.context = .code ∧ (quote = '"' ∨ quote = '\'') ∧ line = start.line ∧
      column = start.column + 1 := by
  induction front using List.reverseRecOn generalizing point with
  | nil =>
      obtain rfl := Option.some.inj h
      cases hopen
  | append_singleton front c ih =>
      rw [pointAfter?_concat] at h
      obtain ⟨last, hlast, hnext⟩ := Option.bind_eq_some_iff.mp h
      rcases Point.opening_next? hnext hopen with hopen | ⟨hcode, hquote, hopening⟩
      · obtain ⟨before, inner, start, rfl, hstart⟩ := ih hlast hopen
        exact ⟨before, inner ++ [c], start, by simp, hstart⟩
      · obtain ⟨rfl, hplace⟩ := Prod.mk.inj hopening
        obtain ⟨hline, hcolumn⟩ := Prod.mk.inj hplace
        exact ⟨front, [], last, rfl, hlast, hcode, hquote, hline, hcolumn⟩

end Alphabet

/-- The character that an error is about, with the line and column reported for it. -/
def LexError.site? : LexError → Option (Char × Nat × Nat)
  | .unexpectedCharacter c line column | .unterminated c line column => some (c, line, column)
  | .noToken _ => none

/-- A fault is reported with the place counted for a character outside literals: the one that begins
no token, or the opening quote. -/
theorem Alphabet.exists_site {text : List Char} {error : LexError} (h : fault? text = some error) :
    ∃ front c rest point, text = front ++ c :: rest ∧ pointAfter? front = some point ∧
      point.context = .code ∧ error.site? = some (c, point.line, point.column + 1) ∧
      admits c = false ∧
      (error = .unterminated c point.line (point.column + 1) ↔ c = '"' ∨ c = '\'') := by
  have hfault : Point.origin.fault? text = some error := h
  obtain ⟨front, rest, stop, rfl, hstop, hstops⟩ := Point.exists_stop hfault
  cases hstops with
  | @unexpected c rest hcode _ hadmits hquote =>
      refine ⟨front, c, rest, stop, rfl, hstop, hcode, rfl, hadmits, iff_of_false ?_ hquote⟩
      exact LexError.noConfusion
  | @unterminated quote _ _ rest hopen =>
      obtain ⟨before, inner, start, rfl, hstart, hcode, hquote, rfl, rfl⟩ :=
        exists_opening hstop hopen
      refine ⟨before, quote, inner ++ rest, start, by simp, hstart, hcode, rfl, ?_,
        iff_of_true rfl hquote⟩
      rcases hquote with rfl | rfl <;> decide

namespace TokenStream

variable {source : String} {error : LexError} {c : Char} {line column : Nat}

theorem site?_of_scanBlocks {blocks : List Layout.Block} (h : scanBlocks blocks = .error error) :
    error.site? = none := by
  induction blocks with
  | nil => cases h
  | cons block blocks ih =>
      rw [scanBlocks] at h
      split at h
      · obtain rfl := Except.error.inj h
        rfl
      · split at h
        · next hothers => exact ih (hothers.trans h)
        · cases h

theorem fault?_of_site (h : ofSource source = .error error)
    (hsite : error.site? = some (c, line, column)) :
    Alphabet.fault? (Comment.blankFrom .code source.toList) = some error := by
  rw [ofSource] at h
  split at h
  · next hfault => exact hfault.trans (congrArg some (Except.error.inj h))
  · cases hruns : scanBlocks (Layout.blocks (Comment.blankFrom .code source.toList)) with
    | error failure =>
        rw [hruns] at h
        obtain rfl := Except.error.inj h
        rw [site?_of_scanBlocks hruns] at hsite
        cases hsite
    | ok runs =>
        rw [hruns] at h
        cases h

theorem exists_source_of_blankFrom {checked behind : List Char}
    (h : Comment.blankFrom .code source.toList = checked ++ c :: behind)
    (hadmits : Alphabet.admits c = false) :
    ∃ front rest, source.toList = front ++ c :: rest ∧
      List.Forall₂ Comment.Blanks front checked := by
  have hblanks := Comment.forall₂_blankFrom .code source.toList
  rw [h] at hblanks
  obtain ⟨front, after, hsource, hfront, hafter⟩ := Comment.exists_append_of_blanks hblanks
  obtain ⟨d, rest, hd, -, rfl⟩ := List.forall₂_cons_right_iff.mp hafter
  rcases hd with rfl | ⟨rfl, -⟩
  · exact ⟨front, rest, hsource, hfront⟩
  · cases hadmits

/-- A fault is reported with the place of a character of the source that stands outside literals,
unless a newline in front of it is shielded by a backslash in a literal. The character begins no
token, or it opens a literal of the kind that is reported. -/
theorem ofSource_fault_place (h : ofSource source = .error error)
    (hsite : error.site? = some (c, line, column)) :
    ∃ front rest point, source.toList = front ++ c :: rest ∧
      let checked := (Comment.blankFrom .code source.toList).take front.length
      Alphabet.pointAfter? checked = some point ∧ point.context = .code ∧
      Alphabet.admits c = false ∧ (error = .unterminated c line column ↔ c = '"' ∨ c = '\'') ∧
      (line = front.count '\n' + 1 ∧ column = (Text.lastLine front).length + 1 ↔
        ¬Alphabet.Shields checked) ∧
      (¬Alphabet.Shields checked → Text.charAt? source.toList line column = some c) := by
  obtain ⟨checked, c', behind, point, htext, hpoint, hcode, hcounted, hadmits, hkind⟩ :=
    Alphabet.exists_site (fault?_of_site h hsite)
  obtain ⟨rfl, hplace⟩ := Prod.mk.inj (Option.some.inj (hsite.symm.trans hcounted))
  obtain ⟨rfl, rfl⟩ := Prod.mk.inj hplace
  obtain ⟨front, rest, hsource, hblanks⟩ := exists_source_of_blankFrom htext hadmits
  have hchecked : (Comment.blankFrom .code source.toList).take front.length = checked := by
    rw [htext, hblanks.length_eq, List.take_left]
  obtain ⟨hright, hwrong⟩ := Alphabet.place_pointAfter? hpoint
  rw [Comment.count_newline hblanks, ← (Comment.forall₂_lastLine hblanks).length_eq] at hright
  rw [Comment.count_newline hblanks] at hwrong
  refine ⟨front, rest, point, hsource, ?_⟩
  rw [hchecked]
  refine ⟨hpoint, hcode, hadmits, hkind, ⟨fun hplace hshields => ?_, fun hshields => ?_⟩,
    fun hshields => ?_⟩
  · have hbehind := hwrong hshields
    omega
  · obtain ⟨hline, hcolumn⟩ := hright hshields
    exact ⟨hline, congrArg (· + 1) hcolumn⟩
  · obtain ⟨hline, hcolumn⟩ := hright hshields
    have hnewline : c ≠ '\n' := by
      rintro rfl
      cases hadmits
    rw [hsource, hline, hcolumn]
    exact Text.charAt?_append hnewline front rest

/-- A string with a shielded quote and a comment do not shift the place of a fault behind them. -/
theorem ofSource_fault_place_comment :
    ofSource "s = \"\\\"\" \x7b- @ -\x7d\n  t = #" = .error (.unexpectedCharacter '#' 2 7) ∧
      Text.charAt? "s = \"\\\"\" \x7b- @ -\x7d\n  t = #".toList 2 7 = some '#' := by
  let source := "s = \"\\\"\" \x7b- @ -\x7d\n  t = #"
  have hclosed : ofSource source = .error (.unexpectedCharacter '#' 2 7) ∧
      source.toList.count '#' = 1 ∧
      2 = (source.toList.takeWhile (· ≠ '#')).count '\n' + 1 ∧
      7 = (Text.lastLine (source.toList.takeWhile (· ≠ '#'))).length + 1 := by
    decide +kernel
  obtain ⟨herror, hunique, hcounted⟩ := hclosed
  obtain ⟨front, rest, -, hsource, -, -, -, -, hplace, hchar⟩ := ofSource_fault_place herror rfl
  have hfront : '#' ∉ front := by
    rw [hsource, List.count_append, List.count_cons_self] at hunique
    exact List.count_eq_zero.mp (by omega)
  have htake : source.toList.takeWhile (· ≠ '#') = front := by
    rw [hsource, List.takeWhile_append_of_pos, List.takeWhile_cons_of_neg, List.append_nil]
    · simp
    · intro c hc
      simpa using ne_of_mem_of_not_mem hc hfront
  rw [htake] at hcounted
  exact ⟨herror, hchar (hplace.mp hcounted)⟩

/-- A newline behind a backslash in a string is not counted as a line. -/
theorem ofSource_fault_place_shielded :
    ofSource "\"\\\n\"@" = .error (.unexpectedCharacter '@' 1 5) ∧
      Text.charAt? "\"\\\n\"@".toList 1 5 = none ∧
      Text.charAt? "\"\\\n\"@".toList 2 2 = some '@' := by
  decide +kernel

end TokenStream

end Viewlet
