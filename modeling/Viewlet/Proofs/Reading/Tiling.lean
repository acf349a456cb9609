import Viewlet.Proofs.Reading.Positions
import Viewlet.Proofs.Reading.WholeText

namespace Viewlet

namespace Text

theorem byteLength_of_isBlank {c : Char} (h : isBlank c = true) : byteLength [c] = 1 := by
  simp only [isBlank, Bool.or_eq_true, beq_iff_eq] at h
  rcases h with (((rfl | rfl) | rfl) | rfl) | rfl <;> rfl

theorem place_append (before added : List Char) :
    before.count '\n' < (before ++ added).count '\n' ∨
      before.count '\n' = (before ++ added).count '\n' ∧
        byteLength (lastLine before) ≤ byteLength (lastLine (before ++ added)) := by
  rw [List.count_append]
  by_cases h : '\n' ∈ added
  · exact .inl (Nat.lt_add_of_pos_right (List.count_pos_iff.mpr h))
  · rw [List.count_eq_zero.mpr h, lastLine_append h, byteLength_append]
    exact .inr ⟨rfl, Nat.le_add_right _ _⟩

end Text

namespace Span

/-- The first span ends before the second one begins. -/
def Precedes (first second : Span) : Prop :=
  first.line < second.line ∨ first.line = second.line ∧ first.endColumn ≤ second.startColumn

/-- The span goes over a column of a line. -/
def Covers (span : Span) (line column : Nat) : Prop :=
  span.line = line ∧ span.startColumn ≤ column ∧ column < span.endColumn

end Span

namespace Token

open Alphabet

/-- The span of a token says that it stands behind the given text. -/
structure StandsBehind (before : List Char) (token : Token) : Prop where
  line : token.span.line = before.count '\n'
  startColumn : token.span.startColumn = Text.byteLength (Text.lastLine before)
  endColumn : token.span.endColumn = token.span.startColumn + Text.byteLength token.text.toList
  oneLine : '\n' ∉ token.text.toList
  nonempty : token.text.toList ≠ []

/-- The rest of a text, behind the given part of it, is made of blanks and the given tokens. -/
inductive Tiles : (before rest : List Char) → List Token → Prop
  | nil {before : List Char} : Tiles before [] []
  | blank {before rest : List Char} {c : Char} {tokens : List Token} :
      Text.isBlank c = true → Tiles (before ++ [c]) rest tokens → Tiles before (c :: rest) tokens
  | token {before rest : List Char} {token : Token} {tokens : List Token} :
      token.StandsBehind before →
      token.kind.matchLength? (token.text.toList ++ rest) = some token.text.toList.length →
      Tiles (before ++ token.text.toList) rest tokens →
      Tiles before (token.text.toList ++ rest) (token :: tokens)

variable {before rest front behind : List Char} {tokens : List Token} {token later : Token}
  {source : String} {place : Place} {index : Nat} {c : Char}

/-- The place is the end of the given text. -/
structure Place.IsEndOf (before : List Char) (place : Place) : Prop where
  line : place.line = before.count '\n'
  column : place.column = Text.byteLength (Text.lastLine before)

theorem Place.IsEndOf.afterBlank (h : place.IsEndOf before) (hblank : Text.isBlank c = true) :
    (place.afterBlank c).IsEndOf (before ++ [c]) := by
  rw [Place.afterBlank]
  split
  · next hnewline =>
      subst hnewline
      refine ⟨?_, ?_⟩
      · rw [h.line, List.count_append]
        rfl
      · rw [Text.lastLine_concat]
        rfl
  · next hnewline =>
      refine ⟨?_, ?_⟩
      · rw [h.line, List.count_append, List.count_singleton, if_neg (by simpa using hnewline)]
        rfl
      · rw [h.column, Text.lastLine_concat, if_neg hnewline, Text.byteLength_append,
          Text.byteLength_of_isBlank hblank]

theorem Place.IsEndOf.afterLexeme (h : place.IsEndOf before) (hline : '\n' ∉ front) :
    (place.afterLexeme front).IsEndOf (before ++ front) := by
  refine ⟨?_, ?_⟩
  · rw [List.count_append, List.count_eq_zero.mpr hline, ← h.line]
    rfl
  · rw [Text.lastLine_append hline, Text.byteLength_append, ← h.column]
    rfl

/-- The tokens that a scan finds, where its place is the end of the text in front. -/
theorem tiles_of_scanFrom (hfault : Faultless rest) (hplace : place.IsEndOf before)
    (h : (scanFrom source place 0 rest).toOption = some tokens) : Tiles before rest tokens := by
  induction hlength : rest.length using Nat.strongRecOn
    generalizing before rest place tokens with
  | ind length ih =>
  subst hlength
  cases rest with
  | nil =>
      obtain rfl := Option.some.inj h
      exact .nil
  | cons c rest =>
      by_cases hblank : Text.isBlank c = true
      · rw [scanFrom_blank hblank] at h
        have htail : Faultless rest :=
          hfault.drop (n := 1) (List.forall_mem_singleton.mpr (isQuote_of_isBlank hblank))
        exact .blank hblank (ih _ (Nat.lt_succ_self _) htail (hplace.afterBlank hblank) h rfl)
      · cases hlongest : longest? (c :: rest) with
        | none =>
            rw [scanFrom_none (Bool.eq_false_iff.mpr hblank) hlongest] at h
            cases h
        | some found =>
            obtain ⟨kind, n⟩ := found
            have hmatch := matchLength?_of_longest? hlongest
            obtain ⟨hpos, hle⟩ := length_of_matchLength? hmatch
            have hline := newline_notMem_take hfault hmatch
            have hdrop : rest.drop (n - 1) = (c :: rest).drop n := by
              rw [List.drop_cons hpos]
            rw [scanFrom_lexeme (Bool.eq_false_iff.mpr hblank) hlongest, scanFrom_skipped,
              hdrop] at h
            obtain ⟨others, hothers, rfl⟩ := Option.map_eq_some_iff.mp h
            have hrest := ih _ (by simp; omega) (faultless_drop hfault hmatch)
              (hplace.afterLexeme hline) hothers rfl
            have htext : (ofLexeme source place kind ((c :: rest).take n)).text.toList =
                (c :: rest).take n := String.toList_ofList
            rw [← htext] at hrest hline
            have htiles := Tiles.token ⟨hplace.line, hplace.column, ?_, hline, ?_⟩ ?_ hrest
            · rwa [htext, List.take_append_drop] at htiles
            · rw [htext]
              rfl
            · simp [htext, Nat.ne_of_gt hpos]
            · rw [htext, List.take_append_drop, List.length_take_of_le hle]
              exact hmatch

namespace Tiles

theorem of_moved {move : Span → Span} {moved : List Token}
    (hmove : ∀ span : Span, (move span).line = span.line ∧
      (move span).startColumn = span.startColumn ∧ (move span).endColumn = span.endColumn)
    (h : Tiles before rest moved) (hmoved : moved = tokens.map (Token.moved move)) :
    Tiles before rest tokens := by
  induction h generalizing tokens with
  | nil =>
      obtain rfl := List.map_eq_nil_iff.mp hmoved.symm
      exact .nil
  | blank hblank _ ih => exact .blank hblank (ih hmoved)
  | token hstands hmatch _ ih =>
      obtain ⟨token, others, rfl, rfl, rfl⟩ := List.map_eq_cons_iff.mp hmoved.symm
      obtain ⟨hline, hstart, hend⟩ := hmove token.span
      refine @Tiles.token _ _ token _ ⟨?_, ?_, ?_, hstands.oneLine, hstands.nonempty⟩ hmatch
        (ih rfl)
      · exact hline.symm.trans hstands.line
      · exact hstart.symm.trans hstands.startColumn
      · exact hend.symm.trans (hstart ▸ hstands.endColumn)

/-- Every token stands behind a part of the text, and what holds between blanks and tokens from the
beginning on holds in front of it, as long as the tokens on the way are as they should be. -/
theorem exists_tile {good : Token → Prop} {holds : List Char → List Char → Prop}
    (hblank : ∀ {before c rest}, Text.isBlank c = true → holds before (c :: rest) →
      holds (before ++ [c]) rest)
    (htoken : ∀ {before rest} {token : Token}, good token →
      token.kind.matchLength? (token.text.toList ++ rest) = some token.text.toList.length →
      '\n' ∉ token.text.toList → holds before (token.text.toList ++ rest) →
      holds (before ++ token.text.toList) rest)
    (h : Tiles before rest tokens) (hindex : tokens[index]? = some token) :
    ∃ between behind, rest = between ++ (token.text.toList ++ behind) ∧
      token.StandsBehind (before ++ between) ∧
      token.kind.matchLength? (token.text.toList ++ behind) = some token.text.toList.length ∧
      ((∀ other ∈ tokens.take index, good other) → holds before rest →
        holds (before ++ between) (token.text.toList ++ behind)) := by
  induction h generalizing index with
  | nil => cases hindex
  | @blank before rest c tokens hc _ ih =>
      obtain ⟨between, behind, rfl, hstands, hmatch, hholds⟩ := ih hindex
      rw [List.append_assoc] at hstands hholds
      exact ⟨c :: between, behind, rfl, hstands, hmatch,
        fun hgood hstart => hholds hgood (hblank hc hstart)⟩
  | @token before rest first tokens hfirst hmatch _ ih =>
      cases index with
      | zero =>
          obtain rfl := Option.some.inj hindex
          refine ⟨[], rest, rfl, ?_, hmatch, fun _ hstart => ?_⟩
          · rwa [List.append_nil]
          · rwa [List.append_nil]
      | succ index =>
          obtain ⟨between, behind, rfl, hstands, hbehind, hholds⟩ := ih hindex
          rw [List.append_assoc] at hstands hholds
          refine ⟨first.text.toList ++ between, behind, by simp, hstands, hbehind, ?_⟩
          intro hgood hstart
          obtain ⟨hfirstGood, hgood⟩ := List.forall_mem_cons.mp hgood
          exact hholds hgood (htoken hfirstGood hmatch hfirst.oneLine hstart)

theorem exists_standsBehind (h : Tiles before rest tokens) (hmem : token ∈ tokens) :
    ∃ between, token.StandsBehind (before ++ between) := by
  obtain ⟨index, hindex⟩ := List.mem_iff_getElem?.mp hmem
  obtain ⟨between, -, -, hstands, -⟩ :=
    @exists_tile _ _ _ _ _ (fun _ => True) (fun _ _ => True) (fun _ _ => trivial)
      (fun _ _ _ _ => trivial) h hindex
  exact ⟨between, hstands⟩

theorem startColumn_lt (h : Tiles before rest tokens) (hmem : token ∈ tokens) :
    token.span.startColumn < token.span.endColumn := by
  obtain ⟨between, hstands⟩ := h.exists_standsBehind hmem
  rw [hstands.endColumn]
  exact Nat.lt_add_of_pos_right (byteLength_pos hstands.nonempty)

theorem pairwise_precedes (h : Tiles before rest tokens) :
    tokens.Pairwise fun earlier later => earlier.span.Precedes later.span := by
  induction h with
  | nil => exact .nil
  | blank _ _ ih => exact ih
  | @token before rest token tokens hstands _ hothers ih =>
      refine .cons (fun later hmem => ?_) ih
      obtain ⟨between, hlater⟩ := hothers.exists_standsBehind hmem
      have hplace := Text.place_append (before ++ token.text.toList) between
      rw [← hlater.line, ← hlater.startColumn, List.count_append,
        List.count_eq_zero.mpr hstands.oneLine, Text.lastLine_append hstands.oneLine,
        Text.byteLength_append, ← hstands.line, ← hstands.startColumn,
        ← hstands.endColumn] at hplace
      exact hplace

theorem isBlank_or_covers (h : Tiles before rest tokens) (hrest : rest = front ++ c :: behind) :
    Text.isBlank c = true ∨ ∃ token ∈ tokens, token.span.Covers ((before ++ front).count '\n')
      (Text.byteLength (Text.lastLine (before ++ front))) := by
  induction h generalizing front with
  | nil => simp at hrest
  | @blank before rest d tokens hd _ ih =>
      cases front with
      | nil =>
          obtain ⟨rfl, -⟩ := List.cons.inj hrest
          exact .inl hd
      | cons d' front =>
          obtain ⟨rfl, hbehind⟩ := List.cons.inj hrest
          simpa using ih hbehind
  | @token before rest token tokens hstands _ _ ih =>
      -- The character stands behind the token or is a part of it.
      have hlater (between : List Char) (hfront : front = token.text.toList ++ between)
          (hbehind : rest = between ++ c :: behind) :
          Text.isBlank c = true ∨ ∃ other ∈ token :: tokens,
            other.span.Covers ((before ++ front).count '\n')
              (Text.byteLength (Text.lastLine (before ++ front))) := by
        rcases ih hbehind with hblank | ⟨other, hmem, hcovers⟩
        · exact .inl hblank
        · rw [List.append_assoc, ← hfront] at hcovers
          exact .inr ⟨other, List.mem_cons_of_mem _ hmem, hcovers⟩
      rcases List.append_eq_append_iff.mp hrest with
        ⟨between, hfront, hbehind⟩ | ⟨part, htext, hpart⟩
      · exact hlater between hfront hbehind
      · cases part with
        | nil => exact hlater [] (by simp [htext]) hpart.symm
        | cons d part =>
            obtain ⟨rfl, -⟩ := List.cons.inj hpart
            have hline := hstands.oneLine
            rw [htext, List.mem_append, not_or] at hline
            refine .inr ⟨token, List.mem_cons_self, ?_⟩
            rw [List.count_append, List.count_eq_zero.mpr hline.1, Text.lastLine_append hline.1,
              Text.byteLength_append, ← hstands.startColumn]
            have hpos : 0 < Text.byteLength (c :: part) := byteLength_pos (List.cons_ne_nil _ _)
            have hend := hstands.endColumn
            rw [htext, Text.byteLength_append] at hend
            exact ⟨hstands.line, Nat.le_add_right _ _, by omega⟩

end Tiles

end Token

end Viewlet
