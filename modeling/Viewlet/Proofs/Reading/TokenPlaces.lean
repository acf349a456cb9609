import Viewlet.Proofs.Reading.LineComments
import Viewlet.Proofs.Reading.Tiling

/-!
Tokens in their source. Tokens are cut from the text without comments, and spans count its bytes.
Blanking puts a space of one byte in the place of every character of a comment, so a token stands
where its span says if the comments in front of it on its line have characters of one byte only.
Nothing of a token is blanked, unless a character literal in front of it holds the quote of strings.
-/

namespace Viewlet

namespace Text

variable {before inside : List Char}

/-- The characters between two columns of a line. -/
def stretch (startColumn endColumn : Nat) (line : List Char) : List Char :=
  (splitBytes (endColumn - startColumn) (splitBytes startColumn line).2).1

theorem splitBytes_append (before after : List Char) :
    splitBytes (byteLength before) (before ++ after) = (before, after) := by
  induction before with
  | nil =>
      cases after with
      | nil => rfl
      | cons c after => exact if_neg (Nat.not_le_of_gt c.utf8Size_pos)
  | cons c before ih =>
      rw [byteLength, List.cons_append, splitBytes, if_pos (Nat.le_add_right _ _),
        Nat.add_sub_cancel_left, ih]

theorem stretch_append (before inside after : List Char) :
    stretch (byteLength before) (byteLength before + byteLength inside)
      (before ++ inside ++ after) = inside := by
  rw [stretch, List.append_assoc, splitBytes_append, Nat.add_sub_cancel_left, splitBytes_append]

end Text

namespace Comment

variable {text blanked rest front : List Char} {context : Context} {c d : Char} {n i : Nat}

theorem byteLength_blanked (h : List.Forall₂ Blanks text blanked) :
    Text.byteLength blanked ≤ Text.byteLength text ∧
      (Text.byteLength text = Text.byteLength blanked ↔
        List.Forall₂ (fun c d => c ≠ d → c.utf8Size = 1) text blanked) := by
  induction h with
  | nil => simp [Text.byteLength]
  | @cons c d text blanked hc _ ih =>
      obtain ⟨hle, hsame⟩ := ih
      have hpos := c.utf8Size_pos
      rw [List.forall₂_cons, ← hsame, Text.byteLength, Text.byteLength]
      rcases hc with rfl | ⟨rfl, -⟩
      · simp [hle]
      · have hspace : ' '.utf8Size = 1 := rfl
        by_cases hc : c = ' '
        · simp [hc, hle]
        · simp only [hspace, ne_eq, hc, not_false_eq_true, true_imp_iff]
          omega

/-- One of the characters beside the given one is a blank. -/
def BesideBlank (text : List Char) (i : Nat) : Prop :=
  ∃ j b, (j = i + 1 ∨ i = j + 1) ∧ text[j]? = some b ∧ Text.isBlank b = true

theorem BesideBlank.append (h : BesideBlank text i) (before : List Char) :
    BesideBlank (before ++ text) (before.length + i) := by
  obtain ⟨j, b, hj, hb, hblank⟩ := h
  refine ⟨before.length + j, b, by omega, ?_, hblank⟩
  rw [List.getElem?_append_right (Nat.le_add_right _ _), Nat.add_sub_cancel_left, hb]

theorem BesideBlank.append_right (h : BesideBlank text i) (rest : List Char) :
    BesideBlank (text ++ rest) i := by
  obtain ⟨j, b, hj, hb, hblank⟩ := h
  obtain ⟨hlt, -⟩ := List.getElem?_eq_some_iff.mp hb
  exact ⟨j, b, hj, (List.getElem?_append_left hlt).trans hb, hblank⟩

theorem BesideBlank.of_append {before : List Char}
    (h : BesideBlank (before ++ text) (before.length + i)) (hi : i ≠ 0) : BesideBlank text i := by
  obtain ⟨j, b, hj, hb, hblank⟩ := h
  rw [List.getElem?_append_right (by omega)] at hb
  exact ⟨j - before.length, b, by omega, hb, hblank⟩

theorem not_besideBlank_succ (hc : text[i]? = some c) (hd : text[i + 2]? = some d)
    (hcBlank : Text.isBlank c = false) (hdBlank : Text.isBlank d = false) :
    ¬BesideBlank text (i + 1) := by
  rintro ⟨j, b, rfl | hj, hb, hblank⟩
  · obtain rfl := Option.some.inj (hd.symm.trans hb)
    rw [hdBlank] at hblank
    cases hblank
  · obtain rfl := Nat.succ.inj hj
    obtain rfl := Option.some.inj (hc.symm.trans hb)
    rw [hcBlank] at hblank
    cases hblank

section Turns

variable {context' : Context} {part blanks : List Char}

theorem Turn.changes (h : Turn context part blanks context') (hc : part[i]? = some c)
    (hd : blanks[i]? = some d) (hne : c ≠ d) :
    context.blanked = .code ∧ (i = 0 ∧ context.isComment = true ∨ BesideBlank blanks i) := by
  cases h with
  | kept => exact absurd (Option.some.inj (hc.symm.trans hd)) hne
  | shield => exact absurd (Option.some.inj (hc.symm.trans hd)) hne
  | blanked hcomment =>
      rcases i with _ | i
      · exact ⟨Context.blanked_eq_code hcomment, .inl ⟨rfl, hcomment⟩⟩
      · cases hc
  | mark hfirst hsecond hcode =>
      rcases i with _ | _ | i
      · exact ⟨hcode, .inr ⟨1, ' ', .inl rfl, rfl, rfl⟩⟩
      · exact ⟨hcode, .inr ⟨0, ' ', .inr rfl, rfl, rfl⟩⟩
      · cases hc

theorem Turn.exists_blank (h : Turn context part blanks context')
    (hcomment : context'.isComment = true) :
    ∃ front b, blanks = front ++ [b] ∧ Text.isBlank b = true := by
  cases h with
  | kept _ hkept =>
      rw [hcomment] at hkept
      cases hkept
  | shield => cases hcomment
  | blanked => exact ⟨[], _, rfl, by split <;> rfl⟩
  | mark => exact ⟨[' '], ' ', rfl, rfl⟩

theorem Turn.besideBlank (h : Turn context part blanks context')
    (hcomment : context'.isComment = true) (rest : List Char) :
    BesideBlank (blanks ++ rest) (blanks.length + 0) := by
  obtain ⟨front, b, rfl, hblank⟩ := h.exists_blank hcomment
  refine ⟨front.length, b, .inr (List.length_append ..), ?_, hblank⟩
  rw [List.append_assoc, List.getElem?_append_right (Nat.le_refl _), Nat.sub_self]
  rfl

/-- A character that blanking changes belongs to a comment. So no string is open in front of it, and
it has a blank beside it, since a comment is longer than one character. -/
theorem blankFrom_changes (hc : text[i]? = some c) (hd : (blankFrom context text)[i]? = some d)
    (hne : c ≠ d) :
    contextAfter context.blanked ((blankFrom context text).take i) = .code ∧
      (i = 0 ∧ context.isComment = true ∨ BesideBlank (blankFrom context text) i) := by
  induction context, text using step_induction generalizing i with
  | nil context => cases hc
  | @step context part blanks context' rest hstep ih =>
      have hlength := hstep.turn.length_eq
      rw [hstep.blank] at hd ⊢
      by_cases hi : i < part.length
      · -- the character is one of the turn itself
        rw [List.getElem?_append_left hi] at hc
        rw [List.getElem?_append_left (hlength ▸ hi)] at hd
        obtain ⟨hcode, hbeside⟩ := hstep.turn.changes hc hd hne
        rw [List.take_append_of_le_length (Nat.le_of_lt (hlength ▸ hi)),
          (hstep.turn.contextAfter_take hi).2]
        exact ⟨hcode, hbeside.imp_right fun hbeside => hbeside.append_right _⟩
      · obtain ⟨k, rfl⟩ := Nat.exists_eq_add_of_le (Nat.le_of_not_lt hi)
        rw [List.getElem?_append_right (Nat.le_add_right _ _), Nat.add_sub_cancel_left] at hc
        rw [← hlength] at hd ⊢
        rw [List.getElem?_append_right (Nat.le_add_right _ _), Nat.add_sub_cancel_left] at hd
        obtain ⟨hcontext, hbeside⟩ := ih hc hd
        rw [List.take_length_add_append, hstep.again]
        refine ⟨hcontext, .inr ?_⟩
        rcases hbeside with ⟨rfl, hcomment⟩ | hbeside
        · exact hstep.turn.besideBlank hcomment _
        · exact hbeside.append blanks

end Turns

/-- Blanking finds code between two parts of a text and no comment behind it. -/
structure CodeBetween (before rest : List Char) : Prop where
  blanked : blankFrom .code rest = rest
  context : ∀ front, front <+: rest →
    contextAfter .code (before ++ front) = contextAfter .code front

theorem CodeBetween.step {before part : List Char} (h : CodeBetween before (part ++ rest))
    (hpart : ∀ front, blankFrom .code (part ++ front) = part ++ front →
      contextAfter .code (part ++ front) = contextAfter .code front ∧
        blankFrom .code front = front) : CodeBetween (before ++ part) rest := by
  refine ⟨(hpart rest h.blanked).2, fun front hfront => ?_⟩
  obtain ⟨behind, rfl⟩ := hfront
  have hblanked := h.blanked
  rw [← List.append_assoc] at hblanked
  rw [List.append_assoc, h.context _ ⟨behind, List.append_assoc _ _ _⟩]
  exact (hpart front (blankFrom_front rfl hblanked)).1

theorem CodeBetween.blank {before : List Char} (hblank : Text.isBlank c = true)
    (h : CodeBetween before (c :: rest)) : CodeBetween (before ++ [c]) rest := by
  have hquote : '"' ∉ [c] := by
    intro hmem
    obtain rfl := List.mem_singleton.mp hmem
    cases hblank
  exact CodeBetween.step h fun front hfront =>
    ⟨contextAfter_rest hquote hfront, blankFrom_rest hquote hfront⟩

end Comment

namespace Token

open Comment

variable {text before front behind inside : List Char} {kind : Kind} {token : Token} {n k : Nat}

/-- The token is no character literal with the quote of strings in it. -/
def IsPlain (token : Token) : Prop :=
  token.kind = .char → '"' ∉ token.text.toList

theorem codeBetween_token (hplain : token.IsPlain)
    (hmatch : token.kind.matchLength? (token.text.toList ++ behind) =
      some token.text.toList.length)
    (hline : '\n' ∉ token.text.toList) (h : CodeBetween before (token.text.toList ++ behind)) :
    CodeBetween (before ++ token.text.toList) behind := by
  refine h.step fun front hfront => ?_
  have htake : (token.text.toList ++ behind).take token.text.toList.length = token.text.toList :=
    List.take_left
  have hcontext := @contextAfter_lexeme _ _ front _ hmatch
  rw [htake] at hcontext
  exact hcontext hline hplain hfront

/-- No comment is blanked inside a token: strings are known to be strings, a character literal has
room for one character only, and other tokens hold no blanks. -/
theorem not_besideBlank (hmatch : kind.matchLength? text = some n) (hline : '\n' ∉ text.take n)
    (hk : k < n) (hspace : text[k]? = some ' ')
    (hcode : contextAfter .code (text.take k) = .code) : k ≠ 0 ∧ ¬BesideBlank text k := by
  by_cases hstring : kind = .string
  · subst hstring
    rw [Kind.matchLength?, stringLength?.eq_def] at hmatch
    split at hmatch
    · next others =>
        obtain ⟨inner, hinner, rfl⟩ := Option.map_eq_some_iff.mp hmatch
        cases k with
        | zero => cases hspace
        | succ k =>
            rw [List.take_succ_cons] at hline
            have hopen := (string_of_closingLength? hinner fun hmem =>
              hline (List.mem_cons_of_mem _ hmem)).1 (others.take k)
              (List.take_prefix_take_left (by omega)) (by grind)
            rw [List.take_succ_cons, contextAfter, hopen] at hcode
            cases hcode
    · cases hmatch
  · by_cases hchar : kind = .char
    · subst hchar
      rw [Kind.matchLength?, charLength?.eq_def] at hmatch
      split at hmatch
      · obtain rfl := Option.some.inj (Option.ite_none_left_eq_some.mp hmatch).2
        rcases k with _ | _ | _ | _ | k
        · cases hspace
        · cases hspace
        · exact ⟨Nat.succ_ne_zero 1, not_besideBlank_succ rfl rfl rfl rfl⟩
        · cases hspace
        · omega
      · obtain rfl := Option.some.inj (Option.ite_none_left_eq_some.mp hmatch).2
        rcases k with _ | _ | _ | k
        · cases hspace
        · exact ⟨Nat.succ_ne_zero 0, not_besideBlank_succ rfl rfl rfl rfl⟩
        · cases hspace
        · omega
      · cases hmatch
    · have hblank := isBlank_of_matchLength? hmatch hstring hchar ' '
        (List.mem_of_getElem? ((List.getElem?_take_of_lt hk).trans hspace))
      cases hblank

/-- A token is in the source what it is in the text without comments, if blanking finds code in
front of it. -/
theorem inside_eq {source : List Char} {after : List Char}
    (hsource : source = front ++ (inside ++ after)) (hfront : front.length = before.length)
    (hinside : List.Forall₂ Blanks inside text)
    (hblanked : blankFrom .code source = before ++ (text ++ behind))
    (hmatch : kind.matchLength? (text ++ behind) = some text.length) (hline : '\n' ∉ text)
    (h : CodeBetween before (text ++ behind)) : inside = text := by
  refine List.ext_get hinside.length_eq fun k hk hk' => ?_
  by_contra hne
  have hspace : text.get ⟨k, hk'⟩ = ' ' := by
    rcases hinside.get hk hk' with hsame | ⟨hspace, -⟩
    · exact absurd hsame.symm hne
    · exact hspace
  have hc : source[before.length + k]? = some (inside.get ⟨k, hk⟩) := by
    rw [hsource, ← hfront, List.getElem?_append_right (Nat.le_add_right _ _),
      Nat.add_sub_cancel_left, List.getElem?_append_left hk]
    exact List.getElem?_eq_getElem hk
  have htext : (text ++ behind)[k]? = some (text.get ⟨k, hk'⟩) := by
    rw [List.getElem?_append_left hk']
    exact List.getElem?_eq_getElem hk'
  have hd : (blankFrom .code source)[before.length + k]? = some (text.get ⟨k, hk'⟩) := by
    rw [hblanked, List.getElem?_append_right (Nat.le_add_right _ _), Nat.add_sub_cancel_left, htext]
  obtain ⟨hcode, ⟨-, hcomment⟩ | hbeside⟩ := blankFrom_changes hc hd hne
  · cases hcomment
  · rw [hblanked] at hbeside hcode
    rw [List.take_length_add_append, Context.blanked, h.context _ (List.take_prefix _ _)] at hcode
    obtain ⟨hk, hnot⟩ := not_besideBlank hmatch (by rwa [List.take_left]) hk' (hspace ▸ htext) hcode
    exact hnot (hbeside.of_append hk)

end Token

/-- The characters of a source that a span covers. -/
def Span.shows? (source : List Char) (span : Span) : Option (List Char) :=
  (Text.pieces '\n' source)[span.line]?.map (Text.stretch span.startColumn span.endColumn)

namespace TokenStream

open Comment

variable {source : String} {stream : TokenStream} {index : Nat} {token : Token}

theorem tiles_ofSource (h : ofSource source = .ok stream) :
    Token.Tiles [] (blankFrom .code source.toList) stream.tokens := by
  obtain ⟨hfault, -⟩ := ofSource_eq_ok.mp h
  have hscan := toOption_scan_blank hfault
  rw [h, Token.scan, blank, String.toList_ofList] at hscan
  refine (Token.tiles_of_scanFrom ⟨_, _, hfault⟩ ⟨rfl, rfl⟩ hscan).of_moved ?_ rfl
  exact fun _ => ⟨rfl, rfl, rfl⟩

theorem exists_lines (h : ofSource source = .ok stream)
    (hindex : stream.tokens[index]? = some token) :
    ∃ before inside after front behind,
      (Text.pieces '\n' source.toList)[token.span.line]? = some (before ++ inside ++ after) ∧
      (Text.pieces '\n' (blankFrom .code source.toList))[token.span.line]? =
        some (front ++ token.text.toList ++ behind) ∧
      List.Forall₂ Blanks before front ∧ List.Forall₂ Blanks inside token.text.toList ∧
      token.span.startColumn = Text.byteLength front ∧
      token.span.endColumn = token.span.startColumn + Text.byteLength token.text.toList ∧
      ((∀ other ∈ stream.tokens.take index, other.IsPlain) → inside = token.text.toList) := by
  obtain ⟨between, behind, htext, hstands, hmatch, hcode⟩ :=
    @Token.Tiles.exists_tile _ _ _ _ _ Token.IsPlain CodeBetween CodeBetween.blank
      Token.codeBetween_token (tiles_ofSource h) hindex
  have hblanks := forall₂_blankFrom .code source.toList
  rw [htext] at hblanks
  obtain ⟨before, rest, hsource, hbefore, hrest⟩ := exists_append_of_blanks hblanks
  obtain ⟨inside, after, rfl, hinside, -⟩ := exists_append_of_blanks hrest
  have hnewline : '\n' ∉ inside := by
    rw [← List.count_eq_zero, ← count_newline hinside, List.count_eq_zero]
    exact hstands.oneLine
  have hline : token.span.line = before.count '\n' :=
    hstands.line.trans (count_newline hbefore)
  have hwritten := Text.getElem?_pieces_inside hnewline before after
  have hchecked := Text.getElem?_pieces_inside hstands.oneLine between behind
  rw [← hline, ← hsource] at hwritten
  rw [count_newline hbefore, ← hline, ← htext] at hchecked
  refine ⟨_, inside, _, _, _, hwritten, hchecked, forall₂_lastLine hbefore, hinside,
    hstands.startColumn, hstands.endColumn, fun hplain => ?_⟩
  refine Token.inside_eq hsource hbefore.length_eq hinside htext hmatch hstands.oneLine ?_
  exact hcode hplain ⟨blankFrom_blankFrom .code source.toList, fun _ _ => rfl⟩

/-- Tokens stand one behind the other, and only blanks are between them. A token begins where its
span says if and only if what is blanked in front of it on its line takes one byte for each
character. If moreover no character literal in front of it holds the quote of strings, the span
shows the token in the source. -/
theorem ofSource_token_places (h : ofSource source = .ok stream) :
    (∀ index token, stream.tokens[index]? = some token →
      ∃ before inside after front behind,
        (Text.pieces '\n' source.toList)[token.span.line]? = some (before ++ inside ++ after) ∧
        (Text.pieces '\n' (blankFrom .code source.toList))[token.span.line]? =
          some (front ++ token.text.toList ++ behind) ∧
        before.length = front.length ∧ inside.length = token.text.toList.length ∧
        (token.span.startColumn = Text.byteLength before ↔
          List.Forall₂ (fun c d => c ≠ d → c.utf8Size = 1) before front) ∧
        ((∀ other ∈ stream.tokens.take index, other.IsPlain) →
          inside = token.text.toList ∧ (token.span.startColumn = Text.byteLength before →
            token.span.shows? source.toList = some token.text.toList))) ∧
    stream.tokens.Pairwise (fun earlier later => earlier.span.Precedes later.span) ∧
    (∀ token ∈ stream.tokens, token.span.startColumn < token.span.endColumn) ∧
    ∀ before c after, blankFrom .code source.toList = before ++ c :: after →
      (∀ token ∈ stream.tokens, ¬token.span.Covers (before.count '\n')
        (Text.byteLength (Text.lastLine before))) → Text.isBlank c = true := by
  have htiles := tiles_ofSource h
  refine ⟨fun index token hindex => ?_, htiles.pairwise_precedes,
    fun token => htiles.startColumn_lt, fun before c after htext houtside => ?_⟩
  · obtain ⟨before, inside, after, front, behind, hsource, hblanked, hbefore, hinside, hstart, hend,
      hsame⟩ := exists_lines h hindex
    refine ⟨before, inside, after, front, behind, hsource, hblanked, hbefore.length_eq,
      hinside.length_eq, ?_, fun hplain => ⟨hsame hplain, fun hplace => ?_⟩⟩
    · rw [hstart, eq_comm]
      exact (byteLength_blanked hbefore).2
    · rw [Span.shows?, hsource, hend, hplace, hsame hplain, Option.map_some, Text.stretch_append]
  · rcases htiles.isBlank_or_covers htext with hblank | ⟨token, hmem, hcovers⟩
    · exact hblank
    · exact absurd hcovers (houtside token hmem)

/-- Comments in front of a token and above it, and marks of comments in a string. -/
theorem ofSource_token_places_comments :
    ∃ stream token,
      ofSource "\x7b- x -\x7d f '\\'' \"\x7b-é-\x7d\" -- é\n  g \x7b- y -\x7d h" = .ok stream ∧
      stream.tokens[4]? = some token ∧ token.span.line = 1 ∧ token.span.startColumn = 12 ∧
      token.span.shows? "\x7b- x -\x7d f '\\'' \"\x7b-é-\x7d\" -- é\n  g \x7b- y -\x7d h".toList =
        some ['h'] := by
  let source := "\x7b- x -\x7d f '\\'' \"\x7b-é-\x7d\" -- é\n  g \x7b- y -\x7d h"
  have hclosed : (ofSource source).toOption.any (fun stream =>
        stream.tokens[4]?.any (fun token => token.text.toList = ['h'] ∧ token.span.line = 1 ∧
          token.span.startColumn = 12) &&
        (stream.tokens.take 4).all fun other => other.kind ≠ .char ∨ '"' ∉ other.text.toList) ∧
      (Text.pieces '\n' source.toList)[1]?.any fun line => line.all (·.utf8Size = 1) := by
    decide +kernel
  obtain ⟨hread, hline⟩ := hclosed
  cases hstream : ofSource source with
  | error error =>
      rw [hstream] at hread
      cases hread
  | ok stream =>
      rw [hstream] at hread
      obtain ⟨htoken, hplain⟩ := Bool.and_eq_true_iff.mp hread
      obtain ⟨token, hindex, hplace⟩ := (Option.any_eq_true _ _).mp htoken
      obtain ⟨htext, hone, hstart⟩ := of_decide_eq_true hplace
      obtain ⟨before, inside, after, front, -, hwritten, -, hlength, -, hnarrow, hshows⟩ :=
        (ofSource_token_places hstream).1 4 token hindex
      have hothers : ∀ other ∈ stream.tokens.take 4, other.IsPlain := by
        intro other hmem hchar
        exact (of_decide_eq_true (List.all_eq_true.mp hplain other hmem)).resolve_left
          (absurd hchar)
      have hbytes : ∀ c ∈ before, c.utf8Size = 1 := by
        rw [hone] at hwritten
        rw [hwritten] at hline
        intro c hc
        exact of_decide_eq_true (List.all_eq_true.mp hline c (by simp [hc]))
      refine ⟨stream, token, rfl, hindex, hone, hstart, ?_⟩
      rw [← htext]
      refine (hshows hothers).2 (hnarrow.mpr (List.forall₂_iff_zip.mpr ⟨hlength, ?_⟩))
      exact fun hmem _ => hbytes _ (List.of_mem_zip hmem).1

/-- A character of two bytes in a comment moves the spans behind it, and a string behind a character
literal with the quote of strings loses what looks like a comment. -/
theorem ofSource_token_places_wide :
    (ofSource "\x7b-é-\x7d a").toOption.map (·.tokens.map fun token =>
        (token.text.toList, token.span.shows? "\x7b-é-\x7d a".toList)) =
      some [(['a'], some [' '])] ∧
    (ofSource "'\"' \"\x7b--\x7d\"").toOption.map (·.tokens.map fun token =>
        (token.text.toList, token.span.shows? "'\"' \"\x7b--\x7d\"".toList)) =
      some [("'\"'".toList, some "'\"'".toList),
        ("\"    \"".toList, some "\"\x7b--\x7d\"".toList)] := by
  decide +kernel

end TokenStream

end Viewlet
