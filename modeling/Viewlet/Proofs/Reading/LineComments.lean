import Viewlet.Proofs.Reading.Blanking
import Viewlet.Proofs.Reading.LineBreaks
import Viewlet.Proofs.Reading.Units

/-!
Comments at the end of a line. Blanking the comments, checking the characters and cutting the text
into tokens each keep track of literals by themselves. Where they agree that no literal is open at
the end of a line, a comment can be added there, and the tokens stay the same. They agree unless a
character literal holds the quote of strings, which blanking takes for the beginning of a string.
-/

namespace Viewlet

namespace Comment

variable {context : Context} {text rest : List Char} {c : Char}

theorem eq_cons_of_append_space {mark : Char} {others : List Char} (hmark : mark ≠ ' ')
    (h : text ++ ' ' :: rest = mark :: others) : ∃ tail, text = mark :: tail := by
  cases text with
  | nil => exact absurd (List.cons.inj h).1.symm hmark
  | cons c tail => exact ⟨tail, congrArg (· :: tail) (List.cons.inj h).1⟩

theorem blankFrom_append_space (context : Context) (text rest : List Char) :
    blankFrom context (text ++ ' ' :: rest) =
      blankFrom context text ++ blankFrom (contextAfter context text) (' ' :: rest) := by
  fun_induction contextAfter context text with
  | case1 context =>
      rw [blankFrom]
      rfl
  | case2 depth text ih | case3 text ih | case4 depth text ih | case7 _ text ih | case10 text ih
  | case11 text ih =>
      rw [List.cons_append, List.cons_append, blankFrom, blankFrom, ih]
      rfl
  | case5 depth c text hopen hclose hclose' ih =>
      rw [List.cons_append, blankFrom, blankFrom, ih]
      · rfl
      · exact hopen
      · exact hclose
      · exact hclose'
      · intro others hc heq
        obtain ⟨tail, htail⟩ := eq_cons_of_append_space (by decide) heq
        exact hopen tail hc htail
      · intro others hdepth hc heq
        obtain ⟨tail, htail⟩ := eq_cons_of_append_space (by decide) heq
        exact hclose tail hdepth hc htail
      · intro inner others hdepth hc heq
        obtain ⟨tail, htail⟩ := eq_cons_of_append_space (by decide) heq
        exact hclose' inner tail hdepth hc htail
  | case6 c text ih =>
      rw [List.cons_append, blankFrom, blankFrom]
      split
      · next hnewline =>
          rw [if_pos hnewline] at ih
          rw [ih]
          rfl
      · next hnewline =>
          rw [if_neg hnewline] at ih
          rw [ih]
          rfl
  | case8 c text hshield ih =>
      by_cases hplain : c = '\\'
      · subst hplain
        cases text with
        | nil =>
            -- The backslash shields the space, which does not end the string either.
            rw [List.cons_append, List.nil_append, blankFrom]
            simp [blankFrom, contextAfter]
        | cons d others => exact absurd rfl (hshield d others rfl)
      · rw [List.cons_append, blankFrom, blankFrom, ih]
        · rfl
        · exact fun _ _ hc => absurd hc hplain
        · exact fun _ _ hc => absurd hc hplain
  | case9 text ih =>
      rw [List.cons_append, blankFrom, blankFrom, ih]
      rfl
  | case12 c text hquote hbrace hdash ih =>
      have hopen : c = '{' ∨ c = '-' → ∀ tail, text ≠ '-' :: tail := fun hc tail heq =>
        hc.elim (fun hc => hbrace tail hc heq) fun hc => hdash tail hc heq
      rw [List.cons_append, blankFrom_cons hquote fun hc hhead => ?_,
        blankFrom_cons hquote fun hc hhead => ?_, ih]
      · rfl
      · obtain ⟨others, heq⟩ := List.head?_eq_some_iff.mp hhead
        exact hopen hc others heq
      · obtain ⟨others, heq⟩ := List.head?_eq_some_iff.mp hhead
        obtain ⟨tail, htail⟩ := eq_cons_of_append_space (by decide) heq
        exact hopen hc tail htail

theorem newline_notMem_blankFrom (h : '\n' ∉ text) : '\n' ∉ blankFrom context text := by
  fun_induction blankFrom context text with
  | case1 => exact h
  | case5 => simp_all [eq_comm]
  | _ => simp_all

theorem blankFrom_lineComment (h : '\n' ∉ text) :
    blankFrom .lineComment text = List.replicate text.length ' ' := by
  induction text with
  | nil => rfl
  | cons c text ih =>
      rw [List.mem_cons, not_or] at h
      rw [blankFrom, if_neg (Ne.symm h.1), ih h.2]
      rfl

/-- A comment at the end of a line, behind code or another comment, becomes spaces. -/
theorem blankFrom_append_comment (hcomment : '\n' ∉ rest)
    (hcontext : contextAfter context text = .code ∨ contextAfter context text = .lineComment) :
    blankFrom context (text ++ ' ' :: '-' :: '-' :: rest) =
      blankFrom context text ++ ' ' :: List.replicate (rest.length + 2) ' ' := by
  rw [blankFrom_append_space]
  rcases hcontext with hcode | hbehind
  · rw [hcode, blankFrom_space, blankFrom, blankFrom_lineComment hcomment]
    rfl
  · have hline : '\n' ∉ ' ' :: '-' :: '-' :: rest := by simpa using hcomment
    rw [hbehind, blankFrom_lineComment hline]
    rfl

theorem contextAfter_rest (hquote : '"' ∉ text)
    (h : blankFrom .code (text ++ rest) = text ++ rest) :
    contextAfter .code (text ++ rest) = contextAfter .code rest := by
  induction text with
  | nil => rfl
  | cons c text ih =>
      obtain ⟨hc, htext⟩ := not_or.mp (mt List.mem_cons.mpr hquote)
      rw [List.cons_append] at h
      have hopen := not_opens_of_blankFrom h
      rw [blankFrom_cons (Ne.symm hc) hopen] at h
      exact (contextAfter_cons (Ne.symm hc) hopen).trans (ih htext (List.cons.inj h).2)

theorem string_cons (hshield : c ≠ '\\') (text : List Char) :
    contextAfter .string (c :: text) =
        contextAfter (if c = '"' ∨ c = '\n' then .code else .string) text ∧
      blankFrom .string (c :: text) =
        c :: blankFrom (if c = '"' ∨ c = '\n' then .code else .string) text := by
  rw [contextAfter, blankFrom]
  · exact ⟨rfl, rfl⟩
  · exact fun _ _ hc => absurd hc hshield
  · exact fun _ _ hc => absurd hc hshield

theorem blankFrom_append_dash (h : contextAfter context text = .string) (rest : List Char) :
    blankFrom context (text ++ ' ' :: '-' :: rest) =
      blankFrom context text ++ ' ' :: '-' :: blankFrom .string rest := by
  have hspace := (string_cons (c := ' ') (by decide) ('-' :: rest)).2
  have hdash := (string_cons (c := '-') (by decide) rest).2
  rw [if_neg (by decide)] at hspace hdash
  rw [blankFrom_append_space, h, hspace, hdash]

theorem string_of_closingLength? {n : Nat} (h : Token.closingLength? text = some n)
    (hnewline : '\n' ∉ text.take n) :
    (∀ front, front <+: text.take n → front.length < n → contextAfter .string front = .string) ∧
      ∀ rest, contextAfter .string (text.take n ++ rest) = contextAfter .code rest ∧
        blankFrom .string (text.take n ++ rest) = text.take n ++ blankFrom .code rest := by
  fun_induction Token.closingLength? text generalizing n with
  | case1 | case3 | case5 => cases h
  | case2 others =>
      obtain rfl := Option.some.inj h
      refine ⟨fun front _ hlength => ?_, fun rest => string_cons (by decide) rest⟩
      obtain rfl := List.length_eq_zero_iff.mp (Nat.lt_one_iff.mp hlength)
      rfl
  | case4 c others hc ih =>
      obtain ⟨inner, hinner, rfl⟩ := Option.map_eq_some_iff.mp h
      simp only [List.take_succ_cons, List.mem_cons, not_or] at hnewline
      obtain ⟨hopen, hclosed⟩ := ih hinner hnewline.2.2
      refine ⟨fun front hfront hlength => ?_, fun rest => ?_⟩
      · rcases front with _ | ⟨shield, _ | ⟨d, front⟩⟩
        · rfl
        · obtain ⟨rfl, -⟩ := List.cons_prefix_cons.mp hfront
          rfl
        · obtain ⟨rfl, hbehind⟩ := List.cons_prefix_cons.mp hfront
          obtain ⟨rfl, hinside⟩ := List.cons_prefix_cons.mp hbehind
          rw [contextAfter]
          exact hopen front hinside (by simpa using hlength)
      · obtain ⟨hcontext, hblank⟩ := hclosed rest
        rw [List.take_succ_cons, List.take_succ_cons, List.cons_append, List.cons_append,
          contextAfter, blankFrom, hcontext, hblank]
        exact ⟨rfl, rfl⟩
  | case6 c others hquote hshield hc ih =>
      obtain ⟨inner, hinner, rfl⟩ := Option.map_eq_some_iff.mp h
      rw [List.take_succ_cons, List.mem_cons, not_or] at hnewline
      obtain ⟨hopen, hclosed⟩ := ih hinner hnewline.2
      have hstays : ¬(c = '"' ∨ c = '\n') := not_or.mpr ⟨hquote, Ne.symm hnewline.1⟩
      refine ⟨fun front hfront hlength => ?_, fun rest => ?_⟩
      · cases front with
        | nil => rfl
        | cons d front =>
            obtain ⟨rfl, hinside⟩ := List.cons_prefix_cons.mp hfront
            rw [(string_cons hc front).1, if_neg hstays]
            exact hopen front hinside (Nat.lt_of_succ_lt_succ hlength)
      · obtain ⟨hcontext, hblank⟩ := string_cons hc (others.take inner ++ rest)
        rw [if_neg hstays] at hcontext hblank
        rw [List.take_succ_cons, List.cons_append, hcontext, hblank, (hclosed rest).1,
          (hclosed rest).2]
        exact ⟨rfl, rfl⟩

end Comment

namespace Alphabet

variable {context : Context} {line column : Nat} {text rest : List Char}

theorem faultFrom?_append (h : faultFrom? context line column text = none)
    (hrest : ∀ line column, faultFrom? .code line column rest = none) :
    faultFrom? context line column (text ++ rest) = none := by
  fun_induction faultFrom? context line column text with
  | case1 line column => exact hrest line column
  | case2 | case3 => cases h
  | _ => simp_all [faultFrom?]

theorem faultFrom?_spaces (count line column : Nat) :
    faultFrom? .code line column (List.replicate count ' ') = none := by
  induction count generalizing column with
  | zero => rfl
  | succ count ih =>
      rw [List.replicate_succ, faultFrom?, if_neg (by decide), if_pos (by decide)]
      exact ih (column + 1)

end Alphabet

namespace Token

open Alphabet Comment

variable {source : String} {place : Place} {skipped n : Nat} {text front rest : List Char}
  {kind : Kind} {tokens : List Token} {blank : Char}

theorem contextAfter_lexeme (hmatch : kind.matchLength? text = some n)
    (hnewline : '\n' ∉ text.take n) (hchar : kind = .char → '"' ∉ text.take n)
    (h : blankFrom .code (text.take n ++ rest) = text.take n ++ rest) :
    contextAfter .code (text.take n ++ rest) = contextAfter .code rest ∧
      blankFrom .code rest = rest := by
  by_cases hstring : kind = .string
  · subst hstring
    rw [Kind.matchLength?, stringLength?.eq_def] at hmatch
    split at hmatch
    · next others =>
        obtain ⟨inner, hinner, rfl⟩ := Option.map_eq_some_iff.mp hmatch
        rw [List.take_succ_cons] at hnewline
        obtain ⟨hcontext, hblank⟩ := (string_of_closingLength? hinner fun hmem =>
          hnewline (List.mem_cons_of_mem _ hmem)).2 rest
        rw [List.take_succ_cons, List.cons_append, blankFrom, hblank] at h
        rw [List.take_succ_cons, List.cons_append, contextAfter]
        exact ⟨hcontext, List.append_cancel_left (List.cons.inj h).2⟩
    · cases hmatch
  · have hquote : '"' ∉ text.take n := by
      by_cases hkind : kind = .char
      · exact hchar hkind
      · intro hmem
        cases (isQuote_of_matchLength? hmatch hstring hkind).2 _ hmem
    exact ⟨contextAfter_rest hquote h, blankFrom_rest hquote h⟩

theorem contextAfter_of_scanFrom (h : scanFrom source place skipped text = .ok tokens)
    (hnewline : '\n' ∉ text) (hblanked : blankFrom .code (text.drop skipped) = text.drop skipped)
    (hchars : ∀ token ∈ tokens, token.kind = .char → '"' ∉ token.text.toList) :
    contextAfter .code (text.drop skipped) = .code := by
  -- The scan passes over the characters of a token one by one; the context is known again behind
  -- the last of them.
  induction text generalizing place skipped tokens with
  | nil =>
      rw [List.drop_nil]
      rfl
  | cons c rest ih =>
      have hrest : '\n' ∉ rest := fun hmem => hnewline (List.mem_cons_of_mem _ hmem)
      cases skipped with
      | succ skipped => exact ih h hrest hblanked hchars
      | zero =>
          rw [List.drop_zero] at hblanked
          rw [List.drop_zero]
          rw [scanFrom] at h
          split at h
          · next hblank =>
              have hquote : '"' ∉ [c] := by
                intro hmem
                obtain rfl := List.mem_singleton.mp hmem
                cases hblank
              have hopen : blankFrom .code ([c] ++ rest) = [c] ++ rest := hblanked
              exact (contextAfter_rest hquote hopen).trans
                (ih h hrest (blankFrom_rest hquote hopen) hchars)
          · split at h
            · cases h
            · next kind length hlongest =>
                dsimp only at h
                split at h
                · next others hothers =>
                    obtain rfl := Except.ok.inj h
                    obtain ⟨htoken, hrests⟩ := List.forall_mem_cons.mp hchars
                    have hmatch := matchLength?_of_longest? hlongest
                    obtain ⟨length, rfl⟩ := Nat.exists_eq_add_one.mpr
                      (length_of_matchLength? hmatch).1
                    rw [← List.take_append_drop (length + 1) (c :: rest)] at hblanked ⊢
                    obtain ⟨hcontext, hbehind⟩ := contextAfter_lexeme hmatch
                      (fun hmem => hnewline (List.mem_of_mem_take hmem))
                      (by simpa [ofLexeme] using htoken) hblanked
                    exact hcontext.trans (ih hothers hrest hbehind hrests)
                · cases h

section Blanks

theorem closingLength?_append (h : Closes '"' front) (rest : List Char) :
    closingLength? (front ++ rest) = closingLength? front := by
  fun_induction closingLength? front with
  | case1 =>
      obtain ⟨_, _, _, _, hfault⟩ := h
      cases hfault
  | case2 | case3 => rfl
  | case4 c others hc ih =>
      rcases h.cases_cons with ⟨-, d, tail, htail, hcloses⟩ | ⟨hshield, -⟩
      · obtain ⟨rfl, rfl⟩ := List.cons.inj htail
        rw [List.cons_append, List.cons_append, closingLength?, if_neg hc, ih hcloses]
      · exact absurd rfl hshield
  | case5 others _ hshield =>
      rcases h.cases_cons with ⟨-, d, tail, rfl, -⟩ | ⟨hplain, -⟩
      · exact absurd rfl (hshield d tail rfl)
      · exact absurd rfl hplain
  | case6 c others hquote hshield hc ih =>
      rcases h.cases_cons with ⟨rfl, -⟩ | ⟨-, -, ⟨rfl, -⟩ | ⟨-, hcloses⟩⟩
      · exact absurd rfl hc
      · exact absurd rfl hquote
      · rw [List.cons_append, closingLength?, if_neg hc, ih hcloses]
        · exact hquote
        · exact fun d tail hd => absurd hd hc

theorem stringLength?_of_faultless (hblank : Text.isBlank blank = true) (h : Faultless front)
    (rest : List Char) : stringLength? (front ++ blank :: rest) = stringLength? front := by
  cases front with
  | nil =>
      have hquote : blank ≠ '"' := by
        rintro rfl
        cases hblank
      simp [stringLength?, hquote]
  | cons c front =>
      by_cases hquote : c = '"'
      · subst hquote
        have hcloses : Closes '"' front := h.closes rfl
        simp only [List.cons_append, stringLength?, closingLength?_append hcloses]
      · simp [stringLength?, hquote]

theorem charLength?_of_faultless (hblank : Text.isBlank blank = true) (h : Faultless front)
    (rest : List Char) : charLength? (front ++ blank :: rest) = charLength? front := by
  refine charLength?_blank hblank ?_ ?_
  · rintro rfl
    obtain ⟨_, _, _, _, hfault⟩ := h.closes rfl
    cases hfault
  · rintro rfl
    rcases (h.closes rfl).cases_cons with ⟨-, d, tail, htail, -⟩ | ⟨hshield, -⟩
    · cases htail
    · exact absurd rfl hshield

theorem parts_blank (hblank : Text.isBlank blank = true) (rest : List Char) :
    Parts blank rest Faultless where
  isBlank := hblank
  longest h := by
    have hmatch (kind : Kind) : kind.matchLength? _ = _ := matchLength?_of_literals hblank
      (fun _ => stringLength?_of_faultless hblank h rest)
      fun _ => charLength?_of_faultless hblank h rest
    simp only [longest?, hmatch]
  tail h hblank := h.drop (n := 1) (List.forall_mem_singleton.mpr (isQuote_of_isBlank hblank))
  lexeme h hmatch := ⟨newline_notMem_take h hmatch, faultless_drop h hmatch⟩

theorem scanFrom_spaces (source : String) (place : Place) (count : Nat) :
    scanFrom source place 0 (List.replicate count ' ') = .ok [] := by
  induction count generalizing place with
  | zero => rfl
  | succ count ih =>
      rw [List.replicate_succ, scanFrom_blank rfl]
      exact ih (place.afterBlank ' ')

theorem ne_nil_of_scanFrom {c : Char} (hc : Text.isBlank c = false)
    (h : (scanFrom source place 0 (c :: text)).toOption = some tokens) : tokens ≠ [] := by
  cases hlongest : longest? (c :: text) with
  | none =>
      rw [scanFrom_none hc hlongest] at h
      cases h
  | some found =>
      rw [scanFrom_lexeme hc hlongest] at h
      obtain ⟨others, -, rfl⟩ := Option.map_eq_some_iff.mp h
      exact List.cons_ne_nil _ _

theorem exists_scan_append_space (h : Faultless front) (rest : List Char) :
    let source := String.ofList (front ++ ' ' :: rest)
    ∃ place, (scan source).toOption =
      (scan (String.ofList front)).toOption.bind fun tokens =>
        (scanFrom source place 0 rest).toOption.map
          (tokens.map (moved (Span.shifted source 0)) ++ ·) := by
  intro source
  have hsame : (scanFrom source ⟨0, 0, 0⟩ 0 front).toOption =
      (scan (String.ofList front)).toOption.map (List.map (moved (Span.shifted source 0))) := by
    rw [scan, String.toList_ofList]
    exact scanFrom_below ⟨rfl, rfl⟩ 0 front
  obtain ⟨last, -, -, hscan⟩ := @Parts.exists_scanFrom front rest source ⟨0, 0, 0⟩ 0 ' ' _
    (parts_blank rfl rest) (Nat.zero_le _) h
  refine ⟨last.afterBlank ' ', ?_⟩
  rw [scan, String.toList_ofList, hscan, hsame, Option.bind_map]
  rfl

end Blanks

end Token

namespace TokenStream

open Comment

variable {source line comment : String} {stream : TokenStream} {tokens : List Token}

theorem ofSource_eq_ok_of_line (h : '\n' ∉ source.toList) :
    ofSource source = .ok stream ↔
      Alphabet.fault? (blankFrom .code source.toList) = none ∧
        ∃ tokens, (Token.scan (blank source)).toOption = some tokens ∧
          stream = ofRuns [tokens] := by
  have hnewline : '\n' ∉ blankFrom .code source.toList := newline_notMem_blankFrom h
  have hblock : (⟨0, [blankFrom .code source.toList]⟩ : Layout.Block).inPlace =
      blankFrom .code source.toList := rfl
  rw [ofSource_eq_ok, Layout.blocks_eq hnewline, scanBlocks, hblock, ← blank]
  cases Token.scan (blank source) with
  | error failure => simp [Except.toOption]
  | ok tokens => simp [Except.toOption, scanBlocks]

theorem toList_append_comment (line comment : String) :
    (line ++ " --" ++ comment).toList = line.toList ++ ' ' :: '-' :: '-' :: comment.toList := by
  simp

theorem toOption_scan_append_comment (hcomment : '\n' ∉ comment.toList)
    (hfault : Alphabet.Faultless (blankFrom .code line.toList))
    (hcontext : contextAfter .code line.toList = .code ∨
      contextAfter .code line.toList = .lineComment) :
    (Token.scan (blank (line ++ " --" ++ comment))).toOption =
      (Token.scan (blank line)).toOption.map
        (List.map (Token.moved (Span.shifted (blank (line ++ " --" ++ comment)) 0))) := by
  have hblank : blank (line ++ " --" ++ comment) = String.ofList (blankFrom .code line.toList ++
      ' ' :: List.replicate (comment.toList.length + 2) ' ') := by
    rw [blank, toList_append_comment, blankFrom_append_comment hcomment hcontext]
  obtain ⟨place, hscan⟩ := Token.exists_scan_append_space hfault
    (List.replicate (comment.toList.length + 2) ' ')
  rw [hblank, hscan, Token.scanFrom_spaces, ← blank]
  cases Token.scan (blank line) with
  | error failure => rfl
  | ok tokens => simp [Except.toOption]

/-- Where blanking takes the end of a line for a part of a string, the dashes become tokens. -/
theorem length_lt_of_scan_append_comment {longer : List Token}
    (hfault : Alphabet.Faultless (blankFrom .code line.toList))
    (hstring : contextAfter .code line.toList = .string)
    (hline : (Token.scan (blank line)).toOption = some tokens)
    (hlonger : (Token.scan (blank (line ++ " --" ++ comment))).toOption = some longer) :
    tokens.length < longer.length := by
  obtain ⟨place, hscan⟩ := Token.exists_scan_append_space hfault
    ('-' :: blankFrom .string ('-' :: comment.toList))
  rw [← blankFrom_append_dash hstring, ← toList_append_comment, ← blank, ← blank, hlonger, hline,
    Option.bind_some] at hscan
  obtain ⟨dashes, hdashes, rfl⟩ := Option.map_eq_some_iff.mp hscan.symm
  have hne := Token.ne_nil_of_scanFrom (by decide) hdashes
  rw [List.length_append, List.length_map]
  exact Nat.lt_add_of_pos_right (List.length_pos_iff.mpr hne)

/-- Blanking takes the end of an accepted line for a part of a string only if a character literal
holds the quote of strings. -/
theorem exists_char_of_contextAfter (h : '\n' ∉ line.toList)
    (hscan : (Token.scan (blank line)).toOption = some tokens)
    (hstring : contextAfter .code line.toList = .string) :
    ∃ token ∈ tokens, token.kind = .char ∧ '"' ∈ token.text.toList := by
  by_contra hnone
  have hchars : ∀ token ∈ tokens, token.kind = .char → '"' ∉ token.text.toList :=
    fun token hmem hkind hquote => hnone ⟨token, hmem, hkind, hquote⟩
  have hend := contextAfter_blankFrom .code line.toList
  rw [hstring, Context.blanked, Context.blanked] at hend
  cases htokens : Token.scan (blank line) with
  | error failure =>
      rw [htokens] at hscan
      cases hscan
  | ok found =>
      rw [htokens] at hscan
      obtain rfl := Option.some.inj hscan
      rw [Token.scan, blank, String.toList_ofList] at htokens
      have hcode := Token.contextAfter_of_scanFrom htokens (newline_notMem_blankFrom h)
        (blankFrom_blankFrom .code line.toList) hchars
      rw [List.drop_zero, hend] at hcode
      cases hcode

/-- A comment can be added at the end of a line, unless blanking takes the end of the line for a
part of a string. That happens only if a character literal of the line holds the quote of
strings. -/
theorem ofSource_append_comment (hline : '\n' ∉ line.toList) (hcomment : '\n' ∉ comment.toList)
    (hstream : ofSource line = .ok stream)
    (hopen : ∀ depth, contextAfter .code line.toList ≠ .blockComment depth) :
    ((∃ longer, ofSource (line ++ " --" ++ comment) = .ok longer ∧
        longer.unitStarts = stream.unitStarts ∧
        longer.tokens = stream.tokens.map (Token.moved fun span =>
          { span with source := blank (line ++ " --" ++ comment) })) ↔
      contextAfter .code line.toList ≠ .string) ∧
    (contextAfter .code line.toList = .string →
      ∃ token ∈ stream.tokens, token.kind = .char ∧ '"' ∈ token.text.toList) := by
  have hlonger : '\n' ∉ (line ++ " --" ++ comment).toList := by simp [hline, hcomment]
  obtain ⟨hfault, tokens, hscan, rfl⟩ := (ofSource_eq_ok_of_line hline).mp hstream
  have hfaultless : Alphabet.Faultless (blankFrom .code line.toList) := ⟨_, _, hfault⟩
  have htokens : (ofRuns [tokens]).tokens = tokens := List.append_nil tokens
  rw [htokens]
  refine ⟨⟨?_, fun hstring => ?_⟩, exists_char_of_contextAfter hline hscan⟩
  · -- In a string the dashes are not blanked, and there are more tokens than before.
    rintro ⟨longer, hsource, -, hsame⟩ hstring
    obtain ⟨-, others, hothers, rfl⟩ := (ofSource_eq_ok_of_line hlonger).mp hsource
    have hlt := length_lt_of_scan_append_comment hfaultless hstring hscan hothers
    have hlength := congrArg List.length hsame
    rw [List.length_map] at hlength
    simp [ofRuns] at hlength
    omega
  · have hcontext : contextAfter .code line.toList = .code ∨
        contextAfter .code line.toList = .lineComment := by
      cases hend : contextAfter .code line.toList with
      | code => exact .inl rfl
      | string => exact absurd hend hstring
      | lineComment => exact .inr rfl
      | blockComment depth => exact absurd hend (hopen depth)
    have hsame := toOption_scan_append_comment hcomment hfaultless hcontext
    rw [hscan, Option.map_some] at hsame
    refine ⟨ofRuns [tokens.map _], (ofSource_eq_ok_of_line hlonger).mpr ⟨?_, _, hsame, rfl⟩, ?_,
      List.append_nil _⟩
    · rw [toList_append_comment, blankFrom_append_comment hcomment hcontext]
      exact Alphabet.faultFrom?_append hfault
        (Alphabet.faultFrom?_spaces (comment.toList.length + 3))
    · cases tokens <;> rfl

/-- A quote in a comment, dashes and a quote in a string, and all of these in the comment added. -/
theorem ofSource_append_comment_marks :
    ∃ stream longer, ofSource "'a' \x7b-\"-\x7d \"\\\"--\"" = .ok stream ∧
      ofSource ("'a' \x7b-\"-\x7d \"\\\"--\"" ++ " --" ++ "'\" \x7b- é") = .ok longer ∧
      stream.tokens.map (·.kind) = [.char, .string] ∧ longer.unitStarts = stream.unitStarts ∧
      longer.tokens = stream.tokens.map (Token.moved fun span =>
        { span with source := "'a'       \"\\\"--\"          " }) := by
  have hread : (ofSource "'a' \x7b-\"-\x7d \"\\\"--\"").toOption.any (fun stream =>
      stream.tokens.map (·.kind) = [.char, .string]) = true := by
    decide
  have hend : contextAfter .code "'a' \x7b-\"-\x7d \"\\\"--\"".toList = .code := by decide
  cases hstream : ofSource "'a' \x7b-\"-\x7d \"\\\"--\"" with
  | error error =>
      rw [hstream] at hread
      cases hread
  | ok stream =>
      rw [hstream] at hread
      have hstring : contextAfter .code "'a' \x7b-\"-\x7d \"\\\"--\"".toList ≠ .string := by
        rw [hend]
        decide
      have hopen (depth : Nat) :
          contextAfter .code "'a' \x7b-\"-\x7d \"\\\"--\"".toList ≠ .blockComment depth := by
        rw [hend]
        exact Context.noConfusion
      obtain ⟨longer, hlonger, hstarts, htokens⟩ :=
        (@ofSource_append_comment _ "'\" \x7b- é" stream (by decide) (by decide) hstream
          hopen).1.mpr hstring
      exact ⟨stream, longer, rfl, hlonger, of_decide_eq_true hread, hstarts, htokens⟩

/-- Behind a character literal with the quote of strings no comment is seen. -/
theorem ofSource_append_comment_quote :
    (ofSource "'\"'").toOption.map (·.tokens.map (·.kind)) = some [.char] ∧
      (ofSource ("'\"'" ++ " --" ++ "x")).toOption.map (·.tokens.map (·.kind)) =
        some [.char, .minus, .minus, .name] := by
  decide

end TokenStream

end Viewlet
