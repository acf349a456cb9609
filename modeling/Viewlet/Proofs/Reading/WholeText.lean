import Mathlib.Data.List.Chain
import Viewlet.Proofs.Reading.LineBreaks
import Viewlet.Proofs.Reading.UnitTexts

/-!
Blocks and the whole text. No token runs from one block into the next, and a block in its place
has its lines where the whole text has them, so the tokens of the blocks are those of the whole
text. A block that opens with a line begins with a token at the beginning of that line, and no
other token of it stands at the beginning of a line: this is how units are told from columns.
-/

namespace Viewlet

theorem Text.count_join {mark : Char} {parts : List (List Char)} (hne : parts ≠ [])
    (h : ∀ part ∈ parts, mark ∉ part) : (join mark parts).count mark + 1 = parts.length := by
  induction parts with
  | nil => exact absurd rfl hne
  | cons part parts ih =>
      obtain ⟨hpart, hparts⟩ := List.forall_mem_cons.mp h
      by_cases hlast : parts = []
      · subst hlast
        rw [join, List.count_eq_zero.mpr hpart]
        rfl
      · rw [join_cons hlast, List.count_append, List.count_cons_self, ih hlast hparts,
          List.count_eq_zero.mpr hpart, Nat.zero_add, List.length_cons]

namespace Layout

/-- Blocks one below the other, the first of them at the given line. -/
def Stacked : (index : Nat) → List Block → Prop
  | _, [] => True
  | index, block :: blocks => block.firstLine = index ∧ Stacked (index + block.lines.length) blocks

theorem stacked_divide (index : Nat) (lines : List (List Char)) :
    Stacked (index + (divide index lines).1.length) (divide index lines).2 := by
  induction lines generalizing index with
  | nil => exact trivial
  | cons line lines ih =>
      have hbelow := ih (index + 1)
      simp only [divide]
      split
      · refine ⟨rfl, ?_⟩
        rwa [List.length_cons, List.length_nil, Nat.add_zero, Nat.add_comm _ 1, ← Nat.add_assoc]
      · rwa [List.length_cons, Nat.add_comm _ 1, ← Nat.add_assoc]

theorem opens_of_mem_divide {index : Nat} {lines : List (List Char)} {block : Block}
    (h : block ∈ (divide index lines).2) :
    ∃ first rest, block.lines = first :: rest ∧ opens first = true := by
  induction lines generalizing index with
  | nil => cases h
  | cons line lines ih =>
      simp only [divide] at h
      split at h
      · next hopens =>
          rcases List.mem_cons.mp h with rfl | h
          · exact ⟨line, _, rfl, hopens⟩
          · exact ih h
      · exact ih h

theorem exists_blocks (text : List Char) :
    ∃ block following, blocks text = block :: following ∧ Stacked 0 (block :: following) ∧
      ∀ next ∈ following, ∃ first rest, next.lines = first :: rest ∧ opens first = true := by
  obtain ⟨first, rest, hpieces⟩ := List.exists_cons_of_ne_nil (Text.pieces_ne_nil '\n' text)
  have hstacked := stacked_divide 1 rest
  rw [blocks, hpieces]
  refine ⟨_, _, rfl, ⟨rfl, ?_⟩, fun next hmem => opens_of_mem_divide hmem⟩
  rwa [List.length_cons, Nat.zero_add, Nat.add_comm]

namespace Block

variable {block : Block} {source : String} {place : Token.Place}

theorem toOption_scanFrom_text (hline : place.line = block.firstLine) (hcolumn : place.column = 0) :
    (Token.scanFrom source place 0 block.text).toOption =
      (Token.scan (String.ofList block.inPlace)).toOption.map
        (List.map (Token.moved (Span.shifted source 0))) := by
  rw [scan_inPlace]
  exact Token.scanFrom_below ⟨by simpa using hline, hcolumn⟩ 0 block.text

end Block

end Layout

namespace TokenStream

variable {blocks : List Layout.Block} {source : String} {place : Token.Place} {index : Nat}

theorem toOption_scanBlocks_cons (block : Layout.Block) (blocks : List Layout.Block) :
    (scanBlocks (block :: blocks)).toOption =
      (Token.scan (String.ofList block.inPlace)).toOption.bind fun run =>
        (scanBlocks blocks).toOption.map (run :: ·) := by
  rw [scanBlocks]
  cases Token.scan (String.ofList block.inPlace) with
  | error failure => rfl
  | ok run => cases scanBlocks blocks <;> rfl

theorem toOption_scanFrom_join (hstacked : Layout.Stacked index blocks)
    (hlines : ∀ block ∈ blocks, block.lines ≠ [] ∧ ∀ line ∈ block.lines, '\n' ∉ line)
    (hfault : Alphabet.Faultless (Text.join '\n' (blocks.map Layout.Block.text)))
    (hline : place.line = index) (hcolumn : place.column = 0) :
    (Token.scanFrom source place 0 (Text.join '\n' (blocks.map Layout.Block.text))).toOption =
      (scanBlocks blocks).toOption.map fun runs =>
        runs.flatten.map (Token.moved (Span.shifted source 0)) := by
  induction blocks generalizing index place with
  | nil => rfl
  | cons block blocks ih =>
      obtain ⟨hfirst, hbelow⟩ := hstacked
      obtain ⟨⟨hne, hnewline⟩, hlines⟩ := List.forall_mem_cons.mp hlines
      have hblock : (Token.scanFrom source place 0 block.text).toOption = _ :=
        Layout.Block.toOption_scanFrom_text (hline.trans hfirst.symm) hcolumn
      rw [toOption_scanBlocks_cons, List.map_cons]
      by_cases hlast : blocks = []
      · subst hlast
        rw [List.map_nil, Text.join, hblock]
        cases (Token.scan (String.ofList block.inPlace)).toOption with
        | none => rfl
        | some run => simp [scanBlocks, Except.toOption]
      · have hmap : blocks.map Layout.Block.text ≠ [] := by simpa using hlast
        rw [List.map_cons, Text.join_cons hmap] at hfault
        obtain ⟨offset, hrest, hscan⟩ := Token.exists_scanFrom_newline (Nat.zero_le _) hfault
        rw [Text.join_cons hmap, hscan, hblock]
        rw [hblock] at hrest
        cases hrun : (Token.scan (String.ofList block.inPlace)).toOption with
        | none => rfl
        | some run =>
            let below : Token.Place := ⟨offset, place.line + (block.text.drop 0).count '\n' + 1, 0⟩
            have hheight : below.line = index + block.lines.length := by
              rw [← hline, ← Text.count_join hne hnewline]
              rfl
            rw [hrun] at hrest
            have hothers : (Token.scanFrom source below 0 _).toOption = _ :=
              ih hbelow hlines (hrest (Option.some_ne_none _)) hheight rfl
            simp only [Option.map_some, Option.bind_some, below, hothers, Option.map_map]
            congr 1
            funext runs
            simp

end TokenStream

namespace Token

variable {c previous : Char} {text rest : List Char} {kind : Kind} {n skipped : Nat}
  {source : String} {place : Place} {tokens : List Token}

/-- Whether a token can begin with the character. -/
def begins (c : Char) : Bool :=
  startsName c || c.isDigit || Text.isQuote c ||
    Kind.all.any fun kind => kind.letters.head? == some c

theorem begins_of_matchLength? (h : kind.matchLength? (c :: rest) = some n) : begins c = true := by
  simp only [begins, Bool.or_eq_true]
  rcases Kind.letters_ne_nil_of_matchLength? h with hspelled | ⟨hname, -⟩ | ⟨hdigit, -⟩ | rfl | rfl
  · obtain ⟨hfront, -⟩ := (Kind.matchLength?_eq_some hspelled).mp h
    obtain ⟨d, letters, hletters⟩ := List.exists_cons_of_ne_nil hspelled
    rw [hletters] at hfront
    obtain ⟨rfl, -⟩ := List.cons_prefix_cons.mp hfront
    exact .inr (List.any_eq_true.mpr ⟨kind, kind.mem_all, by simp [hletters]⟩)
  · exact .inl (.inl (.inl hname))
  · exact .inl (.inl (.inr hdigit))
  · exact .inl (.inr rfl)
  · exact .inl (.inr rfl)

theorem begins_of_isWhiteSpace (h : Text.isWhiteSpace c = true) : begins c = false := by
  have hall : Text.whiteSpaceRanges.all fun range =>
      (List.range' range.1 (range.2 + 1 - range.1)).all fun code => !begins (Char.ofNat code) := by
    decide +kernel
  obtain ⟨range, hrange, hwithin⟩ := List.any_eq_true.mp h
  simp only [Bool.and_eq_true, decide_eq_true_eq] at hwithin
  have hcode : c.toNat ∈ List.range' range.1 (range.2 + 1 - range.1) := by
    rw [List.mem_range'_1]
    omega
  have hc := List.all_eq_true.mp (List.all_eq_true.mp hall range hrange) c.toNat hcode
  rw [Char.ofNat_toNat] at hc
  simpa using hc

theorem byteLength_pos (h : text ≠ []) : 0 < Text.byteLength text := by
  obtain ⟨c, rest, rfl⟩ := List.exists_cons_of_ne_nil h
  exact Nat.add_pos_left c.utf8Size_pos _

theorem Place.column_afterBlank (h : (place.afterBlank c).column = 0) : c = '\n' := by
  rw [afterBlank] at h
  split at h
  · next hnewline => exact hnewline
  · cases h

theorem Place.column_afterLexeme (h : text ≠ []) : (place.afterLexeme text).column ≠ 0 := by
  have hpos := byteLength_pos h
  simp only [afterLexeme]
  omega

theorem cases_scanFrom (hblank : Text.isBlank c = false)
    (h : (scanFrom source place 0 (c :: rest)).toOption = some tokens) :
    begins c = true ∧ ∃ kind lexeme skipped others,
      lexeme ≠ [] ∧ tokens = ofLexeme source place kind lexeme :: others ∧
      (scanFrom source (place.afterLexeme lexeme) skipped rest).toOption = some others := by
  cases hlongest : longest? (c :: rest) with
  | none =>
      rw [scanFrom_none hblank hlongest] at h
      cases h
  | some found =>
      obtain ⟨kind, length⟩ := found
      have hmatch := matchLength?_of_longest? hlongest
      obtain ⟨hpos, -⟩ := length_of_matchLength? hmatch
      rw [scanFrom_lexeme hblank hlongest] at h
      obtain ⟨others, hothers, rfl⟩ := Option.map_eq_some_iff.mp h
      refine ⟨begins_of_matchLength? hmatch, kind, _, _, others, ?_, rfl, hothers⟩
      simpa using Nat.ne_of_gt hpos

theorem startColumn_ne_zero
    (hlines : (previous :: text).IsChain fun c d => c = '\n' → Text.isWhiteSpace d = true)
    (hplace : place.column = 0 → skipped = 0 ∧ previous = '\n')
    (h : (scanFrom source place skipped text).toOption = some tokens) :
    ∀ token ∈ tokens, token.span.startColumn ≠ 0 := by
  induction text generalizing previous place skipped tokens with
  | nil =>
      have hnone : tokens = [] := by cases skipped <;> exact (Option.some.inj h).symm
      rw [hnone]
      exact nofun
  | cons c rest ih =>
      obtain ⟨hc, hrest⟩ := List.isChain_cons_cons.mp hlines
      cases skipped with
      | succ skipped =>
          refine ih hrest (fun hzero => ?_) h
          cases (hplace hzero).1
      | zero =>
          by_cases hblank : Text.isBlank c = true
          · rw [scanFrom_blank hblank] at h
            exact ih hrest (fun hzero => ⟨rfl, Place.column_afterBlank hzero⟩) h
          · obtain ⟨hbegins, kind, lexeme, skipped, others, hne, rfl, hothers⟩ :=
              cases_scanFrom (Bool.eq_false_iff.mpr hblank) h
            refine List.forall_mem_cons.mpr ⟨fun hzero => ?_, ih hrest (fun hzero => ?_) hothers⟩
            · rw [begins_of_isWhiteSpace (hc (hplace hzero).2)] at hbegins
              cases hbegins
            · exact absurd hzero (Place.column_afterLexeme hne)

end Token

namespace Layout

theorem isWhiteSpace_of_head?_join {c : Char} {lines : List (List Char)}
    (hopens : ∀ line ∈ lines, opens line = false) (h : c ∈ (Text.join '\n' lines).head?) :
    Text.isWhiteSpace c = true := by
  cases lines with
  | nil => cases h
  | cons line lines =>
      obtain ⟨behind, hbehind⟩ := Text.exists_join_cons line lines
      cases line with
      | nil =>
          by_cases hlast : lines = []
          · subst hlast
            cases h
          · rw [Text.join_cons hlast] at h
            obtain rfl : '\n' = c := Option.some.inj h
            rfl
      | cons d line =>
          rw [hbehind] at h
          obtain rfl : d = c := Option.some.inj h
          simpa [opens] using hopens (d :: line) List.mem_cons_self

theorem isChain_join {lines : List (List Char)} (hnewline : ∀ line ∈ lines, '\n' ∉ line)
    (hopens : ∀ line ∈ lines.tail, opens line = false) :
    (Text.join '\n' lines).IsChain fun c d => c = '\n' → Text.isWhiteSpace d = true := by
  induction lines with
  | nil => exact .nil
  | cons line lines ih =>
      obtain ⟨hline, hlines⟩ := List.forall_mem_cons.mp hnewline
      have hchain : line.IsChain fun c d => c = '\n' → Text.isWhiteSpace d = true := by
        refine List.Pairwise.isChain (List.pairwise_of_forall_mem_list ?_)
        rintro c hc d - rfl
        exact absurd hc hline
      by_cases hlast : lines = []
      · subst hlast
        exact hchain
      · rw [Text.join_cons hlast, List.isChain_append, List.isChain_cons]
        refine ⟨hchain, ⟨fun d hd _ => isWhiteSpace_of_head?_join hopens hd, ?_⟩, ?_⟩
        · exact ih hlines fun line hmem => hopens line (List.mem_of_mem_tail hmem)
        · rintro c hc d - rfl
          exact absurd (List.mem_of_getLast? hc) hline

theorem Block.exists_text_of_opens {block : Block} {first : List Char} {rest : List (List Char)}
    (hlines : block.lines = first :: rest) (hopens : opens first = true) :
    ∃ c text, block.text = c :: text ∧ Text.isWhiteSpace c = false := by
  obtain ⟨behind, hbehind⟩ := Text.exists_join_cons first rest
  cases first with
  | nil => cases hopens
  | cons c first =>
      refine ⟨c, first ++ behind, ?_, by simpa [opens] using hopens⟩
      rw [text, hlines, hbehind, List.cons_append]

theorem Block.startColumn_run {block : Block} {run : List Token} (hwhole : block.Whole)
    (hnewline : ∀ line ∈ block.lines, '\n' ∉ line)
    (h : Token.scan (String.ofList block.inPlace) = .ok run) :
    (∀ token ∈ run.tail, token.span.startColumn ≠ 0) ∧
      ((∃ first rest, block.lines = first :: rest ∧ opens first = true) →
        ∃ token others, run = token :: others ∧ token.span.startColumn = 0) := by
  replace h := congrArg Except.toOption (block.scan_inPlace ▸ h)
  obtain ⟨first, rest, hfirst, hrest⟩ := hwhole
  have hchain : block.text.IsChain _ := isChain_join hnewline (by simpa [hfirst] using hrest)
  have hopening : (∃ first rest, block.lines = first :: rest ∧ opens first = true) → _ :=
    fun ⟨_, _, hlines, hopens⟩ => exists_text_of_opens hlines hopens
  generalize block.text = text at h hchain hopening
  cases text with
  | nil =>
      obtain rfl : [] = run := Option.some.inj h
      refine ⟨nofun, fun hopens => ?_⟩
      obtain ⟨c, text, htext, -⟩ := hopening hopens
      cases htext
  | cons c text =>
      by_cases hblank : Text.isBlank c = true
      · rw [Token.scanFrom_blank hblank] at h
        have hcolumns := Token.startColumn_ne_zero hchain
          (fun hzero => ⟨rfl, Token.Place.column_afterBlank hzero⟩) h
        refine ⟨fun token hmem => hcolumns token (List.mem_of_mem_tail hmem), fun hopens => ?_⟩
        obtain ⟨d, others, htext, hspace⟩ := hopening hopens
        obtain ⟨rfl, -⟩ := List.cons.inj htext
        rw [Text.isWhiteSpace_of_isBlank hblank] at hspace
        cases hspace
      · obtain ⟨-, kind, lexeme, skipped, others, hne, rfl, hothers⟩ :=
          Token.cases_scanFrom (Bool.eq_false_iff.mpr hblank) h
        refine ⟨Token.startColumn_ne_zero hchain (fun hzero => ?_) hothers, fun _ => ?_⟩
        · exact absurd hzero (Token.Place.column_afterLexeme hne)
        · exact ⟨_, others, rfl, rfl⟩

end Layout

namespace TokenStream

section Starts

variable {units : List (List Token)} {unit : List Token} {count index : Nat}

theorem pairwise_startsFrom (h : ∀ unit ∈ units, unit ≠ []) (count : Nat) :
    (startsFrom count units).Pairwise (· < ·) := by
  induction units generalizing count with
  | nil => exact .nil
  | cons unit units ih =>
      obtain ⟨hunit, hunits⟩ := List.forall_mem_cons.mp h
      refine .cons (fun start hmem => ?_) (ih hunits _)
      have hle := le_of_mem_startsFrom hmem
      have hpos := List.length_pos_iff.mpr hunit
      omega

theorem mem_startsFrom_cons {first : Token} {others : List Token}
    (hothers : ∀ other ∈ others, other.span.startColumn ≠ 0)
    (hunits : ∀ count index, count + index ∈ startsFrom count units ↔
      ∃ token, units.flatten[index]? = some token ∧ token.span.startColumn = 0)
    (hpos : 0 < index) :
    count + index ∈ startsFrom count ((first :: others) :: units) ↔
      ∃ token, ((first :: others) :: units).flatten[index]? = some token ∧
        token.span.startColumn = 0 := by
  have hne : count + index ≠ count := by omega
  rw [startsFrom, List.mem_cons, or_iff_right hne, List.flatten_cons]
  by_cases hinside : index < (first :: others).length
  · rw [List.getElem?_append_left hinside]
    refine iff_of_false (fun hmem => ?_) ?_
    · have hle := le_of_mem_startsFrom hmem
      omega
    · rintro ⟨token, htoken, hzero⟩
      obtain ⟨index, rfl⟩ := Nat.exists_eq_add_one.mpr hpos
      exact hothers token (List.mem_of_getElem? htoken) hzero
  · obtain ⟨further, rfl⟩ := Nat.exists_eq_add_of_le (Nat.le_of_not_lt hinside)
    rw [List.getElem?_append_right (Nat.le_add_right _ _), Nat.add_sub_cancel_left,
      ← Nat.add_assoc, hunits]

theorem mem_startsFrom_iff
    (h : ∀ unit ∈ units, ∃ token others, unit = token :: others ∧ token.span.startColumn = 0 ∧
      ∀ other ∈ others, other.span.startColumn ≠ 0) (count index : Nat) :
    count + index ∈ startsFrom count units ↔
      ∃ token, units.flatten[index]? = some token ∧ token.span.startColumn = 0 := by
  induction units generalizing count index with
  | nil => simp [startsFrom]
  | cons unit units ih =>
      obtain ⟨⟨first, others, rfl, hfirst, hothers⟩, hunits⟩ := List.forall_mem_cons.mp h
      cases index with
      | zero => simp [startsFrom, hfirst]
      | succ index => exact mem_startsFrom_cons hothers (ih hunits) (Nat.succ_pos index)

end Starts

theorem mem_unitStarts_ofRuns {run : List Token} {following : List (List Token)}
    (hrun : ∀ token ∈ run.tail, token.span.startColumn ≠ 0)
    (hfollowing : ∀ run ∈ following, ∃ token others, run = token :: others ∧
      token.span.startColumn = 0 ∧ ∀ other ∈ others, other.span.startColumn ≠ 0) (index : Nat) :
    index ∈ (ofRuns (run :: following)).unitStarts ↔
      ∃ token, (ofRuns (run :: following)).tokens[index]? = some token ∧
        (index = 0 ∨ token.span.startColumn = 0) := by
  have hstarts := mem_startsFrom_iff hfollowing
  have hfilter : following.filter (fun run => !run.isEmpty) = following := by
    refine List.filter_eq_self.mpr fun run hmem => ?_
    obtain ⟨token, others, rfl, -⟩ := hfollowing run hmem
    rfl
  cases run with
  | nil =>
      have hempty := hstarts 0 index
      rw [Nat.zero_add] at hempty
      simp only [ofRuns, List.filter_cons_of_neg, List.isEmpty_nil, Bool.not_true,
        Bool.false_eq_true, not_false_eq_true, hfilter, hempty, List.flatten_cons, List.nil_append]
      refine exists_congr fun token => and_congr_right fun htoken => (or_iff_right_of_imp ?_).symm
      rintro rfl
      cases following with
      | nil => cases htoken
      | cons unit units =>
          obtain ⟨first, others, rfl, hfirst, -⟩ := hfollowing _ List.mem_cons_self
          obtain rfl : first = token := Option.some.inj htoken
          exact hfirst
  | cons first others =>
      have hunits : (ofRuns ((first :: others) :: following)).unitStarts =
          startsFrom 0 ((first :: others) :: following) := by
        rw [ofRuns, List.filter_cons_of_pos rfl, hfilter]
      rw [hunits]
      cases index with
      | zero => simp [startsFrom, ofRuns]
      | succ index =>
          have hbehind : 0 + (index + 1) ∈ startsFrom 0 ((first :: others) :: following) ↔ _ :=
            mem_startsFrom_cons hrun hstarts (Nat.succ_pos index)
          simpa [ofRuns] using hbehind

variable {source : String}

theorem startColumn_of_scans {blocks : List Layout.Block} {runs : List (List Token)}
    (hscans : List.Forall₂ (fun block run => Token.scan (String.ofList block.inPlace) = .ok run)
      blocks runs)
    (hlines : ∀ block ∈ blocks, block.Whole ∧ ∀ line ∈ block.lines, '\n' ∉ line)
    (hopens : ∀ block ∈ blocks, ∃ first rest, block.lines = first :: rest ∧
      Layout.opens first = true) :
    ∀ run ∈ runs, ∃ token others, run = token :: others ∧ token.span.startColumn = 0 ∧
      ∀ other ∈ others, other.span.startColumn ≠ 0 := by
  induction hscans with
  | nil => exact nofun
  | @cons block run blocks runs hrun _ ih =>
      obtain ⟨⟨hwhole, hnewline⟩, hlines⟩ := List.forall_mem_cons.mp hlines
      obtain ⟨hopen, hopens⟩ := List.forall_mem_cons.mp hopens
      obtain ⟨htail, hhead⟩ := Layout.Block.startColumn_run hwhole hnewline hrun
      obtain ⟨token, others, rfl, htoken⟩ := hhead hopen
      exact List.forall_mem_cons.mpr ⟨⟨token, others, rfl, htoken, htail⟩, ih hlines hopens⟩

/-- Scanning block by block gives the tokens of the whole text, or fails with it. -/
theorem toOption_scan_blank
    (h : Alphabet.fault? (Comment.blankFrom .code source.toList) = none) :
    (Token.scan (Comment.blank source)).toOption = (ofSource source).toOption.map fun stream =>
      stream.tokens.map (Token.moved fun span => { span with source := Comment.blank source }) := by
  let text := Comment.blankFrom .code source.toList
  obtain ⟨block, following, hblocks, hstacked, -⟩ := Layout.exists_blocks text
  have hjoin := Layout.join_texts text
  have hlines (block : Layout.Block) (hmem : block ∈ Layout.blocks text) :
      block.lines ≠ [] ∧ ∀ line ∈ block.lines, '\n' ∉ line := by
    obtain ⟨⟨first, rest, hfirst, -⟩, hnewline⟩ := Layout.lines_of_mem_blocks hmem
    exact ⟨by simp [hfirst], hnewline⟩
  have hwhole : (Token.scanFrom (Comment.blank source) ⟨0, 0, 0⟩ 0 _).toOption = _ :=
    toOption_scanFrom_join (hblocks ▸ hstacked) hlines (hjoin.symm ▸ ⟨1, 0, h⟩) rfl rfl
  rw [hjoin] at hwhole
  rw [Token.scan, Comment.blank, String.toList_ofList, ofSource]
  simp only [h]
  rw [Comment.blank] at hwhole
  rw [hwhole]
  cases scanBlocks (Layout.blocks text) <;> rfl

/-- The units of a text begin at its first token and at the tokens at the beginnings of lines. -/
theorem unitStarts_ofSource {stream : TokenStream} (h : ofSource source = .ok stream) :
    stream.unitStarts.Pairwise (· < ·) ∧
      ∀ index, index ∈ stream.unitStarts ↔
        ∃ token, stream.tokens[index]? = some token ∧
          (index = 0 ∨ token.span.startColumn = 0) := by
  obtain ⟨-, runs, hruns, rfl⟩ := ofSource_eq_ok.mp h
  refine ⟨pairwise_startsFrom (divides_ofRuns runs).nonempty 0, ?_⟩
  have hlines : ∀ block ∈ Layout.blocks (Comment.blankFrom .code source.toList), _ :=
    fun block hmem => Layout.lines_of_mem_blocks hmem
  obtain ⟨block, following, hblocks, -, hopens⟩ :=
    Layout.exists_blocks (Comment.blankFrom .code source.toList)
  have hscans := scans_of_scanBlocks hruns
  rw [hblocks] at hscans hlines
  obtain ⟨hblock, hbelow⟩ := List.forall_mem_cons.mp hlines
  cases hscans with
  | @cons _ run _ others hrun hothers =>
      exact mem_unitStarts_ofRuns (Layout.Block.startColumn_run hblock.1 hblock.2 hrun).1
        (startColumn_of_scans hothers hbelow hopens)

/-- Units are scanned one by one, and this makes no difference: a text whose characters are all
right can be scanned unit by unit if and only if it can be scanned as a whole, and then the tokens
are the same and in the same places. Units begin at the first token and at those at the beginnings
of lines. -/
theorem ofSource_whole (h : Alphabet.fault? (Comment.blankFrom .code source.toList) = none) :
    ((∃ stream, ofSource source = .ok stream) ↔
      ∃ tokens, Token.scan (Comment.blank source) = .ok tokens) ∧
    ∀ stream tokens, ofSource source = .ok stream →
      Token.scan (Comment.blank source) = .ok tokens →
      tokens = stream.tokens.map
          (Token.moved fun span => { span with source := Comment.blank source }) ∧
        stream.unitStarts.Pairwise (· < ·) ∧
        ∀ index, index ∈ stream.unitStarts ↔
          ∃ token, stream.tokens[index]? = some token ∧
            (index = 0 ∨ token.span.startColumn = 0) := by
  have hwhole := toOption_scan_blank h
  cases hunits : ofSource source with
  | error error =>
      cases hscan : Token.scan (Comment.blank source) with
      | error failure => exact ⟨iff_of_false nofun nofun, nofun⟩
      | ok tokens =>
          rw [hunits, hscan] at hwhole
          cases hwhole
  | ok stream =>
      cases hscan : Token.scan (Comment.blank source) with
      | error failure =>
          rw [hunits, hscan] at hwhole
          cases hwhole
      | ok tokens =>
          rw [hunits, hscan] at hwhole
          refine ⟨iff_of_true ⟨stream, rfl⟩ ⟨tokens, rfl⟩, ?_⟩
          rintro _ _ ⟨rfl⟩ ⟨rfl⟩
          exact ⟨Option.some.inj hwhole, unitStarts_ofSource hunits⟩

/-- A comment, an empty line within a unit, and a literal with a quote and dashes in it. -/
theorem ofSource_whole_literal :
    Alphabet.fault? (Comment.blankFrom .code "f x =\n\n  x -- a\ns = \"\\\"--\"".toList) = none ∧
      ∃ stream, ofSource "f x =\n\n  x -- a\ns = \"\\\"--\"" = .ok stream ∧
        Token.scan (Comment.blank "f x =\n\n  x -- a\ns = \"\\\"--\"") =
          .ok (stream.tokens.map (Token.moved fun span =>
            { span with source := Comment.blank "f x =\n\n  x -- a\ns = \"\\\"--\"" })) ∧
        stream.tokens.map (·.span.line) = [0, 0, 0, 2, 3, 3, 3] ∧ stream.unitStarts = [0, 4] := by
  have hread : Alphabet.fault?
        (Comment.blankFrom .code "f x =\n\n  x -- a\ns = \"\\\"--\"".toList) = none ∧
      (ofSource "f x =\n\n  x -- a\ns = \"\\\"--\"").toOption.any (fun stream =>
        stream.tokens.map (·.span.line) = [0, 0, 0, 2, 3, 3, 3] &&
          stream.unitStarts = [0, 4]) = true := by
    decide +kernel
  obtain ⟨hfault, hstream⟩ := hread
  obtain ⟨hboth, hsame⟩ := ofSource_whole hfault
  refine ⟨hfault, ?_⟩
  cases hunits : ofSource "f x =\n\n  x -- a\ns = \"\\\"--\"" with
  | error error =>
      rw [hunits] at hstream
      cases hstream
  | ok stream =>
      obtain ⟨tokens, htokens⟩ := hboth.mp ⟨stream, hunits⟩
      rw [hunits] at hstream
      obtain ⟨hlines, hstarts⟩ := Bool.and_eq_true_iff.mp hstream
      refine ⟨stream, rfl, ?_, of_decide_eq_true hlines, of_decide_eq_true hstarts⟩
      rw [htokens, (hsame stream tokens hunits htokens).1]

end TokenStream

end Viewlet
