import Mathlib.Data.List.Forall2
import Viewlet.Proofs.Reading.Blanking
import Viewlet.Proofs.Reading.ScannedText
import Viewlet.Proofs.Reading.Units

namespace Viewlet

namespace Text

variable {mark : Char} {text : List Char} {part : List Char} {parts others : List (List Char)}

theorem notMem_of_mem_pieces (h : part ∈ pieces mark text) : mark ∉ part := by
  induction text generalizing part with
  | nil =>
      obtain rfl := List.mem_singleton.mp h
      exact List.not_mem_nil
  | cons c text ih =>
      rw [pieces] at h
      split at h
      · rcases List.mem_cons.mp h with rfl | h
        · exact List.not_mem_nil
        · exact ih h
      · next hc =>
          obtain ⟨first, rest, hpieces⟩ := List.exists_cons_of_ne_nil (pieces_ne_nil mark text)
          rw [hpieces] at h
          rcases List.mem_cons.mp h with rfl | h
          · rw [List.mem_cons, not_or]
            exact ⟨Ne.symm hc, ih (hpieces ▸ List.mem_cons_self)⟩
          · exact ih (hpieces ▸ List.mem_cons_of_mem _ h)

theorem pieces_append (h : mark ∉ part) (text : List Char) :
    pieces mark (part ++ mark :: text) = part :: pieces mark text := by
  induction part with
  | nil => rw [List.nil_append, pieces, if_pos rfl]
  | cons c part ih =>
      rw [List.mem_cons, not_or] at h
      rw [List.cons_append, pieces, if_neg (Ne.symm h.1), ih h.2]

theorem pieces_join (hne : parts ≠ []) (h : ∀ part ∈ parts, mark ∉ part) :
    pieces mark (join mark parts) = parts := by
  induction parts with
  | nil => exact absurd rfl hne
  | cons part parts ih =>
      obtain ⟨hpart, hparts⟩ := List.forall_mem_cons.mp h
      cases parts with
      | nil => exact pieces_of_notMem hpart
      | cons next parts => rw [join, pieces_append hpart, ih (List.cons_ne_nil _ _) hparts]

theorem join_cons (hne : parts ≠ []) (part : List Char) :
    join mark (part :: parts) = part ++ mark :: join mark parts := by
  obtain ⟨next, parts, rfl⟩ := List.exists_cons_of_ne_nil hne
  rfl

theorem join_append (hparts : parts ≠ []) (hothers : others ≠ []) :
    join mark (parts ++ others) = join mark parts ++ mark :: join mark others := by
  induction parts with
  | nil => exact absurd rfl hparts
  | cons part parts ih =>
      cases parts with
      | nil => exact join_cons hothers part
      | cons next parts =>
          have hne := List.cons_ne_nil next parts
          calc join mark (part :: (next :: parts ++ others))
              = part ++ mark :: join mark (next :: parts ++ others) := join_cons (by simp) part
            _ = part ++ mark :: (join mark (next :: parts) ++ mark :: join mark others) := by
                rw [ih hne]
            _ = join mark (part :: next :: parts) ++ mark :: join mark others := by
                rw [join_cons hne, List.append_assoc, List.cons_append]

theorem join_flatten {groups : List (List (List Char))} (h : ∀ parts ∈ groups, parts ≠ []) :
    join mark groups.flatten = join mark (groups.map (join mark)) := by
  induction groups with
  | nil => rfl
  | cons parts groups ih =>
      obtain ⟨hparts, hgroups⟩ := List.forall_mem_cons.mp h
      cases groups with
      | nil => rw [List.flatten_singleton, List.map_singleton, join]
      | cons next groups =>
          have hnext : (next :: groups).flatten ≠ [] := by
            rw [List.flatten_cons]
            exact List.append_ne_nil_of_left_ne_nil (hgroups next List.mem_cons_self) _
          rw [List.flatten_cons, join_append hparts hnext, ih hgroups]
          rfl

end Text

namespace Layout

/-- The characters of a block. -/
def Block.text (block : Block) : List Char :=
  Text.join '\n' block.lines

/-- All lines of a block but the first continue it. -/
def Block.Whole (block : Block) : Prop :=
  ∃ first rest, block.lines = first :: rest ∧ ∀ line ∈ rest, opens line = false

variable {block : Block} {text : List Char}

theorem divide_spec (index : Nat) (lines : List (List Char)) :
    (divide index lines).1 ++ ((divide index lines).2.map (·.lines)).flatten = lines ∧
      (∀ line ∈ (divide index lines).1, opens line = false) ∧
      ∀ block ∈ (divide index lines).2, block.Whole := by
  induction lines generalizing index with
  | nil => exact ⟨rfl, nofun, nofun⟩
  | cons line lines ih =>
      obtain ⟨hlines, hcontinue, hblocks⟩ := ih (index + 1)
      simp only [divide]
      split
      · refine ⟨?_, nofun, List.forall_mem_cons.mpr ⟨⟨line, _, rfl, hcontinue⟩, hblocks⟩⟩
        exact congrArg (line :: ·) hlines
      · next hopens =>
          refine ⟨congrArg (line :: ·) hlines, ?_, hblocks⟩
          exact List.forall_mem_cons.mpr ⟨Bool.eq_false_iff.mpr hopens, hcontinue⟩

theorem blocks_spec (text : List Char) :
    ((blocks text).map (·.lines)).flatten = Text.pieces '\n' text ∧
      ∀ block ∈ blocks text, block.Whole := by
  obtain ⟨first, rest, hpieces⟩ := List.exists_cons_of_ne_nil (Text.pieces_ne_nil '\n' text)
  obtain ⟨hlines, hcontinue, hblocks⟩ := divide_spec 1 rest
  rw [blocks, hpieces]
  refine ⟨congrArg (first :: ·) hlines, ?_⟩
  exact List.forall_mem_cons.mpr ⟨⟨first, _, rfl, hcontinue⟩, hblocks⟩

theorem join_texts (text : List Char) :
    Text.join '\n' ((blocks text).map Block.text) = text := by
  obtain ⟨hlines, hblocks⟩ := blocks_spec text
  have hne : ∀ lines ∈ (blocks text).map (·.lines), lines ≠ [] := by
    rw [List.forall_mem_map]
    intro block hmem
    obtain ⟨first, rest, hfirst, -⟩ := hblocks block hmem
    rw [hfirst]
    exact List.cons_ne_nil _ _
  have hjoin : Text.join '\n' ((blocks text).map (·.lines)).flatten = _ := Text.join_flatten hne
  rw [hlines, Text.join_pieces, List.map_map] at hjoin
  exact hjoin.symm

theorem divide_of_continuing {lines : List (List Char)} (h : ∀ line ∈ lines, opens line = false)
    (index : Nat) : divide index lines = (lines, []) := by
  induction lines generalizing index with
  | nil => rfl
  | cons line lines ih =>
      obtain ⟨hline, hlines⟩ := List.forall_mem_cons.mp h
      rw [divide, ih hlines]
      simp only [hline, Bool.false_eq_true, if_false]

theorem lines_of_mem_blocks (h : block ∈ blocks text) :
    block.Whole ∧ ∀ line ∈ block.lines, '\n' ∉ line := by
  obtain ⟨hlines, hblocks⟩ := blocks_spec text
  refine ⟨hblocks block h, fun line hline => ?_⟩
  have hpiece : line ∈ Text.pieces '\n' text := by
    rw [← hlines]
    exact List.mem_flatten_of_mem (List.mem_map_of_mem h) hline
  exact Text.notMem_of_mem_pieces hpiece

theorem blocks_text (hmem : block ∈ blocks text) : blocks block.text = [⟨0, block.lines⟩] := by
  obtain ⟨⟨first, rest, hfirst, hcontinue⟩, hnewline⟩ := lines_of_mem_blocks hmem
  have hne : block.lines ≠ [] := by
    rw [hfirst]
    exact List.cons_ne_nil _ _
  rw [blocks, Block.text, Text.pieces_join hne hnewline, hfirst]
  dsimp only
  rw [divide_of_continuing hcontinue]

end Layout

theorem Derives.kind_unquoted {α : Type} {phrase : Phrase α} {tokens : List Token} {result : α}
    (h : Derives phrase tokens result) :
    ∀ token ∈ tokens, token.kind ≠ .string ∧ token.kind ≠ .char := by
  induction h with
  | @operand operators tiers op token tokens node hop hkind _ ih =>
      refine List.forall_mem_cons.mpr ⟨?_, ih⟩
      rw [hkind]
      cases op <;> exact ⟨Token.Kind.noConfusion, Token.Kind.noConfusion⟩
  | _ => simp_all [or_imp, forall_and]

namespace Reader

variable {reader : Reader} {node : Node} {tokens : List Token}

/-- The grammar of declarations reads exactly those units that the grammar of units reads as
declarations. -/
theorem readUnit_declaration_iff (h : reader.beginUnit.limit ≤ reader.tokens.length) :
    (reader.readUnit Parse.declaration).1 = .ok node ↔
      (reader.readUnit Parse.item).1 = .ok node ∧ ∃ name body, node = .declaration name body := by
  have hsees : reader.beginUnit.Sees reader.beginUnit.rest := ⟨rfl, h⟩
  constructor
  · intro hread
    have hderives := derives_of_finds Parse.declaration_finds hsees hread
    obtain ⟨name, body, hnode, -⟩ := readUnit_ensures
      (Parse.declaration_ensures Node.readable_isExpression) (Prod.ext hread rfl)
    exact ⟨readUnit_of_derives hsees hderives, name, body, hnode⟩
  · rintro ⟨hread, name, body, rfl⟩
    have hboth := (readUnit_declaration (Prod.ext hread rfl)).1
    rw [hboth]

theorem readAlone_declaration_iff :
    readAlone Parse.declaration tokens = .ok node ↔
      readAlone Parse.item tokens = .ok node ∧ ∃ name body, node = .declaration name body :=
  readUnit_declaration_iff (Nat.le_refl tokens.length)

theorem kind_unquoted_of_readAlone (h : readAlone Parse.item tokens = .ok node) :
    ∀ token ∈ tokens, token.kind ≠ .string ∧ token.kind ≠ .char :=
  (derives_of_readUnit (sees_ofTokens tokens) h).kind_unquoted

theorem readAlone_moved {parse : Parse Node} (hparse : ∀ p : Placement, p.Matches parse parse)
    (move : Span → Span) (tokens : List Token) :
    readAlone parse (tokens.map (Token.moved move)) =
      (readAlone parse tokens).mapError (SyntaxError.moved move) := by
  by_cases hne : tokens = []
  · subst hne
    rfl
  · let placed := ofTokens (tokens.map (Token.moved move)) []
    have hfits : (placed.tokens.take placed.limit).drop 0 = tokens.map (Token.moved move) :=
      List.take_length
    have hlimit : placed.limit = 0 + tokens.length := by
      rw [Nat.zero_add]
      exact List.length_map _
    let p : Placement := ⟨tokens, move, placed, 0, hfits, hlimit⟩
    have hbegin : placed.beginUnit = p.place (ofTokens tokens []) := rfl
    exact (Placement.readUnit_place (hparse p) hbegin hne).1

end Reader

namespace Session

variable {source : String} {node : Node} {tokens : List Token}

theorem readSingle_iff (hsource : TokenStream.ofSource source = .ok (.ofRuns [tokens]))
    (hne : tokens ≠ []) :
    readSingle source = .ok node ↔ Reader.readAlone Parse.item tokens = .ok node := by
  have hdivides : (TokenStream.ofRuns [tokens]).Divides [tokens] := by
    have hruns := TokenStream.divides_ofRuns [tokens]
    rwa [List.filter_cons_of_pos (by simpa using hne)] at hruns
  have hitem (p : Placement) : p.Matches Parse.item Parse.item := Placement.matches_item
  obtain ⟨hread, hafter⟩ := (Reader.ahead_ofStream hdivides).readUnit hitem
  have hdone : ((Reader.ofStream (.ofRuns [tokens])).readUnit Parse.item).2.isDone = true :=
    decide_eq_true (List.drop_eq_nil_iff.mp hafter.tokens)
  rw [readSingle, hsource, ← hread]
  dsimp only
  rcases hunit : (Reader.ofStream (.ofRuns [tokens])).readUnit Parse.item with
    ⟨error | found, after⟩
  · simp
  · rw [hunit] at hdone
    simp [hdone]

end Session

namespace Layout.Block

variable {block : Block} {node : Node} {tokens run : List Token} {behind : List Char}

theorem scan_inPlace (block : Block) :
    Token.scan (String.ofList block.inPlace) =
      Token.scanFrom (String.ofList block.inPlace)
        ⟨0 + block.firstLine, 0 + block.firstLine, 0⟩ 0 block.text := by
  rw [Token.scan, String.toList_ofList, inPlace, Token.scanFrom_newlines]
  rfl

theorem exists_scan_text (h : Token.scan (String.ofList block.inPlace) = .ok run) :
    ∃ move tokens, Token.scan (String.ofList block.text) = .ok tokens ∧
      run = tokens.map (Token.moved move) := by
  let source := String.ofList block.inPlace
  have hbelow : Token.Place.Below block.firstLine ⟨0, 0, 0⟩
      ⟨0 + block.firstLine, 0 + block.firstLine, 0⟩ := ⟨rfl, rfl⟩
  have hmoved : (Token.scan source).toOption =
      (Token.scan (String.ofList block.text)).toOption.map
        (List.map (Token.moved (Span.shifted source block.firstLine))) := by
    rw [block.scan_inPlace, Token.scan, String.toList_ofList]
    exact Token.scanFrom_below hbelow 0 block.text
  rw [h] at hmoved
  cases hscan : Token.scan (String.ofList block.text) with
  | error failure =>
      rw [hscan] at hmoved
      cases hmoved
  | ok tokens =>
      rw [hscan] at hmoved
      exact ⟨_, tokens, rfl, Option.some.inj hmoved⟩

theorem isQuote_of_scan_text (h : Token.scan (String.ofList block.text) = .ok tokens)
    (htokens : ∀ token ∈ tokens, token.kind ≠ .string ∧ token.kind ≠ .char) :
    ∀ c ∈ block.text, Text.isQuote c = false := by
  have hquotes := Token.isQuote_of_scanFrom h htokens
  rwa [List.drop_zero, String.toList_ofList] at hquotes

variable (hblock : blocks block.text = [⟨0, block.lines⟩])
  (hscan : Token.scan (String.ofList block.text) = .ok tokens)
  (hclean : Text.Clean (block.text ++ behind))
include hblock hscan hclean

theorem ofSource_text {stream : TokenStream} :
    TokenStream.ofSource (String.ofList block.text) = .ok stream ↔
      Alphabet.fault? block.text = none ∧ stream = .ofRuns [tokens] := by
  have hruns : TokenStream.scanBlocks [⟨0, block.lines⟩] = .ok [tokens] := by
    have hplace : String.ofList (inPlace ⟨0, block.lines⟩) = String.ofList block.text := rfl
    simp only [TokenStream.scanBlocks, hplace, hscan]
  rw [TokenStream.ofSource_eq_ok, String.toList_ofList, hclean.front, hblock, hruns]
  simp

/-- Alone and in its place, a block is the same declaration or none. -/
theorem readAlone_declaration_iff_readSingle (hne : tokens ≠ []) :
    Reader.readAlone Parse.declaration tokens = .ok node ↔
      Session.readSingle (String.ofList block.text) = .ok node ∧
        ∃ name body, node = .declaration name body := by
  rw [Reader.readAlone_declaration_iff]
  refine and_congr_left fun _ => ⟨fun hread => ?_, fun hread => ?_⟩
  · have hquotes := isQuote_of_scan_text hscan (Reader.kind_unquoted_of_readAlone hread)
    have hfault := Alphabet.fault?_eq_none (hclean.admits hquotes)
    have hsource := (ofSource_text hblock hscan hclean).mpr ⟨hfault, rfl⟩
    exact (Session.readSingle_iff hsource hne).mpr hread
  · cases hsource : TokenStream.ofSource (String.ofList block.text) with
    | error error =>
        rw [Session.readSingle, hsource] at hread
        cases hread
    | ok stream =>
        obtain ⟨-, rfl⟩ := (ofSource_text hblock hscan hclean).mp hsource
        exact (Session.readSingle_iff hsource hne).mp hread

end Layout.Block

/-- The texts of the blocks that hold a token, without their comments. -/
def unitTexts (source : String) : List String :=
  ((Layout.blocks (Comment.blankFrom .code source.toList)).map fun block =>
    String.ofList block.text).filter fun text => (Token.scan text).toOption ≠ some []

/-- The text is a single declaration. -/
def IsDeclaration (text : String) : Prop :=
  ∃ name body, Session.readSingle text = .ok (.declaration name body)

/-- Text by text, up to the first that is no declaration, the texts are the same declarations as
the units. -/
inductive Presents : List String → List (List Token) → Prop where
  | nil : Presents [] []
  | cons {text texts unit units} :
      (∀ node, Reader.readAlone Parse.declaration unit = .ok node ↔
        Session.readSingle text = .ok node ∧ ∃ name body, node = .declaration name body) →
      (IsDeclaration text → Presents texts units) → Presents (text :: texts) (unit :: units)

theorem TokenStream.scans_of_scanBlocks {blocks : List Layout.Block} {runs : List (List Token)}
    (h : scanBlocks blocks = .ok runs) :
    List.Forall₂ (fun block run => Token.scan (String.ofList block.inPlace) = .ok run)
      blocks runs := by
  induction blocks generalizing runs with
  | nil =>
      cases h
      exact .nil
  | cons block blocks ih =>
      rw [scanBlocks] at h
      split at h
      · cases h
      · next run hrun =>
          split at h
          · cases h
          · next others hothers =>
              cases h
              exact .cons hrun (ih hothers)

theorem Text.Clean.nil : Clean [] :=
  ⟨rfl, 1, 0, rfl⟩

theorem Text.Clean.others {text : List Char} {texts : List (List Char)}
    (h : Clean (join '\n' (text :: texts))) (hquotes : ∀ c ∈ text, isQuote c = false) :
    Clean (join '\n' texts) := by
  by_cases hne : texts = []
  · subst hne
    exact .nil
  · rw [join_cons hne, List.append_cons] at h
    refine h.tail (List.forall_mem_append.mpr ⟨hquotes, ?_⟩)
    exact List.forall_mem_singleton.mpr rfl

theorem Text.exists_join_cons (text : List Char) (texts : List (List Char)) :
    ∃ behind, join '\n' (text :: texts) = text ++ behind := by
  by_cases hne : texts = []
  · subst hne
    exact ⟨[], (List.append_nil text).symm⟩
  · exact ⟨_, join_cons hne text⟩

theorem presents_blocks {blocks : List Layout.Block} {runs : List (List Token)}
    (hscans : List.Forall₂ (fun block run => Token.scan (String.ofList block.inPlace) = .ok run)
      blocks runs)
    (hblocks : ∀ block ∈ blocks, Layout.blocks block.text = [⟨0, block.lines⟩])
    (hclean : Text.Clean (Text.join '\n' (blocks.map Layout.Block.text))) :
    Presents ((blocks.map fun block => String.ofList block.text).filter fun text =>
      (Token.scan text).toOption ≠ some []) (runs.filter fun run => !run.isEmpty) := by
  induction hscans with
  | nil => exact .nil
  | @cons block run blocks runs hrun _ ih =>
      obtain ⟨hblock, hothers⟩ := List.forall_mem_cons.mp hblocks
      obtain ⟨move, tokens, hscan, rfl⟩ := block.exists_scan_text hrun
      rw [List.map_cons]
      by_cases hne : tokens = []
      · subst hne
        rw [List.filter_cons_of_neg (by simp [hscan, Except.toOption]),
          List.filter_cons_of_neg (by simp)]
        exact ih hothers (hclean.others (Layout.Block.isQuote_of_scan_text hscan
          fun _ hmem => absurd hmem List.not_mem_nil))
      · rw [List.filter_cons_of_pos (by simpa [hscan, Except.toOption] using hne),
          List.filter_cons_of_pos (by simpa using hne)]
        obtain ⟨behind, hbehind⟩ := Text.exists_join_cons block.text (blocks.map Layout.Block.text)
        have hfront : Text.Clean (block.text ++ behind) := hbehind ▸ hclean
        have halone (node : Node) : Reader.readAlone Parse.declaration tokens = .ok node ↔ _ :=
          Layout.Block.readAlone_declaration_iff_readSingle hblock hscan hfront hne
        refine .cons (fun node => ?_) ?_
        · rw [Reader.readAlone_moved (fun _ => Placement.matches_declaration), ← halone]
          cases Reader.readAlone Parse.declaration tokens <;> simp [Except.mapError]
        · rintro ⟨name, body, hread⟩
          have hdeclaration := (halone _).mpr ⟨hread, name, body, rfl⟩
          have hitem := (Reader.readAlone_declaration_iff.mp hdeclaration).1
          -- a declaration has no quotes, so the blocks below it are as they are alone
          have hquotes := Layout.Block.isQuote_of_scan_text hscan
            (Reader.kind_unquoted_of_readAlone hitem)
          exact ih hothers (hclean.others hquotes)

theorem presents_unitTexts {source : String} {stream : TokenStream}
    (h : TokenStream.ofSource source = .ok stream) : Presents (unitTexts source) stream.units := by
  obtain ⟨hfault, runs, hruns, rfl⟩ := TokenStream.ofSource_eq_ok.mp h
  rw [(TokenStream.divides_ofRuns runs).units_eq]
  refine presents_blocks (TokenStream.scans_of_scanBlocks hruns)
    (fun block hmem => Layout.blocks_text hmem) ?_
  rw [Layout.join_texts]
  exact ⟨Comment.blankFrom_blankFrom .code _, 1, 0, hfault⟩

end Viewlet
