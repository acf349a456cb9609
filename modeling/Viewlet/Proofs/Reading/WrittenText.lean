import Viewlet.Proofs.Reading.GrammarCompleteness
import Viewlet.Proofs.Reading.LongestMatch
import Viewlet.Session

namespace Viewlet

/-- Whether a string or a comment opens nowhere in the text, if a character that `follow` allows
comes after it. -/
def Comment.isFree (follow : Char → Bool) : List Char → Bool
  | [] => true
  | [c] => c != '"' && c != '{' && (c != '-' || !follow '-')
  | c :: d :: rest => c != '"' && c != '{' && (c != '-' || d != '-') && isFree follow (d :: rest)

theorem Comment.blankFrom_cons {c : Char} {rest : List Char} (hquote : c ≠ '"')
    (hopen : c = '{' ∨ c = '-' → rest.head? ≠ some '-') :
    blankFrom .code (c :: rest) = c :: blankFrom .code rest := by
  rw [blankFrom]
  · exact hquote
  · rintro others hc rfl
    exact hopen (.inl hc) rfl
  · rintro others hc rfl
    exact hopen (.inr hc) rfl

theorem Comment.blankFrom_append {follow : Char → Bool} {text rest : List Char}
    (htext : isFree follow text = true) (hrest : ∀ c ∈ rest.head?, follow c = true) :
    blankFrom .code (text ++ rest) = text ++ blankFrom .code rest := by
  fun_induction isFree follow text with
  | case1 => rfl
  | case2 c =>
      simp only [Bool.and_eq_true, bne_iff_ne, ne_eq, Bool.or_eq_true] at htext
      obtain ⟨⟨hquote, hbrace⟩, hdash⟩ := htext
      refine blankFrom_cons hquote fun hopen hhead => ?_
      have hc := hopen.resolve_left hbrace
      have hfollow := hrest '-' hhead
      simp [hc, hfollow] at hdash
  | case3 c d others ih =>
      simp only [Bool.and_eq_true, bne_iff_ne, ne_eq, Bool.or_eq_true] at htext
      obtain ⟨⟨⟨hquote, hbrace⟩, hdash⟩, hothers⟩ := htext
      have hnext : c = '{' ∨ c = '-' → (d :: others ++ rest).head? ≠ some '-' := by
        intro hopen hhead
        rcases hdash with hne | hne
        · exact hne (hopen.resolve_left hbrace)
        · exact hne (Option.some.inj hhead)
      exact (blankFrom_cons hquote hnext).trans (congrArg (c :: ·) (ih hothers))

theorem Comment.isFree_of_forall {follow : Char → Bool} {text : List Char}
    (h : ∀ c ∈ text, c ≠ '"' ∧ c ≠ '{' ∧ c ≠ '-') : isFree follow text = true := by
  fun_induction isFree follow text with
  | case1 => rfl
  | case2 c => simp [h c]
  | case3 c d others ih =>
      obtain ⟨hc, hothers⟩ := List.forall_mem_cons.mp h
      simp [hc, ih hothers]

theorem Alphabet.fault?_eq_none {text : List Char}
    (h : ∀ c ∈ text, admits c = true) : fault? text = none := by
  have hfrom : ∀ line column, faultFrom? .code line column text = none := by
    induction text with
    | nil => intro line column; rfl
    | cons c text ih =>
        obtain ⟨hc, htext⟩ := List.forall_mem_cons.mp h
        intro line column
        rw [faultFrom?, if_pos hc]
        split
        · exact ih htext _ _
        · exact ih htext _ _
  exact hfrom 1 0

theorem Text.pieces_of_notMem {mark : Char} {text : List Char} (h : mark ∉ text) :
    pieces mark text = [text] := by
  induction text with
  | nil => rfl
  | cons c text ih =>
      rw [List.mem_cons, not_or] at h
      rw [pieces, if_neg (Ne.symm h.1), ih h.2]

theorem Layout.blocks_eq {text : List Char} (h : '\n' ∉ text) : blocks text = [⟨0, [text]⟩] := by
  rw [blocks, Text.pieces_of_notMem h]
  rfl

namespace Token

/-- Wherever the text stands, it begins with tokens that have the property and goes on with
`rest`. -/
def Cuts (text : List Char) (property : List Token → Prop) (rest : List Char) : Prop :=
  ∀ source place, ∃ tokens place', property tokens ∧
    scanFrom source place 0 text = (scanFrom source place' 0 rest).map (tokens ++ ·)

/-- There is one token, and it has the property. -/
def Single (property : Token → Prop) (tokens : List Token) : Prop :=
  ∃ token, tokens = [token] ∧ property token

/-- Tokens with the first property are followed by tokens with the second. -/
def Joined (first second : List Token → Prop) (tokens : List Token) : Prop :=
  ∃ left right, tokens = left ++ right ∧ first left ∧ second right

variable {text middle rest : List Char} {first second property : List Token → Prop}

theorem Cuts.append (h : Cuts text first middle) (h' : Cuts middle second rest) :
    Cuts text (Joined first second) rest := by
  intro source place
  obtain ⟨tokens, place', hfirst, hscan⟩ := h source place
  obtain ⟨tokens', place'', hsecond, hscan'⟩ := h' source place'
  refine ⟨tokens ++ tokens', place'', ⟨tokens, tokens', rfl, hfirst, hsecond⟩, ?_⟩
  rw [hscan, hscan']
  cases scanFrom source place'' 0 rest with
  | error failure => rfl
  | ok others => exact congrArg Except.ok (List.append_assoc tokens tokens' others).symm

theorem cuts_blank (h : Cuts text property rest) : Cuts (' ' :: text) property rest :=
  fun source place => h source (place.afterBlank ' ')

theorem cuts_lexeme {kind : Kind} {c : Char} {tail : List Char} (hblank : Text.isBlank c = false)
    (hlongest : longest? (c :: tail ++ rest) = some (kind, (c :: tail).length)) :
    Cuts (c :: tail ++ rest) (Single fun token =>
      token.kind = kind ∧ token.text = String.ofList (c :: tail)) rest := by
  intro source place
  have htake : (c :: (tail ++ rest)).take (c :: tail).length = c :: tail := List.take_left
  have hdrop : scanFrom source (place.afterLexeme (c :: tail)) ((c :: tail).length - 1)
      (tail ++ rest) = scanFrom source (place.afterLexeme (c :: tail)) 0 rest := by
    rw [scanFrom_skipped, List.length_cons, Nat.add_sub_cancel, List.drop_left]
  refine ⟨[ofLexeme source place kind (c :: tail)], place.afterLexeme (c :: tail),
    ⟨_, rfl, rfl, rfl⟩, ?_⟩
  rw [List.cons_append] at hlongest ⊢
  rw [scanFrom, if_neg (by simp [hblank])]
  simp only [hlongest, htake, hdrop]
  cases scanFrom source (place.afterLexeme (c :: tail)) 0 rest with
  | error failure => rfl
  | ok others => rfl

end Token

/-- What a stretch of text becomes if a character that `follow` allows, or the end, comes after
it: it stays as it is when comments are blanked, and its tokens have the property. -/
structure Written (follow : Char → Bool) (text : List Char) (property : List Token → Prop) :
    Prop where
  admitted : ∀ c ∈ text, Alphabet.admits c = true ∧ c ≠ '\n'
  kept : ∀ rest : List Char, (∀ c ∈ rest.head?, follow c = true) →
    Comment.blankFrom .code (text ++ rest) = text ++ Comment.blankFrom .code rest
  cuts : ∀ rest : List Char, (∀ c ∈ rest.head?, follow c = true) →
    Token.Cuts (text ++ rest) property rest

namespace Written

variable {follow follow' : Char → Bool} {text text' : List Char}
  {first second property : List Token → Prop}

theorem imp (h : Written follow text first) (himp : ∀ tokens, first tokens → property tokens) :
    Written follow text property := by
  refine ⟨h.admitted, h.kept, fun rest hrest source place => ?_⟩
  obtain ⟨tokens, place', hfirst, hscan⟩ := h.cuts rest hrest source place
  exact ⟨tokens, place', himp tokens hfirst, hscan⟩

theorem before (h : Written follow text property)
    (hfollow : ∀ c, follow' c = true → follow c = true) : Written follow' text property :=
  ⟨h.admitted, fun rest hrest => h.kept rest fun c hc => hfollow c (hrest c hc),
    fun rest hrest => h.cuts rest fun c hc => hfollow c (hrest c hc)⟩

theorem append (h : Written follow text first) (h' : Written follow' text' second)
    (hnext : text'.head?.any follow = true) :
    Written follow' (text ++ text') (Token.Joined first second) := by
  obtain ⟨c, hhead, hc⟩ := (Option.any_eq_true _ _).mp hnext
  obtain ⟨others, rfl⟩ := List.head?_eq_some_iff.mp hhead
  have hmeet : ∀ rest : List Char, ∀ d ∈ (c :: others ++ rest).head?, follow d = true := by
    intro rest d hd
    rwa [← Option.some.inj hd]
  refine ⟨?_, fun rest hrest => ?_, fun rest hrest => ?_⟩
  · exact List.forall_mem_append.mpr ⟨h.admitted, h'.admitted⟩
  · rw [List.append_assoc, h.kept _ (hmeet rest), h'.kept rest hrest, List.append_assoc]
  · rw [List.append_assoc]
    exact (h.cuts _ (hmeet rest)).append (h'.cuts rest hrest)

theorem space (h : Written follow text property) : Written follow (' ' :: text) property := by
  refine ⟨?_, fun rest hrest => ?_, fun rest hrest => Token.cuts_blank (h.cuts rest hrest)⟩
  · exact List.forall_mem_cons.mpr ⟨by decide, h.admitted⟩
  · rw [List.cons_append, Comment.blankFrom_cons (by decide) (fun hopen => by simp at hopen),
      h.kept rest hrest, List.cons_append]

end Written

section Lexemes

variable {kind : Token.Kind} {follow : Char → Bool} {text : List Char} {c : Char}

theorem written_lexeme (hadmitted : ∀ c ∈ text, Alphabet.admits c = true ∧ c ≠ '\n')
    (hfree : Comment.isFree follow text = true) (hhead : text.head?.any (!Text.isBlank ·) = true)
    (hlongest : ∀ rest : List Char, (∀ c ∈ rest.head?, follow c = true) →
      Token.longest? (text ++ rest) = some (kind, text.length)) :
    Written follow text (Token.Single fun token =>
      token.kind = kind ∧ token.text = String.ofList text) := by
  obtain ⟨c, hc, hblank⟩ := (Option.any_eq_true _ _).mp hhead
  obtain ⟨tail, rfl⟩ := List.head?_eq_some_iff.mp hc
  exact ⟨hadmitted, fun rest hrest => Comment.blankFrom_append hfree hrest,
    fun rest hrest => Token.cuts_lexeme (by simpa using hblank) (hlongest rest hrest)⟩

/-- Whether a name and a number end before the character. -/
def Token.isApart (c : Char) : Bool :=
  !continuesName c && c != '.'

/-- The characters that can go on with a symbol, or make it a comment. -/
def Token.marks : List Char :=
  ['-', '+', '>', '=', '|', ':']

/-- Whether a symbol ends before the character, and opens no comment with it. -/
def Token.isBare (c : Char) : Bool :=
  !marks.contains c

/-- Whether a symbol ends before the characters that `follow` allows. -/
def Token.Kind.standsBefore (kind : Token.Kind) (follow : Char → Bool) : Bool :=
  kind.isSymbol && kind.endsBefore follow && Comment.isFree follow kind.letters

theorem Token.ne_of_continuesName (h : continuesName c = true) (d : Char)
    (hd : continuesName d = false) : c ≠ d := by
  rintro rfl
  rw [hd] at h
  cases h

theorem Token.ordinary_of_continuesName (h : continuesName c = true) :
    Alphabet.admits c = true ∧ Text.isBlank c = false ∧
      c ≠ '\n' ∧ c ≠ '"' ∧ c ≠ '{' ∧ c ≠ '-' := by
  have hne := ne_of_continuesName h
  have hblank : Text.isBlank c = false := by
    simp only [Text.isBlank, Bool.or_eq_false_iff, beq_eq_false_iff_ne, ne_eq]
    exact ⟨⟨⟨⟨hne _ rfl, hne _ rfl⟩, hne _ rfl⟩, hne _ rfl⟩, hne _ rfl⟩
  refine ⟨?_, hblank, hne _ rfl, hne _ rfl, hne _ rfl, hne _ rfl⟩
  rw [continuesName, Bool.or_eq_true] at h
  rcases h with halphanum | hunderscore
  · simp [Alphabet.admits, halphanum]
  · simp [Alphabet.admits, hunderscore]

theorem written_run (hne : text ≠ []) (htext : text.all Token.continuesName = true)
    (hlongest : ∀ rest : List Char, (∀ c ∈ rest.head?, Token.isApart c = true) →
      Token.longest? (text ++ rest) = some (kind, text.length)) :
    Written Token.isApart text (Token.Single fun token =>
      token.kind = kind ∧ token.text = String.ofList text) := by
  have hordinary := fun c hc => Token.ordinary_of_continuesName (List.all_eq_true.mp htext c hc)
  refine written_lexeme (fun c hc => ⟨(hordinary c hc).1, (hordinary c hc).2.2.1⟩)
    (Comment.isFree_of_forall fun c hc => (hordinary c hc).2.2.2) ?_ hlongest
  obtain ⟨c, tail, rfl⟩ := List.exists_cons_of_ne_nil hne
  simp [(hordinary c List.mem_cons_self).2.1]

theorem Token.all_continuesName (h : isIdentifier text = true) : text.all continuesName = true := by
  cases text with
  | nil => rfl
  | cons c tail =>
      obtain ⟨hc, htail⟩ := Bool.and_eq_true_iff.mp h
      rw [List.all_cons, htail, Bool.and_true]
      rw [startsName, Bool.or_eq_true] at hc
      rcases hc with halpha | hunderscore
      · simp [continuesName, Char.isAlphanum, halpha]
      · simp [continuesName, hunderscore]

theorem Token.continuesName_of_isDigit (h : c.isDigit = true) : continuesName c = true := by
  simp [continuesName, Char.isAlphanum, h]

theorem Token.all_continuesName_of_isDigit (h : text.all Char.isDigit = true) :
    text.all continuesName = true :=
  List.all_eq_true.mpr fun c hc => continuesName_of_isDigit (List.all_eq_true.mp h c hc)

theorem Token.isApart_eq_true :
    isApart c = true ↔ continuesName c = false ∧ c ≠ '.' := by
  simp [isApart]

theorem written_word (kind : Token.Kind) (hword : Token.isIdentifier kind.letters = true) :
    Written Token.isApart kind.letters (Token.Single fun token => token.kind = kind) := by
  have hrun : Written Token.isApart kind.letters (Token.Single fun token =>
      token.kind = kind ∧ token.text = String.ofList kind.letters) := by
    refine written_run (Token.ne_nil_of_isIdentifier hword) (Token.all_continuesName hword)
      fun rest hrest => Token.longest?_word hword fun c hc => ?_
    exact (Token.isApart_eq_true.mp (hrest c hc)).1
  refine hrun.imp ?_
  rintro tokens ⟨token, rfl, hkind, -⟩
  exact ⟨token, rfl, hkind⟩

/-- Whether the text is a name: it has the form of one and is no word of the language. -/
def Token.isName (text : String) : Bool :=
  isIdentifier text.toList && Kind.all.all fun kind => kind.spelling? != some text

theorem written_name {name : String} (h : Token.isName name = true) :
    Written Token.isApart name.toList (Token.Single fun token =>
      token.kind = .name ∧ token.text = name) := by
  obtain ⟨hidentifier, hfree⟩ := Bool.and_eq_true_iff.mp h
  have hne := Token.ne_nil_of_isIdentifier hidentifier
  have hletters : ∀ kind : Token.Kind, kind.letters ≠ name.toList := by
    intro kind hsame
    have hkind := List.all_eq_true.mp hfree kind kind.mem_all
    cases hspelling : kind.spelling? with
    | none =>
        rw [Token.Kind.letters, hspelling] at hsame
        exact hne hsame.symm
    | some text =>
        rw [Token.Kind.letters, hspelling, Option.getD_some, String.toList_inj] at hsame
        simp [hspelling, hsame] at hkind
  have hrun := written_run hne (Token.all_continuesName hidentifier) fun rest hrest =>
    Token.longest?_name hidentifier
      (fun c hc => (Token.isApart_eq_true.mp (hrest c hc)).1) hletters
  rwa [String.ofList_toList] at hrun

theorem written_digits (hne : text ≠ []) (htext : text.all Char.isDigit = true) :
    Written Token.isApart text (Token.Single fun token =>
      token.kind = .integer ∧ token.text = String.ofList text) := by
  refine written_run hne (Token.all_continuesName_of_isDigit htext) fun rest hrest =>
    Token.longest?_digits hne htext fun c hc => ?_
  obtain ⟨hapart, hpoint⟩ := Token.isApart_eq_true.mp (hrest c hc)
  refine ⟨?_, hpoint⟩
  cases hdigit : c.isDigit with
  | false => rfl
  | true =>
      rw [Token.continuesName_of_isDigit hdigit] at hapart
      cases hapart

theorem written_symbol (kind : Token.Kind) (follow : Char → Bool)
    (h : kind.standsBefore follow = true) :
    Written follow kind.letters (Token.Single fun token => token.kind = kind) := by
  obtain ⟨hstands, hfree⟩ := Bool.and_eq_true_iff.mp h
  obtain ⟨hsymbol, hends⟩ := Bool.and_eq_true_iff.mp hstands
  have hall : Token.Kind.all.all fun kind => kind.letters.all fun c =>
      Alphabet.admits c = true ∧ c ≠ '\n' ∧ Text.isBlank c = false := by decide +kernel
  have hletters : ∀ c ∈ kind.letters,
      Alphabet.admits c = true ∧ c ≠ '\n' ∧ Text.isBlank c = false := fun c hc =>
    of_decide_eq_true
      (List.all_eq_true.mp (List.all_eq_true.mp hall kind kind.mem_all) c hc)
  have hlexeme : Written follow kind.letters (Token.Single fun token =>
      token.kind = kind ∧ token.text = String.ofList kind.letters) := by
    refine written_lexeme (fun c hc => ⟨(hletters c hc).1, (hletters c hc).2.1⟩) hfree ?_
      fun rest hrest => Token.longest?_symbol hsymbol hends hrest
    obtain ⟨c, hhead, -⟩ := (Option.any_eq_true _ _).mp hsymbol
    have hblank := (hletters c (List.mem_of_head? hhead)).2.2
    simp [hhead, hblank]
  refine hlexeme.imp ?_
  rintro tokens ⟨token, rfl, hkind, -⟩
  exact ⟨token, rfl, hkind⟩

theorem written_bare (kind : Token.Kind) (hsymbol : kind.isSymbol = true)
    (hbrace : kind ≠ .leftBrace) :
    Written Token.isBare kind.letters (Token.Single fun token => token.kind = kind) := by
  have hall : Token.Kind.all.all fun kind =>
      !kind.isSymbol || kind = .leftBrace || kind.standsBefore Token.isBare := by decide +kernel
  have hkind := List.all_eq_true.mp hall kind kind.mem_all
  exact written_symbol kind Token.isBare (by simpa [hsymbol, hbrace] using hkind)

end Lexemes

section Sources

variable {follow : Char → Bool} {source : String} {property : List Token → Prop} {node : Node}

theorem Written.ofSource (h : Written follow source.toList property) :
    ∃ tokens, property tokens ∧ TokenStream.ofSource source = .ok (.ofRuns [tokens]) := by
  have hkept : Comment.blankFrom .code source.toList = source.toList := by
    have hblank := h.kept [] (fun c hc => by cases hc)
    rwa [List.append_nil, Comment.blankFrom, List.append_nil] at hblank
  have hfault : Alphabet.fault? source.toList = none :=
    Alphabet.fault?_eq_none fun c hc => (h.admitted c hc).1
  have hblocks : Layout.blocks source.toList = [⟨0, [source.toList]⟩] :=
    Layout.blocks_eq fun hmem => (h.admitted _ hmem).2 rfl
  obtain ⟨tokens, place, hproperty, hscan⟩ := h.cuts [] (fun c hc => by cases hc) source ⟨0, 0, 0⟩
  rw [List.append_nil, Token.scanFrom] at hscan
  have htokens : Token.scan source = .ok tokens := by
    rw [Token.scan, hscan]
    exact congrArg Except.ok (List.append_nil tokens)
  have hplace : String.ofList (Layout.Block.inPlace ⟨0, [source.toList]⟩) = source :=
    String.ofList_toList
  refine ⟨tokens, hproperty, ?_⟩
  simp only [TokenStream.ofSource, hkept, hfault, hblocks, TokenStream.scanBlocks, hplace, htokens]
  rfl

theorem Reader.readAll_of_derives {reader : Reader} {tokens : List Token}
    (hunit : reader.beginUnit.Sees tokens) (hlimit : reader.beginUnit.limit = reader.tokens.length)
    (h : Derives .item tokens node) :
    ∃ after, reader.readUnit Parse.item = (.ok node, after) ∧ after.isDone = true ∧
      (reader.readAll Parse.item).1 = [.ok node] := by
  obtain ⟨after, hread, hsame, hnext⟩ := exists_readUnit_of_derives hunit h
  have hdone : after.isDone = true := by
    have htokens : after.tokens = reader.tokens := hsame.1
    simpa [isDone, hasNext, htokens, hsame.2, hlimit] using hnext
  refine ⟨after, hread, hdone, ?_⟩
  have hlength : 0 < reader.beginUnit.limit - reader.index :=
    hunit.remaining ▸ List.length_pos_iff.mpr (h.ne_nil rfl)
  obtain ⟨count, hcount⟩ : ∃ count, reader.tokens.length = count + 1 :=
    Nat.exists_eq_add_one.mpr (by omega)
  have hmore : reader.isDone = false := by
    simp only [isDone, decide_eq_false_iff_not]
    omega
  rw [readAll, hcount, readUpTo, hmore, hread]
  simp only [readUpTo_of_isDone hdone, Bool.false_eq_true, if_false]

/-- A text whose tokens derive from the grammar is read as what they denote. -/
theorem Written.reads (h : Written follow source.toList (Derives .item · node)) :
    readProgram source = .ok ([node], []) ∧ Session.readSingle source = .ok node := by
  obtain ⟨tokens, hderives, hsource⟩ := h.ofSource
  obtain ⟨token, others, rfl⟩ := List.exists_cons_of_ne_nil (hderives.ne_nil rfl)
  have hstream : TokenStream.ofRuns [token :: others] = ⟨token :: others, [0]⟩ := by
    simp [TokenStream.ofRuns, TokenStream.startsFrom]
  rw [hstream] at hsource
  have hunit : (Reader.ofStream ⟨token :: others, [0]⟩).beginUnit.Sees (token :: others) :=
    ⟨List.take_length, Nat.le_refl (token :: others).length⟩
  obtain ⟨after, hread, hdone, hall⟩ := Reader.readAll_of_derives hunit rfl hderives
  constructor
  · rw [readProgram, hsource]
    exact congrArg (Except.ok ∘ separate) hall
  · rw [Session.readSingle, hsource]
    simp only [hread, hdone, if_true]

end Sources

end Viewlet
