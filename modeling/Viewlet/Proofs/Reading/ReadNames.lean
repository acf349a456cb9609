import Viewlet.Proofs.Evaluation.Rebinding
import Viewlet.Proofs.Reading.GrammarCompleteness
import Viewlet.Proofs.Reading.LineBreaks
import Viewlet.Proofs.Reading.UnitTexts

namespace Viewlet

namespace Token

section Scanned

variable {source : String} {place : Place} {skipped n : Nat} {text : List Char} {token : Token}
  {tokens : List Token}

theorem exists_longest?_of_scanFrom
    (h : (scanFrom source place skipped text).toOption = some tokens) (hmem : token ∈ tokens) :
    ∃ rest n, longest? rest = some (token.kind, n) ∧ token.text = String.ofList (rest.take n) := by
  induction text generalizing place skipped tokens with
  | nil =>
      have hnone : tokens = [] := by cases skipped <;> exact (Option.some.inj h).symm
      rw [hnone] at hmem
      exact absurd hmem List.not_mem_nil
  | cons c rest ih =>
      cases skipped with
      | succ skipped => exact ih h hmem
      | zero =>
          by_cases hblank : Text.isBlank c = true
          · rw [scanFrom_blank hblank] at h
            exact ih h hmem
          · rw [Bool.not_eq_true] at hblank
            cases hlongest : longest? (c :: rest) with
            | none =>
                rw [scanFrom_none hblank hlongest] at h
                cases h
            | some found =>
                obtain ⟨kind, length⟩ := found
                rw [scanFrom_lexeme hblank hlongest] at h
                obtain ⟨others, hothers, rfl⟩ := Option.map_eq_some_iff.mp h
                rcases List.mem_cons.mp hmem with rfl | hmem
                · exact ⟨c :: rest, length, hlongest, rfl⟩
                · exact ih hothers hmem

theorem isIdentifier_of_nameLength? (h : nameLength? text = some n) :
    isIdentifier (text.take n) = true := by
  cases text with
  | nil => cases h
  | cons c rest =>
      rw [nameLength?] at h
      split at h
      · next hstart =>
          obtain rfl := Option.some.inj h
          have hfront : rest.take (rest.takeWhile continuesName).length =
              rest.takeWhile continuesName :=
            (List.prefix_iff_eq_take.mp (List.takeWhile_prefix continuesName)).symm
          rw [Nat.add_comm, List.take_succ_cons, hfront, isIdentifier, hstart, Bool.true_and]
          exact List.all_takeWhile
      · cases h

theorem isIdentifier_of_scan (h : scan source = .ok tokens) (hmem : token ∈ tokens)
    (hkind : token.kind = .name) : isIdentifier token.text.toList = true := by
  rw [scan] at h
  obtain ⟨rest, n, hlongest, htext⟩ :=
    exists_longest?_of_scanFrom (congrArg Except.toOption h) hmem
  rw [htext, String.toList_ofList]
  rw [hkind] at hlongest
  exact isIdentifier_of_nameLength? (matchLength?_of_longest? hlongest)

end Scanned

/-- The texts of the tokens that are names and not capitalized. -/
def smallNames (tokens : List Token) : List String :=
  (tokens.filter fun token => token.kind == .name && !isCapitalized token.text).map (·.text)

theorem mem_smallNames_append {tokens tokens' : List Token} {x : String} :
    x ∈ smallNames (tokens ++ tokens') ↔ x ∈ smallNames tokens ∨ x ∈ smallNames tokens' := by
  rw [smallNames, List.filter_append, List.map_append, List.mem_append]
  rfl

theorem mem_smallNames_cons {token : Token} {tokens : List Token} {x : String}
    (h : x ∈ smallNames tokens) : x ∈ smallNames (token :: tokens) :=
  mem_smallNames_append.mpr (.inr h : x ∈ smallNames [token] ∨ x ∈ smallNames tokens)

end Token

namespace Node

attribute [local simp] names namesAll

variable {x : String} {node : Node}

theorem mem_names_foldl {α : Type} {f : Node → α → Node} {part : α → List String}
    (hf : ∀ node a, x ∈ (f node a).names → x ∈ node.names ∨ x ∈ part a) {parts : List α}
    (h : x ∈ (parts.foldl f node).names) : x ∈ node.names ∨ ∃ a ∈ parts, x ∈ part a := by
  induction parts generalizing node with
  | nil => exact .inl h
  | cons a parts ih =>
      rcases ih h with h | ⟨b, hmem, hb⟩
      · exact (hf node a h).imp_right fun ha => ⟨a, List.mem_cons_self, ha⟩
      · exact .inr ⟨b, List.mem_cons_of_mem _ hmem, hb⟩

theorem mem_names_curried {parameters : List String} {body : Node}
    (h : x ∈ (curried parameters body).names) : x ∈ parameters ∨ x ∈ body.names := by
  induction parameters with
  | nil => exact .inr h
  | cons parameter parameters ih =>
      rcases List.mem_cons.mp h with rfl | h
      · exact .inl List.mem_cons_self
      · exact (ih h).imp_left (List.mem_cons_of_mem _)

theorem names_negate (node : Node) : (Parse.negate node).names = node.names := by
  cases node <;> simp [Parse.negate]

end Node

/-- The names of variables, parameters and declarations in what a phrase denotes. -/
def Phrase.names : {α : Type} → Phrase α → α → List String
  | _, .many phrase, results => results.flatMap phrase.names
  | _, .name, text => [text]
  | _, .operand _ _, result => result.2.names
  | _, .arms, result => Node.namesAll result.1 ++ Node.namesAll result.2
  | _, .callee, node => node.names
  | _, .atom, node => node.names
  | _, .application, node => node.names
  | _, .unary, node => node.names
  | _, .operation _, node => node.names
  | _, .step, node => node.names
  | _, .plain, node => node.names
  | _, .expression, node => node.names
  | _, .item, node => node.names
  | _, .capitalized, _ => []
  | _, .field, _ => []
  | _, .constructor _, _ => []
  | _, .alternative _, _ => []

theorem Derives.mem_smallNames {α : Type} {phrase : Phrase α} {tokens : List Token} {result : α}
    (h : Derives phrase tokens result) {x : String} (hx : x ∈ phrase.names result) :
    x ∈ Token.smallNames tokens := by
  induction h with
  | nil => exact absurd hx List.not_mem_nil
  | cons _ _ ihf ihr =>
      rw [Token.mem_smallNames_append]
      rw [Phrase.names, List.flatMap_cons, List.mem_append] at hx
      exact hx.imp ihf ihr
  | name hkind hplain =>
      rw [Phrase.names, List.mem_singleton] at hx
      simp [Token.smallNames, hkind, hplain, hx]
  | var _ _ ih =>
      refine ih ?_
      simpa [Phrase.names, Node.names] using hx
  | parentheses _ _ _ ih =>
      exact Token.mem_smallNames_cons (Token.mem_smallNames_append.mpr (.inl (ih hx)))
  | callee _ ih => exact ih hx
  | call _ _ ihc iha =>
      rw [Token.mem_smallNames_append]
      rcases Node.mem_names_foldl (fun _ _ => List.mem_append.mp) hx with hx | ⟨argument, hmem, hx⟩
      · exact .inl (ihc hx)
      · exact .inr (iha (List.mem_flatMap.mpr ⟨argument, hmem, hx⟩))
  | construction _ _ _ iha =>
      obtain ⟨argument, hmem, hx⟩ := Node.mem_namesAll.mp hx
      rw [Token.mem_smallNames_append]
      exact .inr (iha (List.mem_flatMap.mpr ⟨argument, hmem, hx⟩))
  | not _ _ _ ih => exact Token.mem_smallNames_cons (ih hx)
  | minus _ _ ih =>
      rw [Phrase.names, Node.names_negate] at hx
      exact Token.mem_smallNames_cons (ih hx)
  | unsigned _ ih => exact ih hx
  | unary _ ih => exact ih hx
  | operand _ _ _ ih => exact Token.mem_smallNames_cons (ih hx)
  | operation _ _ ihl ihr =>
      rw [Token.mem_smallNames_append]
      rcases Node.mem_names_foldl (fun _ _ => List.mem_append.mp) hx with hx | ⟨right, hmem, hx⟩
      · exact .inl (ihl hx)
      · exact .inr (ihr (List.mem_flatMap.mpr ⟨right, hmem, hx⟩))
  | step _ _ ih => exact Token.mem_smallNames_cons (ih hx)
  | piped _ _ iha ihc =>
      rw [Token.mem_smallNames_append]
      rcases Node.mem_names_foldl (fun _ _ hx => (List.mem_append.mp hx).symm) hx with
        hx | ⟨callee, hmem, hx⟩
      · exact .inl (iha hx)
      · exact .inr (ihc (List.mem_flatMap.mpr ⟨callee, hmem, hx⟩))
  | applied _ _ _ ihc iha =>
      rw [Token.mem_smallNames_append]
      exact (List.mem_append.mp hx).imp ihc fun hx => Token.mem_smallNames_cons (iha hx)
  | lambda _ _ _ _ _ ihp ihs ihb =>
      refine Token.mem_smallNames_cons ?_
      rw [Token.mem_smallNames_append, Token.mem_smallNames_append]
      rcases Node.mem_names_curried hx with hx | hx
      · rcases List.mem_cons.mp hx with rfl | hx
        · exact .inl (ihp List.mem_cons_self)
        · exact .inr (.inl (ihs (List.mem_flatMap.mpr ⟨x, hx, List.mem_cons_self⟩)))
      · exact .inr (.inr (Token.mem_smallNames_cons (ihb hx)))
  | lastArm _ _ _ _ _ ihc ihb iho =>
      simp only [Phrase.names, Node.namesAll, List.append_nil, List.mem_append] at hx
      rw [Token.mem_smallNames_append]
      rcases hx with hx | hx
      · exact .inl (ihc hx)
      · refine .inr (Token.mem_smallNames_cons (Token.mem_smallNames_append.mpr ?_))
        exact hx.imp ihb fun hx => Token.mem_smallNames_cons (iho hx)
  | arm _ _ _ _ _ _ ihc ihb ihr =>
      simp only [Phrase.names, Node.namesAll, List.mem_append] at hx ihr
      rw [Token.mem_smallNames_append]
      rcases hx with (hx | hx) | hx | hx
      · exact .inl (ihc hx)
      · refine .inr (Token.mem_smallNames_cons (Token.mem_smallNames_append.mpr (.inr ?_)))
        exact Token.mem_smallNames_cons (Token.mem_smallNames_cons (ihr (.inl hx)))
      · exact .inr (Token.mem_smallNames_cons (Token.mem_smallNames_append.mpr (.inl (ihb hx))))
      · refine .inr (Token.mem_smallNames_cons (Token.mem_smallNames_append.mpr (.inr ?_)))
        exact Token.mem_smallNames_cons (Token.mem_smallNames_cons (ihr (.inr hx)))
  | plain _ ih => exact ih hx
  | conditional _ _ ih => exact Token.mem_smallNames_cons (ih hx)
  | expression _ ih => exact ih hx
  | declaration _ _ _ _ ihn ihp ihb =>
      rw [Token.mem_smallNames_append, Token.mem_smallNames_append]
      rcases List.mem_cons.mp hx with rfl | hx
      · exact .inl (ihn List.mem_cons_self)
      · rcases Node.mem_names_curried hx with hx | hx
        · exact .inr (.inl (ihp (List.mem_flatMap.mpr ⟨x, hx, List.mem_cons_self⟩)))
        · exact .inr (.inr (Token.mem_smallNames_cons (ihb hx)))
  | _ => exact absurd hx List.not_mem_nil

theorem TokenStream.isIdentifier_of_scanBlocks {blocks : List Layout.Block}
    {runs : List (List Token)} (h : scanBlocks blocks = .ok runs) {run : List Token}
    (hrun : run ∈ runs) {token : Token} (hmem : token ∈ run) (hkind : token.kind = .name) :
    Token.isIdentifier token.text.toList = true := by
  have hscans := scans_of_scanBlocks h
  clear h
  induction hscans with
  | nil => exact absurd hrun List.not_mem_nil
  | cons hfirst _ ih =>
      rcases List.mem_cons.mp hrun with rfl | hrun
      · exact Token.isIdentifier_of_scan hfirst hmem hkind
      · exact ih hrun

theorem exists_readAlone_of_readProgram {source : String} {nodes : List Node}
    {errors : List SyntaxError} (h : readProgram source = .ok (nodes, errors)) {node : Node}
    (hmem : node ∈ nodes) :
    ∃ tokens, Reader.readAlone Parse.item tokens = .ok node ∧
      ∀ token ∈ tokens, token.kind = .name → Token.isIdentifier token.text.toList = true := by
  cases hstream : TokenStream.ofSource source with
  | error error =>
      rw [readProgram, hstream] at h
      cases h
  | ok stream =>
      obtain ⟨-, runs, hruns, rfl⟩ := TokenStream.ofSource_eq_ok.mp hstream
      rw [readProgram_of_runs hstream] at h
      have hnodes : (separate _).1 = nodes := congrArg Prod.fst (Except.ok.inj h)
      rw [← hnodes, mem_separate] at hmem
      obtain ⟨tokens, hunit, hnode⟩ := List.mem_map.mp hmem
      refine ⟨tokens, hnode, fun token htoken hkind => ?_⟩
      exact TokenStream.isIdentifier_of_scanBlocks hruns (List.mem_filter.mp hunit).1 htoken hkind

/-- The names in a node that is read have the form of a name, and are not capitalized. -/
theorem isIdentifier_of_readProgram {source : String} {nodes : List Node}
    {errors : List SyntaxError} (h : readProgram source = .ok (nodes, errors)) {node : Node}
    (hmem : node ∈ nodes) {x : String} (hx : x ∈ node.names) :
    Token.isIdentifier x.toList = true ∧ Token.isCapitalized x = false := by
  obtain ⟨tokens, hread, hidentifier⟩ := exists_readAlone_of_readProgram h hmem
  have hderives := Reader.derives_of_readUnit (Reader.sees_ofTokens tokens) hread
  obtain ⟨token, htoken, rfl⟩ := List.mem_map.mp (hderives.mem_smallNames hx)
  obtain ⟨htoken, hsmall⟩ := List.mem_filter.mp htoken
  rw [Bool.and_eq_true, beq_iff_eq, Bool.not_eq_true'] at hsmall
  exact ⟨hidentifier token htoken hsmall.1, hsmall.2⟩

end Viewlet
