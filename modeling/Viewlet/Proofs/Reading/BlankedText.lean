import Viewlet.Proofs.Reading.WrittenText

namespace Viewlet

namespace Comment

variable {text rest : List Char} {c : Char}

/-- The context after blanking: where a comment was, there is code. -/
def Context.blanked : Context → Context
  | .string => .string
  | .code | .lineComment | .blockComment _ => .code

theorem blankFrom_space (text : List Char) :
    blankFrom .code (' ' :: text) = ' ' :: blankFrom .code text :=
  blankFrom_cons (by decide) (by simp)

theorem head?_of_blankFrom (h : (blankFrom .code text).head? = some '-') :
    text.head? = some '-' := by
  cases text with
  | nil => cases h
  | cons c text =>
      rw [blankFrom.eq_def] at h
      split at h <;> simp_all

theorem not_opens_of_blankFrom (h : blankFrom .code (c :: rest) = c :: rest) :
    c = '{' ∨ c = '-' → rest.head? ≠ some '-' := by
  intro hopen hhead
  obtain ⟨others, rfl⟩ := List.head?_eq_some_iff.mp hhead
  rcases hopen with rfl | rfl
  · rw [blankFrom] at h
    cases h
  · rw [blankFrom] at h
    cases h

theorem blankFrom_rest (hquote : '"' ∉ text) (h : blankFrom .code (text ++ rest) = text ++ rest) :
    blankFrom .code rest = rest := by
  induction text with
  | nil => exact h
  | cons c text ih =>
      obtain ⟨hc, htext⟩ := not_or.mp (mt List.mem_cons.mpr hquote)
      rw [List.cons_append, blankFrom_cons (Ne.symm hc) (not_opens_of_blankFrom h)] at h
      exact ih htext (List.cons.inj h).2

theorem blankFrom_front {context : Context} (hcontext : context.blanked = context)
    (h : blankFrom context (text ++ rest) = text ++ rest) : blankFrom context text = text := by
  fun_induction blankFrom context text with
  | case1 => rfl
  | case2 | case3 | case4 | case5 | case6 | case7 => cases hcontext
  | case8 c text ih =>
      rw [List.cons_append, List.cons_append, blankFrom] at h
      rw [ih rfl (List.cons.inj (List.cons.inj h).2).2]
  | case9 c text hescape ih =>
      cases text with
      | nil => rw [blankFrom]
      | cons d text =>
          rw [List.cons_append, blankFrom] at h
          · refine congrArg (c :: ·) (ih ?_ (List.cons.inj h).2)
            split <;> rfl
          · exact fun _ _ hc _ => hescape d text hc rfl
  | case10 text ih =>
      rw [List.cons_append, blankFrom] at h
      rw [ih rfl (List.cons.inj h).2]
  | case11 text | case12 text =>
      rw [List.cons_append, List.cons_append, blankFrom] at h
      cases h
  | case13 c text hquote _ _ ih =>
      rw [List.cons_append, blankFrom_cons hquote (not_opens_of_blankFrom h)] at h
      rw [ih rfl (List.cons.inj h).2]

end Comment

/-- Whether a character opens a literal. -/
def Text.isQuote (c : Char) : Bool :=
  c == '"' || c == '\''

/-- The text has no comments, and if it begins at some place outside literals it has no fault. -/
structure Text.Clean (text : List Char) : Prop where
  blanked : Comment.blankFrom .code text = text
  faultless : ∃ line column, Alphabet.faultFrom? .code line column text = none

theorem Alphabet.admits_of_faultFrom? {text rest : List Char} {line column : Nat}
    (hquotes : ∀ c ∈ text, Text.isQuote c = false)
    (h : faultFrom? .code line column (text ++ rest) = none) :
    (∀ c ∈ text, admits c = true) ∧
      ∃ line' column', faultFrom? .code line' column' rest = none := by
  induction text generalizing line column with
  | nil => exact ⟨nofun, line, column, h⟩
  | cons c text ih =>
      obtain ⟨hc, htext⟩ := List.forall_mem_cons.mp hquotes
      rw [List.cons_append, faultFrom?] at h
      split at h
      · next hnewline =>
          subst hnewline
          obtain ⟨hadmits, hrest⟩ := ih htext h
          exact ⟨List.forall_mem_cons.mpr ⟨by decide, hadmits⟩, hrest⟩
      · split at h
        · next hplain =>
            obtain ⟨hadmits, hrest⟩ := ih htext h
            exact ⟨List.forall_mem_cons.mpr ⟨hplain, hadmits⟩, hrest⟩
        · split at h
          · next hquote => rcases hquote with rfl | rfl <;> cases hc
          · cases h

namespace Text.Clean

variable {text rest : List Char}

theorem front (h : Clean (text ++ rest)) : Comment.blankFrom .code text = text :=
  Comment.blankFrom_front rfl h.blanked

theorem admits (h : Clean (text ++ rest)) (hquotes : ∀ c ∈ text, isQuote c = false) :
    ∀ c ∈ text, Alphabet.admits c = true := by
  obtain ⟨line, column, hfault⟩ := h.faultless
  exact (Alphabet.admits_of_faultFrom? hquotes hfault).1

theorem tail (h : Clean (text ++ rest)) (hquotes : ∀ c ∈ text, isQuote c = false) :
    Clean rest := by
  obtain ⟨line, column, hfault⟩ := h.faultless
  refine ⟨Comment.blankFrom_rest (fun hmem => ?_) h.blanked,
    (Alphabet.admits_of_faultFrom? hquotes hfault).2⟩
  cases hquotes '"' hmem

end Text.Clean

end Viewlet
