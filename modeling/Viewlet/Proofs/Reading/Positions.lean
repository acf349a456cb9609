import Mathlib.Data.List.Forall2
import Mathlib.Data.List.Induction
import Viewlet.Proofs.Reading.UnitTexts

namespace Viewlet

namespace Text

variable {before after : List Char} {c : Char}

/-- What stands behind the last newline of a text. -/
def lastLine (text : List Char) : List Char :=
  text.foldl (fun line c => if c = '\n' then [] else line ++ [c]) []

theorem lastLine_concat (text : List Char) (c : Char) :
    lastLine (text ++ [c]) = if c = '\n' then [] else lastLine text ++ [c] := by
  rw [lastLine, List.foldl_append]
  rfl

theorem lastLine_append (h : '\n' ∉ after) :
    lastLine (before ++ after) = lastLine before ++ after := by
  induction after using List.reverseRecOn with
  | nil => simp
  | append_singleton after c ih =>
      simp only [List.mem_append, List.mem_singleton, not_or] at h
      rw [← List.append_assoc, lastLine_concat, if_neg (Ne.symm h.2), ih h.1, List.append_assoc]

theorem head?_pieces (text : List Char) :
    (pieces '\n' text)[0]? = some (text.takeWhile (· ≠ '\n')) := by
  induction text with
  | nil => rfl
  | cons c text ih =>
      obtain ⟨first, rest, hpieces⟩ := List.exists_cons_of_ne_nil (pieces_ne_nil '\n' text)
      rw [hpieces] at ih
      obtain rfl := Option.some.inj ih
      rw [pieces, hpieces]
      split
      · next hnewline => simp [hnewline]
      · next hnewline => simp [hnewline]

theorem getElem?_pieces_behind {line : List Char} (hline : '\n' ∉ line)
    (before after : List Char) :
    (pieces '\n' (line ++ before ++ after))[before.count '\n']? =
      some (before.foldl (fun line c => if c = '\n' then [] else line ++ [c]) line ++
        after.takeWhile (· ≠ '\n')) := by
  induction before generalizing line with
  | nil =>
      have hplain : ∀ c ∈ line, decide (c ≠ '\n') = true := by
        intro c hc
        simpa using ne_of_mem_of_not_mem hc hline
      rw [List.append_nil, List.count_nil, head?_pieces, List.takeWhile_append_of_pos hplain]
      rfl
  | cons c before ih =>
      rw [List.foldl_cons]
      by_cases hc : c = '\n'
      · subst hc
        rw [List.append_assoc, List.cons_append, pieces_append hline, List.count_cons_self,
          List.getElem?_cons_succ, if_pos rfl]
        exact ih List.not_mem_nil
      · have hlonger : '\n' ∉ line ++ [c] := by simp [hline, Ne.symm hc]
        rw [List.count_cons_of_ne hc, if_neg hc, ← ih hlonger]
        simp

theorem getElem?_pieces (before after : List Char) :
    (pieces '\n' (before ++ after))[before.count '\n']? =
      some (lastLine before ++ after.takeWhile (· ≠ '\n')) :=
  getElem?_pieces_behind List.not_mem_nil before after

theorem getElem?_pieces_inside {inside : List Char} (h : '\n' ∉ inside)
    (before after : List Char) :
    (pieces '\n' (before ++ (inside ++ after)))[before.count '\n']? =
      some (lastLine before ++ inside ++ after.takeWhile (· ≠ '\n')) := by
  rw [getElem?_pieces, List.takeWhile_append_of_pos, List.append_assoc]
  intro c hc
  simpa using ne_of_mem_of_not_mem hc h

/-- The character at a line and column of a text, which both count from one. -/
def charAt? (text : List Char) (line column : Nat) : Option Char :=
  (pieces '\n' text)[line - 1]?.bind fun piece => piece[column - 1]?

theorem charAt?_append (hc : c ≠ '\n') (before after : List Char) :
    charAt? (before ++ c :: after) (before.count '\n' + 1) ((lastLine before).length + 1) =
      some c := by
  rw [charAt?, Nat.add_sub_cancel, Nat.add_sub_cancel, getElem?_pieces, Option.bind_some,
    List.getElem?_append_right (Nat.le_refl _), Nat.sub_self, List.takeWhile_cons_of_pos (by simpa)]
  rfl

end Text

namespace Comment

/-- Blanking keeps a character or puts a space in its place. A newline stays. -/
def Blanks (c d : Char) : Prop :=
  d = c ∨ d = ' ' ∧ c ≠ '\n'

theorem forall₂_blankFrom (context : Context) (text : List Char) :
    List.Forall₂ Blanks text (blankFrom context text) := by
  rw [blankFrom_eq_mapIdx, List.forall₂_iff_get]
  refine ⟨List.length_mapIdx.symm, fun i hi hi' => ?_⟩
  rw [List.get_eq_getElem, List.get_eq_getElem, List.getElem_mapIdx]
  split
  · next hcomment => exact .inr ⟨rfl, hcomment.2⟩
  · exact .inl rfl

variable {text blanked : List Char} {c d : Char}

theorem Blanks.newline_iff (h : Blanks c d) : d = '\n' ↔ c = '\n' := by
  rcases h with rfl | ⟨rfl, hc⟩
  · exact Iff.rfl
  · exact iff_of_false (by decide) hc

theorem exists_append_of_blanks {front rest : List Char}
    (h : List.Forall₂ Blanks text (front ++ rest)) :
    ∃ before after, text = before ++ after ∧ List.Forall₂ Blanks before front ∧
      List.Forall₂ Blanks after rest :=
  ⟨_, _, (List.take_append_drop front.length text).symm, List.forall₂_take_append _ _ _ h,
    List.forall₂_drop_append _ _ _ h⟩

theorem count_newline (h : List.Forall₂ Blanks text blanked) :
    blanked.count '\n' = text.count '\n' := by
  induction h with
  | nil => rfl
  | cons hc _ ih => simp only [List.count_cons, ih, beq_iff_eq, hc.newline_iff]

theorem forall₂_lastLine (h : List.Forall₂ Blanks text blanked) :
    List.Forall₂ Blanks (Text.lastLine text) (Text.lastLine blanked) := by
  refine List.rel_foldl (fun line line' hline c d hc => ?_) .nil h
  simp only [hc.newline_iff]
  split
  · exact .nil
  · exact List.rel_append hline (.cons hc .nil)

end Comment

end Viewlet
