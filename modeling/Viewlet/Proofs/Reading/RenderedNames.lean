import Viewlet.Node.Render
import Viewlet.Proofs.Reading.LongestMatch
import Viewlet.Proofs.Reading.ReadNodes
import Viewlet.Proofs.Reading.Units

namespace Viewlet

namespace Token

variable {c : Char} {text : List Char}

theorem isIdentifier_of_head (h : startsName c = false) : isIdentifier (c :: text) = false := by
  rw [isIdentifier, h, Bool.false_and]

theorem isIdentifier_of_forall (h : ∀ c ∈ text, startsName c = false) :
    isIdentifier text = false := by
  cases text with
  | nil => rfl
  | cons c text => exact isIdentifier_of_head (h c List.mem_cons_self)

theorem isIdentifier_append {first rest : String}
    (h : first.toList.head?.any (fun c => !startsName c) = true) :
    isIdentifier (first ++ rest).toList = false := by
  rw [String.toList_append]
  cases hfirst : first.toList with
  | nil =>
      rw [hfirst] at h
      cases h
  | cons c text =>
      rw [hfirst] at h
      exact isIdentifier_of_head (by simpa using h)

end Token

namespace Decimal

theorem startsName_of_mem_toDigits {n : Nat} {c : Char} (h : c ∈ Nat.toDigits 10 n) :
    Token.startsName c = false :=
  Token.startsName_of_isDigit (Nat.isDigit_of_mem_toDigits (by decide) (by decide) h)

theorem startsName_of_mem_positional {digits : Nat} {place : Int} {c : Char}
    (h : c ∈ (positional digits place).toList) : Token.startsName c = false := by
  have hzero : ∀ count, c ∈ List.replicate count '0' → Token.startsName c = false := by
    intro count hmem
    rw [List.eq_of_mem_replicate hmem]
    rfl
  cases place with
  | ofNat zeros =>
      rw [positional, String.toList_ofList] at h
      rcases List.mem_append.mp h with h | h
      · exact startsName_of_mem_toDigits h
      · exact hzero _ h
  | negSucc below =>
      have hpadded : ∀ count, c ∈ List.replicate count '0' ++ Nat.toDigits 10 digits →
          Token.startsName c = false := by
        intro count hmem
        rcases List.mem_append.mp hmem with hmem | hmem
        · exact hzero _ hmem
        · exact startsName_of_mem_toDigits hmem
      rw [positional, String.toList_ofList] at h
      rcases List.mem_append.mp h with h | h
      · exact hpadded _ (List.mem_of_mem_take h)
      · rcases List.mem_cons.mp h with rfl | h
        · rfl
        · exact hpadded _ (List.mem_of_mem_drop h)

theorem ofFloat_cases (value : Float) :
    Token.isCapitalized (ofFloat value) = true ∨
      Token.isIdentifier (ofFloat value).toList = false ∨ ofFloat value = "inf" := by
  rw [ofFloat]
  split
  · exact .inl (by decide)
  · dsimp only
    by_cases hsign : Nat.pow 2 63 ≤ value.toBits.toNat
    · -- behind a minus it does not matter what follows
      refine .inr (.inl ?_)
      simp only [if_pos hsign, String.append_assoc]
      split
      · exact Token.isIdentifier_append (by decide)
      · split
        · exact Token.isIdentifier_append (by decide)
        · exact Token.isIdentifier_append (by decide)
    · simp only [if_neg hsign, String.empty_append]
      split
      · exact .inr (.inr rfl)
      · refine .inr (.inl ?_)
        split
        · decide
        · refine Token.isIdentifier_of_forall fun c hc => ?_
          have hfraction :
              (".0".toList ++ "".toList).all (fun c => !Token.startsName c) = true := by decide
          rw [String.toList_append] at hc
          rcases List.mem_append.mp hc with hc | hc
          · exact startsName_of_mem_positional hc
          · have hmem : c ∈ ".0".toList ++ "".toList := by
              split at hc
              · exact List.mem_append_left _ hc
              · exact List.mem_append_right _ hc
            simpa using List.all_eq_true.mp hfraction c hmem

theorem startsName_of_mem_repr {n : Int} {c : Char} (h : c ∈ n.repr.toList) :
    Token.startsName c = false := by
  cases n with
  | ofNat n =>
      have htext : (Int.ofNat n).repr.toList = Nat.toDigits 10 n := String.toList_ofList
      exact startsName_of_mem_toDigits (htext ▸ h)
  | negSucc n =>
      have htext : (Int.negSucc n).repr.toList = '-' :: Nat.toDigits 10 (n + 1) :=
        String.toList_append.trans (congrArg ('-' :: ·) String.toList_ofList)
      rw [htext] at h
      rcases List.mem_cons.mp h with rfl | h
      · rfl
      · exact startsName_of_mem_toDigits h

end Decimal

namespace Node

/-- If the text is a small name, the node is the variable of that name, or a number that is
written `inf`. -/
def TextIsHidden (node : Node) : Prop :=
  ∀ name, Token.isIdentifier name.toList = true → Token.isCapitalized name = false →
    node.render = name → node = .var name ∨ name = "inf" ∧ ∃ value, node = .float value

section Hidden

variable {node : Node}

theorem textIsHidden_of_render (h : Token.isIdentifier node.render.toList = false) :
    node.TextIsHidden := by
  rintro name hname - rfl
  rw [h] at hname
  cases hname

theorem textIsHidden_of_isCapitalized (h : Token.isCapitalized node.render = true) :
    node.TextIsHidden := by
  rintro name - hplain rfl
  rw [h] at hplain
  cases hplain

theorem textIsHidden_of_append {first rest : String} (h : node.render = first ++ rest)
    (hfirst : first.toList.head?.any (fun c => !Token.startsName c) = true) :
    node.TextIsHidden :=
  textIsHidden_of_render (h ▸ Token.isIdentifier_append hfirst)

end Hidden

theorem readable_textIsHidden : Node.Readable TextIsHidden where
  literal {node} h := by
    cases node with
    | integer value =>
        refine textIsHidden_of_render (Token.isIdentifier_of_forall fun c hc => ?_)
        rw [render] at hc
        exact Decimal.startsName_of_mem_repr hc
    | float value =>
        rcases Decimal.ofFloat_cases value with hcapitalized | hidentifier | hinf
        · exact textIsHidden_of_isCapitalized hcapitalized
        · exact textIsHidden_of_render hidentifier
        · rintro name - - rfl
          exact .inr ⟨hinf, value, rfl⟩
    | boolean value => cases value <;> exact textIsHidden_of_isCapitalized (by decide)
    | _ => cases h
  var name := by
    rintro x - - rfl
    exact .inl rfl
  construction _ :=
    textIsHidden_of_append (by simp only [render, String.append_assoc]; rfl) (by decide)
  negation _ :=
    textIsHidden_of_append (by simp only [render, String.append_assoc]; rfl) (by decide)
  binary _ _ :=
    textIsHidden_of_append (by simp only [render, BinOp.join, String.append_assoc]; rfl)
      (by decide)
  function _ :=
    textIsHidden_of_append (by simp only [render, String.append_assoc]; rfl) (by decide)
  apply _ _ :=
    textIsHidden_of_append (by simp only [render, String.append_assoc]; rfl) (by decide)
  ifElse {conditions branches} hne hlength _ _ := by
    obtain ⟨condition, conditions, rfl⟩ := List.exists_cons_of_ne_nil hne
    cases branches with
    | nil => cases hlength
    | cons branch branches =>
        refine textIsHidden_of_render ?_
        -- the blank behind the first word
        rw [render, renderAll, renderAll, renderChain]
        simp only [String.append_assoc]
        rw [String.toList_append]
        rfl

end Node

/-- A bare expression that is read has the text of a small name only if it is that variable, or a
number that is written `inf`. -/
theorem textIsHidden_of_readAlone {tokens : List Token} {node : Node}
    (h : Reader.readAlone Parse.item tokens = .ok node) : node.UnitOf Node.TextIsHidden :=
  Reader.readUnit_ensures (Parse.item_ensures Node.readable_textIsHidden) (Prod.ext h rfl)

end Viewlet
