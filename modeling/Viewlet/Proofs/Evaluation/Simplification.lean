import Mathlib.Data.List.Forall2
import Viewlet.Proofs.Evaluation.CallByValue
import Viewlet.Proofs.Evaluation.Regularity

namespace Viewlet

/-- Call-by-value evaluation of nodes that may mention names, which passes closed arguments
only. -/
inductive Settles : Node → Node → Prop where
  | literal {node} : node.isLiteral = true → Settles node node
  | function {parameter body} : Settles (.function parameter body) (.function parameter body)
  | negation {operand value} : Settles operand (.boolean value) →
      Settles (.negation operand) (.boolean !value)
  | binary {op left right first second value} : Settles left first → Settles right second →
      op.operate first second = .ok value → Settles (.binary op left right) value
  | apply {callee argument parameter body value result} :
      Settles callee (.function parameter body) → Settles argument value →
      value.IsClosed → Settles (body.substitute (Scope.bind [] parameter value)) result →
      Settles (.apply callee argument) result
  | selected {condition branch conditions branches value} :
      Settles condition (.boolean true) → Settles branch value →
      Settles (.ifElse (condition :: conditions) (branch :: branches)) value
  | skipped {condition branch conditions branches value} :
      Settles condition (.boolean false) → Settles (.ifElse conditions branches) value →
      Settles (.ifElse (condition :: conditions) (branch :: branches)) value
  | otherwise {branch branches value} : Settles branch value →
      Settles (.ifElse [] (branch :: branches)) value

namespace Settles

variable {node value : Node}

theorem isValue (h : Settles node value) : value.isValue = true := by
  induction h with
  | literal hliteral => exact Node.isValue_of_isLiteral hliteral
  | function => rfl
  | negation => rfl
  | binary _ _ hvalue => exact Node.isValue_of_isLiteral (BinOp.isLiteral_of_operate hvalue).2.2
  | apply _ _ _ _ _ _ ih => exact ih
  | selected _ _ _ ih => exact ih
  | skipped _ _ _ ih => exact ih
  | otherwise _ ih => exact ih

theorem of_isValue (h : node.isValue = true) : Settles node node := by
  cases node with
  | integer value => exact .literal rfl
  | float value => exact .literal rfl
  | boolean value => exact .literal rfl
  | function parameter body => exact .function
  | _ => cases h

theorem eq_of_isValue (h : Settles node value) (hnode : node.isValue = true) : value = node := by
  cases h with
  | literal => rfl
  | function => rfl
  | _ => cases hnode

theorem value?_single (h : Settles node value) (parameter other : String) :
    (Scope.bind [] parameter value).value? other = if other = parameter then some value else none :=
  Scope.value?_single (Node.ne_noValue_of_isValue h.isValue)

/-- What a node settles to is its value. -/
theorem evaluates (h : Settles node value) : Evaluates node value := by
  induction h with
  | literal hliteral => exact .literal hliteral
  | function => exact .function
  | negation _ ih => exact .negation ih
  | binary _ _ hvalue ihl ihr => exact .binary ihl ihr hvalue
  | apply _ hargument _ _ ihc iha ihb =>
      refine .apply ihc iha ?_
      rwa [Node.replace_eq_substitute (hargument.value?_single _)]
  | selected _ _ ihc ihb => exact .selected ihc ihb
  | skipped _ _ ihc ihr => exact .skipped ihc ihr
  | otherwise _ ih => exact .otherwise ih

theorem freeNames_subset (h : Settles node value) {x : String} (hx : x ∈ value.freeNames []) :
    x ∈ node.freeNames [] := by
  induction h with
  | literal => exact hx
  | function => exact hx
  | negation => simp [Node.freeNames] at hx
  | binary _ _ hvalue =>
      have hliteral := (BinOp.isLiteral_of_operate hvalue).2.2
      rw [Node.freeNames_of_isInert (Node.isInert_of_isLiteral hliteral)] at hx
      cases hx
  | @apply _ _ parameter _ value _ _ hargument hclosed _ ihc _ ihb =>
      have hscope : ∀ name found, (Scope.bind [] parameter value).value? name = some found →
          found.IsClosed :=
        fun name found hfound => (Scope.eq_of_value?_single hfound).2 ▸ hclosed
      obtain ⟨hx, hnone⟩ := (Node.mem_freeNames_substitute hscope).mp (ihb hx)
      rw [hargument.value?_single] at hnone
      refine Node.mem_freeNames_apply.mpr (.inl (ihc (Node.mem_freeNames_function.mpr ⟨hx, ?_⟩)))
      rintro rfl
      simp at hnone
  | selected _ _ _ ihb =>
      exact Node.mem_freeNames_ifElse.mpr (.inr ⟨_, List.mem_cons_self, ihb hx⟩)
  | skipped _ _ _ ihr => exact Node.mem_freeNames_ifElse_cons (ihr hx)
  | otherwise _ ih =>
      exact Node.mem_freeNames_ifElse.mpr (.inr ⟨_, List.mem_cons_self, ih hx⟩)

theorem substitute (h : Settles node value) {scope : Scope}
    (hclosed : ∀ name found, scope.value? name = some found → found.IsClosed) :
    Settles (node.substitute scope) (value.substitute scope) := by
  induction h with
  | literal hliteral =>
      rw [Node.substitute_of_isInert (Node.isInert_of_isLiteral hliteral)]
      exact .literal hliteral
  | function => exact .function
  | negation _ ih => exact .negation ih
  | binary _ _ hvalue ihl ihr =>
      obtain ⟨hl, hr, hv⟩ := BinOp.isLiteral_of_operate hvalue
      rw [Node.substitute_of_isInert (Node.isInert_of_isLiteral hl)] at ihl
      rw [Node.substitute_of_isInert (Node.isInert_of_isLiteral hr)] at ihr
      rw [Node.substitute_of_isInert (Node.isInert_of_isLiteral hv)]
      exact .binary ihl ihr hvalue
  | @apply _ _ parameter body value _ _ hargument hvalue _ ihc iha ihb =>
      rw [Node.substitute_of_closed hvalue] at iha
      refine .apply ihc iha hvalue ?_
      -- both orders put in the argument and what the scope holds for the other names
      have hboth : ∀ name, (scope.bind parameter value).value? name =
          ((Scope.bind [] parameter value).value? name).or (scope.value? name) := by
        intro name
        rw [Scope.value?_bind (Node.ne_noValue_of_isValue hargument.isValue),
          hargument.value?_single]
        split <;> rfl
      have hboth' : ∀ name, (scope.bind parameter value).value? name =
          ((scope.bindUnresolved parameter).value? name).or
            ((Scope.bind [] parameter value).value? name) := by
        intro name
        rw [Scope.value?_bind (Node.ne_noValue_of_isValue hargument.isValue),
          hargument.value?_single, Scope.value?_bindUnresolved]
        split
        · rfl
        · rw [Option.or_none]
      rw [Node.substitute_substitute (fun name found hfound =>
          (Scope.eq_of_value?_single hfound).2 ▸ hvalue) hboth,
        ← Node.substitute_substitute (fun name found hfound =>
          hclosed name found (Scope.value?_of_bindUnresolved hfound)) hboth'] at ihb
      exact ihb
  | selected _ _ ihc ihb => exact .selected ihc ihb
  | skipped _ _ ihc ihr => exact .skipped ihc ihr
  | otherwise _ ih => exact .otherwise ih

end Settles

section Forall₂

variable {R S : Node → Node → Prop} {nodes nodes' : List Node}

theorem exists_of_forall₂ (h : List.Forall₂ R nodes nodes') {node' : Node}
    (hmem : node' ∈ nodes') : ∃ node ∈ nodes, R node node' := by
  induction h with
  | nil => cases hmem
  | cons hhead _ ih =>
      rcases List.mem_cons.mp hmem with rfl | hmem
      · exact ⟨_, List.mem_cons_self, hhead⟩
      · obtain ⟨node, hmem, h⟩ := ih hmem
        exact ⟨node, List.mem_cons_of_mem _ hmem, h⟩

theorem forall₂_of_mem (h : List.Forall₂ R nodes nodes')
    (himp : ∀ node' ∈ nodes', ∀ node, R node node' → S node node') :
    List.Forall₂ S nodes nodes' := by
  induction h with
  | nil => exact .nil
  | cons hhead _ ih =>
      exact .cons (himp _ List.mem_cons_self _ hhead)
        (ih fun node' hmem => himp node' (List.mem_cons_of_mem _ hmem))

end Forall₂

/-- `Simplifies node node'`: the second node arises from the first by evaluating parts. -/
inductive Simplifies : Node → Node → Prop where
  | literal {node value} : Settles node value → value.isLiteral = true → Simplifies node value
  | function {node parameter body body'} : Settles node (.function parameter body) →
      Simplifies body body' → Simplifies node (.function parameter body')
  | inert {node} : node.isInert = true → Simplifies node node
  | var {name} : Simplifies (.var name) (.var name)
  | negation {operand operand'} : Simplifies operand operand' →
      Simplifies (.negation operand) (.negation operand')
  | binary {op left left' right right'} : Simplifies left left' → Simplifies right right' →
      Simplifies (.binary op left right) (.binary op left' right')
  | apply {callee callee' argument argument'} : Simplifies callee callee' →
      Simplifies argument argument' →
      Simplifies (.apply callee argument) (.apply callee' argument')
  | ifElse {conditions conditions' branches branches'} :
      List.Forall₂ Simplifies conditions conditions' →
      List.Forall₂ Simplifies branches branches' →
      Simplifies (.ifElse conditions branches) (.ifElse conditions' branches')

namespace Simplifies

variable {node node' value : Node}

theorem settles_of_isLiteral (h : Simplifies node value) (hvalue : value.isLiteral = true) :
    Settles node value := by
  cases h with
  | literal h _ => exact h
  | inert => exact .literal hvalue
  | _ => cases hvalue

theorem exists_settles_function {parameter : String} {body' : Node}
    (h : Simplifies node (.function parameter body')) :
    ∃ body, Settles node (.function parameter body) ∧ Simplifies body body' := by
  cases h with
  | literal _ h => cases h
  | function h hbody => exact ⟨_, h, hbody⟩
  | inert h => cases h

theorem of_settles (h : Simplifies node value) (hvalue : value.isValue = true)
    (hsettles : ∀ found, Settles node found → Settles node' found) : Simplifies node' value := by
  cases value with
  | integer n => exact .literal (hsettles _ (h.settles_of_isLiteral rfl)) rfl
  | float n => exact .literal (hsettles _ (h.settles_of_isLiteral rfl)) rfl
  | boolean b => exact .literal (hsettles _ (h.settles_of_isLiteral rfl)) rfl
  | function parameter body' =>
      obtain ⟨body, hnode, hbody⟩ := h.exists_settles_function
      exact .function (hsettles _ hnode) hbody
  | _ => cases hvalue

protected theorem refl {admits : String → Prop} (h : node.Formed admits) :
    Simplifies node node := by
  induction h with
  | inert h => exact .inert h
  | var name => exact .var
  | negation _ ih => exact .negation ih
  | binary _ _ ihl ihr => exact .binary ihl ihr
  | function _ _ ih => exact .function .function ih
  | apply _ _ ihc iha => exact .apply ihc iha
  | ifElse _ _ _ ihc ihb =>
      exact .ifElse (List.forall₂_same.mpr ihc) (List.forall₂_same.mpr ihb)

theorem freeNames_subset (h : Simplifies node node') {x : String} (hx : x ∈ node'.freeNames []) :
    x ∈ node.freeNames [] := by
  induction node' generalizing node with
  | function parameter body' ih =>
      obtain ⟨body, hnode, hbody⟩ := h.exists_settles_function
      obtain ⟨hx, hne⟩ := Node.mem_freeNames_function.mp hx
      exact hnode.freeNames_subset (Node.mem_freeNames_function.mpr ⟨ih hbody hx, hne⟩)
  | var name =>
      cases h with
      | literal _ h => cases h
      | inert h => cases h
      | var => exact hx
  | negation operand' ih =>
      cases h with
      | literal _ h => cases h
      | inert h => cases h
      | negation h =>
          exact Node.mem_freeNames_negation.mpr (ih h (Node.mem_freeNames_negation.mp hx))
  | binary op left' right' ihl ihr =>
      cases h with
      | literal _ h => cases h
      | inert h => cases h
      | binary hl hr =>
          rw [Node.mem_freeNames_binary] at hx ⊢
          exact hx.imp (ihl hl) (ihr hr)
  | apply callee' argument' ihc iha =>
      cases h with
      | literal _ h => cases h
      | inert h => cases h
      | apply hc ha =>
          rw [Node.mem_freeNames_apply] at hx ⊢
          exact hx.imp (ihc hc) (iha ha)
  | ifElse conditions' branches' ihc ihb =>
      cases h with
      | literal _ h => cases h
      | inert h => cases h
      | ifElse hc hb =>
          rw [Node.mem_freeNames_ifElse] at hx ⊢
          refine hx.imp ?_ ?_
          · rintro ⟨node', hmem, hx⟩
            obtain ⟨node, hmem', h⟩ := exists_of_forall₂ hc hmem
            exact ⟨node, hmem', ihc node' hmem h hx⟩
          · rintro ⟨node', hmem, hx⟩
            obtain ⟨node, hmem', h⟩ := exists_of_forall₂ hb hmem
            exact ⟨node, hmem', ihb node' hmem h hx⟩
  | _ => simp [Node.freeNames] at hx

theorem substitute (h : Simplifies node node') {scope scope' : Scope}
    (hclosed : ∀ name found, scope.value? name = some found → found.IsClosed)
    (hscopes : ∀ name, (scope.value? name = none ∧ scope'.value? name = none) ∨
      ∃ found found', scope.value? name = some found ∧ scope'.value? name = some found' ∧
        Simplifies found found') :
    Simplifies (node.substitute scope) (node'.substitute scope') := by
  induction node' generalizing node scope scope' with
  | var name =>
      cases h with
      | literal _ h => cases h
      | inert h => cases h
      | var =>
          rw [Node.substitute_var, Node.substitute_var]
          rcases hscopes name with ⟨hnone, hnone'⟩ | ⟨found, found', hfound, hfound', h⟩
          · rw [hnone, hnone']
            exact .var
          · rw [hfound, hfound']
            exact h
  | function parameter body' ih =>
      obtain ⟨body, hnode, hbody⟩ := h.exists_settles_function
      refine .function (hnode.substitute hclosed) (ih hbody (fun name found hfound => ?_)
        fun name => ?_)
      · exact hclosed name found (Scope.value?_of_bindUnresolved hfound)
      · simp only [Scope.value?_bindUnresolved]
        split
        · exact .inl ⟨rfl, rfl⟩
        · exact hscopes name
  | negation operand' ih =>
      cases h with
      | literal _ h => cases h
      | inert h => cases h
      | negation h => exact .negation (ih h hclosed hscopes)
  | binary op left' right' ihl ihr =>
      cases h with
      | literal _ h => cases h
      | inert h => cases h
      | binary hl hr => exact .binary (ihl hl hclosed hscopes) (ihr hr hclosed hscopes)
  | apply callee' argument' ihc iha =>
      cases h with
      | literal _ h => cases h
      | inert h => cases h
      | apply hc ha => exact .apply (ihc hc hclosed hscopes) (iha ha hclosed hscopes)
  | ifElse conditions' branches' ihc ihb =>
      cases h with
      | literal _ h => cases h
      | inert h => cases h
      | ifElse hc hb =>
          rw [Node.substitute_ifElse, Node.substitute_ifElse]
          refine .ifElse ?_ ?_
          · rw [List.forall₂_map_left_iff, List.forall₂_map_right_iff]
            exact forall₂_of_mem hc fun node' hmem node h => ihc node' hmem h hclosed hscopes
          · rw [List.forall₂_map_left_iff, List.forall₂_map_right_iff]
            exact forall₂_of_mem hb fun node' hmem node h => ihb node' hmem h hclosed hscopes
  | declaration name body =>
      cases h with
      | literal _ h => cases h
      | inert h => cases h
  | _ =>
      cases h with
      | literal h hliteral => exact .literal (h.substitute hclosed) hliteral
      | inert => exact .inert rfl

/-- What the simplified node settles to, a closed node settles to up to simplification. The
induction is on how the simplified node settles. -/
theorem simulates (h : Simplifies node node') (hclosed : node.IsClosed)
    (hsettles : Settles node' value) : ∃ found, Settles node found ∧ Simplifies found value := by
  induction hsettles generalizing node with
  | literal hliteral =>
      exact ⟨_, h.settles_of_isLiteral hliteral, .inert (Node.isInert_of_isLiteral hliteral)⟩
  | function =>
      obtain ⟨body, hnode, hbody⟩ := h.exists_settles_function
      exact ⟨_, hnode, .function .function hbody⟩
  | negation hoperand' ih =>
      cases h with
      | literal _ h => cases h
      | inert h => cases h
      | negation h =>
          obtain ⟨found, hfound, hsimplifies⟩ := ih h
            (hclosed.of_subset fun x hx => Node.mem_freeNames_negation.mpr hx)
          obtain rfl := (hsimplifies.settles_of_isLiteral rfl).eq_of_isValue hfound.isValue
          exact ⟨_, .negation hfound, .inert rfl⟩
  | binary _ _ hvalue ihl ihr =>
      cases h with
      | literal _ h => cases h
      | inert h => cases h
      | binary hl hr =>
          obtain ⟨hliteral, hliteral', hresult⟩ := BinOp.isLiteral_of_operate hvalue
          obtain ⟨first, hfirst, hsimplifies⟩ := ihl hl
            (hclosed.of_subset fun x hx => Node.mem_freeNames_binary.mpr (.inl hx))
          obtain rfl := (hsimplifies.settles_of_isLiteral hliteral).eq_of_isValue hfirst.isValue
          obtain ⟨second, hsecond, hsimplifies'⟩ := ihr hr
            (hclosed.of_subset fun x hx => Node.mem_freeNames_binary.mpr (.inr hx))
          obtain rfl := (hsimplifies'.settles_of_isLiteral hliteral').eq_of_isValue hsecond.isValue
          exact ⟨_, .binary hfirst hsecond hvalue, .inert (Node.isInert_of_isLiteral hresult)⟩
  | @apply _ _ parameter body' argument' _ _ hargument' _ _ ihc iha ihb =>
      cases h with
      | literal _ h => cases h
      | inert h => cases h
      | apply hc ha =>
          have hcallee : Node.IsClosed _ :=
            hclosed.of_subset fun x hx => Node.mem_freeNames_apply.mpr (.inl hx)
          have hargument : Node.IsClosed _ :=
            hclosed.of_subset fun x hx => Node.mem_freeNames_apply.mpr (.inr hx)
          obtain ⟨function, hfunction, hsimplifies⟩ := ihc hc hcallee
          obtain ⟨body, hsettles, hbody⟩ := hsimplifies.exists_settles_function
          obtain rfl := hsettles.eq_of_isValue hfunction.isValue
          obtain ⟨argument, hsettled, hsimplifies'⟩ := iha ha hargument
          have hvalue := hargument.of_subset fun x hx => hsettled.freeNames_subset hx
          have hresult := Node.isClosed_substitute_single
            (hcallee.of_subset fun x hx => hfunction.freeNames_subset hx) hvalue
            (Node.ne_noValue_of_isValue hsettled.isValue)
          have hput : Simplifies (body.substitute (Scope.bind [] parameter argument))
              (body'.substitute (Scope.bind [] parameter argument')) := by
            refine hbody.substitute
              (fun name found hfound => (Scope.eq_of_value?_single hfound).2 ▸ hvalue)
              fun name => ?_
            rw [hsettled.value?_single, hargument'.value?_single]
            split
            · exact .inr ⟨argument, argument', rfl, rfl, hsimplifies'⟩
            · exact .inl ⟨rfl, rfl⟩
          obtain ⟨found, hfound, hlast⟩ := ihb hput hresult
          exact ⟨found, .apply hfunction hsettled hvalue hfound, hlast⟩
  | selected _ _ ihc ihb =>
      cases h with
      | literal _ h => cases h
      | inert h => cases h
      | ifElse hc hb =>
          cases hc with
          | cons hcondition _ =>
              cases hb with
              | cons hbranch _ =>
                  obtain ⟨test, htest, hsimplifies⟩ := ihc hcondition (hclosed.of_subset fun x hx =>
                    Node.mem_freeNames_ifElse.mpr (.inl ⟨_, List.mem_cons_self, hx⟩))
                  obtain rfl := (hsimplifies.settles_of_isLiteral rfl).eq_of_isValue htest.isValue
                  obtain ⟨found, hfound, hvalue⟩ := ihb hbranch (hclosed.of_subset fun x hx =>
                    Node.mem_freeNames_ifElse.mpr (.inr ⟨_, List.mem_cons_self, hx⟩))
                  exact ⟨found, .selected htest hfound, hvalue⟩
  | skipped _ _ ihc ihr =>
      cases h with
      | literal _ h => cases h
      | inert h => cases h
      | ifElse hc hb =>
          cases hc with
          | cons hcondition hconditions =>
              cases hb with
              | cons _ hbranches =>
                  obtain ⟨test, htest, hsimplifies⟩ := ihc hcondition (hclosed.of_subset fun x hx =>
                    Node.mem_freeNames_ifElse.mpr (.inl ⟨_, List.mem_cons_self, hx⟩))
                  obtain rfl := (hsimplifies.settles_of_isLiteral rfl).eq_of_isValue htest.isValue
                  obtain ⟨found, hfound, hvalue⟩ := ihr (.ifElse hconditions hbranches)
                    (hclosed.of_subset fun x hx => Node.mem_freeNames_ifElse_cons hx)
                  exact ⟨found, .skipped htest hfound, hvalue⟩
  | otherwise _ ih =>
      cases h with
      | literal _ h => cases h
      | inert h => cases h
      | ifElse hc hb =>
          cases hc
          cases hb with
          | cons hbranch _ =>
              obtain ⟨found, hfound, hvalue⟩ := ih hbranch (hclosed.of_subset fun x hx =>
                Node.mem_freeNames_ifElse.mpr (.inr ⟨_, List.mem_cons_self, hx⟩))
              exact ⟨found, .otherwise hfound, hvalue⟩

end Simplifies

end Viewlet
