import Mathlib.Data.Set.Function
import Mathlib.Tactic.Choose
import Viewlet.Proofs.Typing.MostGeneralUnifier
import Viewlet.Proofs.Typing.TypeText
import Viewlet.Proofs.Typing.VariableNames

namespace Viewlet

namespace Ty

section Unambiguity

variable {name name' : TyVar → String} {ty other parameter result : Ty}
  {word word' rest rest' : List Char}

/-- Every variable has one of the names of its kind. -/
def Named (name : TyVar → String) : Ty → Prop
  | .var v => ∃ n, name v = nameAt false n
  | .number v => ∃ n, name v = nameAt true n
  | .func parameter result => parameter.Named name ∧ result.Named name
  | .bool | .float => True

theorem named_of_hasKinds {κ : Kinding} (hty : ty.HasKinds κ)
    (h : ∀ v ∈ ty.vars, ∃ n, name v = nameAt (κ v) n) : ty.Named name := by
  induction ty with
  | var v =>
      obtain ⟨n, hn⟩ := h v (List.mem_singleton.mpr rfl)
      rw [show κ v = false from hty] at hn
      exact ⟨n, hn⟩
  | number v =>
      obtain ⟨n, hn⟩ := h v (List.mem_singleton.mpr rfl)
      rw [show κ v = true from hty] at hn
      exact ⟨n, hn⟩
  | bool => trivial
  | float => trivial
  | func parameter result ihp ihr =>
      exact ⟨ihp hty.1 fun v hv => h v (List.mem_append_left _ hv),
        ihr hty.2 fun v hv => h v (List.mem_append_right _ hv)⟩

theorem word_textBy (hfunc : ty.isFunc = false) (h : ty.Named name) :
    ty.textBy name ≠ [] ∧ ∀ c ∈ ty.textBy name, inName c = true := by
  have hname {numeric : Bool} {v : TyVar} (hv : ∃ n, name v = nameAt numeric n) :
      (name v).toList ≠ [] ∧ ∀ c ∈ (name v).toList, inName c = true := by
    obtain ⟨n, hn⟩ := hv
    obtain ⟨letter, others, htext, -, -, hletters⟩ := exists_toList_nameAt numeric n
    rw [hn, htext]
    exact ⟨List.cons_ne_nil _ _, hletters⟩
  cases ty with
  | var v => exact hname h
  | number v => exact hname h
  | bool =>
      rw [textBy]
      exact ⟨by decide, List.all_eq_true.mp rfl⟩
  | float =>
      rw [textBy]
      exact ⟨by decide, List.all_eq_true.mp rfl⟩
  | func parameter result => cases hfunc

theorem toList_ne_of_name {numeric : Bool} {v : TyVar} (h : ∃ n, name v = nameAt numeric n) :
    (name v).toList ≠ "Bool".toList ∧ (name v).toList ≠ "Float".toList := by
  obtain ⟨n, hn⟩ := h
  obtain ⟨letter, others, htext, hB, hF, -⟩ := exists_toList_nameAt numeric n
  rw [hn, htext]
  exact ⟨fun heq => hB (List.cons.inj heq).1, fun heq => hF (List.cons.inj heq).1⟩

theorem kind_eq_of_names {numeric numeric' : Bool} {v w : TyVar}
    (h : ∃ n, name v = nameAt numeric n) (h' : ∃ n, name' w = nameAt numeric' n)
    (heq : (name v).toList = (name' w).toList) : numeric = numeric' := by
  obtain ⟨n, hn⟩ := h
  obtain ⟨n', hn'⟩ := h'
  rw [String.toList_inj, hn, hn'] at heq
  exact (nameAt_inj heq).1

theorem alike_of_words (hfunc : ty.isFunc = false) (hfunc' : other.isFunc = false)
    (h : ty.Named name) (h' : other.Named name') (heq : ty.textBy name = other.textBy name') :
    Alike (fun v w => name v = name' w) ty other := by
  cases ty with
  | func parameter result => cases hfunc
  | bool =>
      cases other with
      | func parameter result => cases hfunc'
      | bool => exact .bool
      | float => cases heq
      | var w => exact absurd heq.symm (toList_ne_of_name h').1
      | number w => exact absurd heq.symm (toList_ne_of_name h').1
  | float =>
      cases other with
      | func parameter result => cases hfunc'
      | bool => cases heq
      | float => exact .float
      | var w => exact absurd heq.symm (toList_ne_of_name h').2
      | number w => exact absurd heq.symm (toList_ne_of_name h').2
  | var v =>
      cases other with
      | func parameter result => cases hfunc'
      | bool => exact absurd heq (toList_ne_of_name h).1
      | float => exact absurd heq (toList_ne_of_name h).2
      | var w => exact .var (String.toList_inj.mp heq)
      | number w => cases kind_eq_of_names h h' heq
  | number v =>
      cases other with
      | func parameter result => cases hfunc'
      | bool => exact absurd heq (toList_ne_of_name h).1
      | float => exact absurd heq (toList_ne_of_name h).2
      | var w => cases kind_eq_of_names h h' heq
      | number w => exact .number (String.toList_inj.mp heq)

theorem append_inj_of_words (hword : ∀ c ∈ word, inName c = true)
    (hword' : ∀ c ∈ word', inName c = true) (hrest : ∀ c ∈ rest.head?, inName c = false)
    (hrest' : ∀ c ∈ rest'.head?, inName c = false) (heq : word ++ rest = word' ++ rest') :
    word = word' ∧ rest = rest' := by
  have hnone {text : List Char} (htext : ∀ c ∈ text.head?, inName c = false) :
      text.takeWhile inName = [] := by
    cases text with
    | nil => rfl
    | cons c text => rw [List.takeWhile_cons, htext c rfl, if_neg Bool.false_ne_true]
  have hwords := congrArg (List.takeWhile inName) heq
  rw [List.takeWhile_append_of_pos hword, List.takeWhile_append_of_pos hword', hnone hrest,
    hnone hrest', List.append_nil, List.append_nil] at hwords
  subst hwords
  exact ⟨rfl, List.append_cancel_left heq⟩

theorem word_append_ne_parenthesis (hne : word ≠ []) (hword : ∀ c ∈ word, inName c = true) :
    word ++ rest ≠ '(' :: rest' := by
  obtain ⟨c, others, rfl⟩ := List.exists_cons_of_ne_nil hne
  intro heq
  have hc := hword c List.mem_cons_self
  rw [(List.cons.inj heq).1] at hc
  cases hc

theorem inName_of_head_space (tail : List Char) : ∀ c ∈ (' ' :: tail).head?, inName c = false := by
  intro c hc
  obtain rfl := Option.some.inj hc
  rfl

/-- The text of a type as the parameter of a function. -/
def operandBy (name : TyVar → String) (ty : Ty) : List Char :=
  if ty.isFunc then '(' :: (ty.textBy name ++ [')']) else ty.textBy name

theorem operandBy_of_word (hfunc : ty.isFunc = false) : ty.operandBy name = ty.textBy name := by
  rw [operandBy, hfunc, if_neg Bool.false_ne_true]

theorem operandBy_append_of_func (hfunc : ty.isFunc = true) (rest : List Char) :
    ty.operandBy name ++ rest = '(' :: (ty.textBy name ++ ')' :: rest) := by
  rw [operandBy, if_pos hfunc, List.cons_append, List.append_assoc, List.singleton_append]

theorem textBy_func_append (rest : List Char) :
    (Ty.func parameter result).textBy name ++ rest =
      parameter.operandBy name ++ ' ' :: '-' :: '>' :: ' ' :: (result.textBy name ++ rest) := by
  rw [textBy, List.append_assoc, List.append_assoc]
  rfl

/-- What can stand behind a whole type: nothing, or the parenthesis that closes it. -/
def Ends (rest : List Char) : Prop :=
  ∀ c ∈ rest.head?, c = ')'

theorem Ends.inName (h : Ends rest) : ∀ c ∈ rest.head?, inName c = false :=
  fun c hc => h c hc ▸ rfl

theorem word_ne_textBy_func (hfunc : ty.isFunc = false) (h : ty.Named name)
    (h' : parameter.Named name') (hrest : Ends rest) :
    ty.textBy name ++ rest ≠ (Ty.func parameter result).textBy name' ++ rest' := by
  intro heq
  obtain ⟨hne, hword⟩ := word_textBy hfunc h
  rw [textBy_func_append] at heq
  cases hparameter : parameter.isFunc with
  | true =>
      rw [operandBy_append_of_func hparameter] at heq
      exact word_append_ne_parenthesis hne hword heq
  | false =>
      -- The words at the front are equal, but only one of them has an arrow behind it.
      rw [operandBy_of_word hparameter] at heq
      obtain ⟨-, hbehind⟩ := append_inj_of_words hword (word_textBy hparameter h').2 hrest.inName
        (inName_of_head_space _) heq
      rw [hbehind] at hrest
      cases hrest ' ' rfl

theorem alike_of_word_append (hfunc : ty.isFunc = false) (h : ty.Named name)
    (h' : other.Named name') (hrest : Ends rest) (hrest' : Ends rest')
    (heq : ty.textBy name ++ rest = other.textBy name' ++ rest') :
    Alike (fun v w => name v = name' w) ty other ∧ rest = rest' := by
  cases hfunc' : other.isFunc with
  | true =>
      cases other with
      | func parameter result => exact absurd heq (word_ne_textBy_func hfunc h h'.1 hrest)
      | _ => cases hfunc'
  | false =>
      obtain ⟨hwords, hbehind⟩ := append_inj_of_words (word_textBy hfunc h).2
        (word_textBy hfunc' h').2 hrest.inName hrest'.inName heq
      exact ⟨alike_of_words hfunc hfunc' h h' hwords, hbehind⟩

theorem alike_of_operandBy_append {tail tail' : List Char} (h : ty.Named name)
    (h' : other.Named name')
    (hread : ∀ {rest rest' : List Char}, Ends rest → Ends rest' →
      ty.textBy name ++ rest = other.textBy name' ++ rest' →
      Alike (fun v w => name v = name' w) ty other ∧ rest = rest')
    (heq : ty.operandBy name ++ ' ' :: tail = other.operandBy name' ++ ' ' :: tail') :
    Alike (fun v w => name v = name' w) ty other ∧ tail = tail' := by
  cases hfunc : ty.isFunc with
  | false =>
      obtain ⟨hne, hword⟩ := word_textBy hfunc h
      rw [operandBy_of_word hfunc] at heq
      cases hfunc' : other.isFunc with
      | false =>
          rw [operandBy_of_word hfunc'] at heq
          obtain ⟨hwords, hbehind⟩ := append_inj_of_words hword (word_textBy hfunc' h').2
            (inName_of_head_space tail) (inName_of_head_space tail') heq
          exact ⟨alike_of_words hfunc hfunc' h h' hwords, (List.cons.inj hbehind).2⟩
      | true =>
          rw [operandBy_append_of_func hfunc'] at heq
          exact absurd heq (word_append_ne_parenthesis hne hword)
  | true =>
      rw [operandBy_append_of_func hfunc] at heq
      cases hfunc' : other.isFunc with
      | false =>
          obtain ⟨hne, hword⟩ := word_textBy hfunc' h'
          rw [operandBy_of_word hfunc'] at heq
          exact absurd heq.symm (word_append_ne_parenthesis hne hword)
      | true =>
          rw [operandBy_append_of_func hfunc'] at heq
          have hends (text : List Char) : Ends (')' :: text) :=
            fun c hc => (Option.some.inj hc).symm
          obtain ⟨halike, hbehind⟩ := hread (hends _) (hends _) (List.cons.inj heq).2
          exact ⟨halike, (List.cons.inj (List.cons.inj hbehind).2).2⟩

/-- A type can be read off the front of a text that goes on with a closing parenthesis or not at
all, and so can what follows it. -/
theorem alike_of_textBy_append (h : ty.Named name) (h' : other.Named name')
    (hrest : Ends rest) (hrest' : Ends rest')
    (heq : ty.textBy name ++ rest = other.textBy name' ++ rest') :
    Alike (fun v w => name v = name' w) ty other ∧ rest = rest' := by
  induction ty generalizing other rest rest' with
  | var v => exact alike_of_word_append rfl h h' hrest hrest' heq
  | number v => exact alike_of_word_append rfl h h' hrest hrest' heq
  | bool => exact alike_of_word_append rfl h h' hrest hrest' heq
  | float => exact alike_of_word_append rfl h h' hrest hrest' heq
  | func parameter result ihp ihr =>
      cases other with
      | var w => exact absurd heq.symm (word_ne_textBy_func rfl h' h.1 hrest')
      | number w => exact absurd heq.symm (word_ne_textBy_func rfl h' h.1 hrest')
      | bool => exact absurd heq.symm (word_ne_textBy_func rfl h' h.1 hrest')
      | float => exact absurd heq.symm (word_ne_textBy_func rfl h' h.1 hrest')
      | func parameter' result' =>
          rw [textBy_func_append, textBy_func_append] at heq
          obtain ⟨hparameter, hbehind⟩ :=
            alike_of_operandBy_append h.1 h'.1 (ihp h.1 h'.1) heq
          have harrow := (List.cons.inj (List.cons.inj (List.cons.inj hbehind).2).2).2
          obtain ⟨hresult, hend⟩ := ihr h.2 h'.2 hrest hrest' harrow
          exact ⟨.func hparameter hresult, hend⟩

end Unambiguity

section Renaming

variable {R : TyVar → TyVar → Prop} {f : TyVar → TyVar} {ty other : Ty}

/-- Replaces each variable by a variable of the same kind. -/
def rename (f : TyVar → TyVar) : Ty → Ty
  | .var v => .var (f v)
  | .number v => .number (f v)
  | .bool => .bool
  | .float => .float
  | .func parameter result => .func (parameter.rename f) (result.rename f)

theorem vars_rename (f : TyVar → TyVar) (ty : Ty) : (ty.rename f).vars = ty.vars.map f := by
  induction ty with
  | func parameter result ihp ihr => rw [rename, vars, vars, ihp, ihr, List.map_append]
  | _ => rfl

theorem plainVars_rename (f : TyVar → TyVar) (ty : Ty) :
    (ty.rename f).plainVars = ty.plainVars.map f := by
  induction ty with
  | func parameter result ihp ihr =>
      rw [rename, plainVars, plainVars, ihp, ihr, List.map_append]
  | _ => rfl

theorem numericVars_rename (f : TyVar → TyVar) (ty : Ty) :
    (ty.rename f).numericVars = ty.numericVars.map f := by
  induction ty with
  | func parameter result ihp ihr =>
      rw [rename, numericVars, numericVars, ihp, ihr, List.map_append]
  | _ => rfl

/-- The variables of one type go one to one to those of another, each to one of its kind, and take
the one type to the other. -/
structure Renames (f : TyVar → TyVar) (ty other : Ty) : Prop where
  bijective : Set.BijOn f {v | v ∈ ty.vars} {w | w ∈ other.vars}
  plain : ∀ v ∈ ty.plainVars, f v ∈ other.plainVars
  numeric : ∀ v ∈ ty.numericVars, f v ∈ other.numericVars
  maps : ty.rename f = other

theorem renames_rename (hf : Set.InjOn f {v | v ∈ ty.vars}) : Renames f ty (ty.rename f) where
  bijective := by
    refine ⟨fun v hv => ?_, hf, fun w hw => ?_⟩
    · rw [Set.mem_ofPred_eq, vars_rename]
      exact List.mem_map_of_mem hv
    · rw [Set.mem_ofPred_eq, vars_rename] at hw
      exact List.mem_map.mp hw
  plain v hv := by
    rw [plainVars_rename]
    exact List.mem_map_of_mem hv
  numeric v hv := by
    rw [numericVars_rename]
    exact List.mem_map_of_mem hv
  maps := rfl

theorem alike_rename (h : ∀ v ∈ ty.vars, R v (f v)) : Alike R ty (ty.rename f) := by
  induction ty with
  | var v => exact .var (h v (List.mem_singleton.mpr rfl))
  | number v => exact .number (h v (List.mem_singleton.mpr rfl))
  | bool => exact .bool
  | float => exact .float
  | func parameter result ihp ihr =>
      exact .func (ihp fun v hv => h v (List.mem_append_left _ hv))
        (ihr fun v hv => h v (List.mem_append_right _ hv))

theorem Alike.exists_right (h : Alike R ty other) : ∀ v ∈ ty.vars, ∃ w ∈ other.vars, R v w := by
  induction h with
  | @var v w hvw | @number v w hvw =>
      intro u hu
      obtain rfl := List.mem_singleton.mp hu
      exact ⟨w, List.mem_singleton.mpr rfl, hvw⟩
  | bool | float =>
      intro u hu
      cases hu
  | func hparameter hresult ihp ihr =>
      intro u hu
      obtain hu | hu := List.mem_append.mp hu
      · obtain ⟨w, hw, hR⟩ := ihp u hu
        exact ⟨w, List.mem_append_left _ hw, hR⟩
      · obtain ⟨w, hw, hR⟩ := ihr u hu
        exact ⟨w, List.mem_append_right _ hw, hR⟩

theorem Alike.rename_eq (h : Alike R ty other)
    (hf : ∀ v ∈ ty.vars, ∀ w ∈ other.vars, R v w → f v = w) : ty.rename f = other := by
  induction h with
  | @var v w hvw =>
      rw [rename, hf v (List.mem_singleton.mpr rfl) w (List.mem_singleton.mpr rfl) hvw]
  | @number v w hvw =>
      rw [rename, hf v (List.mem_singleton.mpr rfl) w (List.mem_singleton.mpr rfl) hvw]
  | bool => rfl
  | float => rfl
  | func hparameter hresult ihp ihr =>
      have hleft := ihp fun v hv w hw =>
        hf v (List.mem_append_left _ hv) w (List.mem_append_left _ hw)
      have hright := ihr fun v hv w hw =>
        hf v (List.mem_append_right _ hv) w (List.mem_append_right _ hw)
      rw [rename, hleft, hright]

theorem exists_renames_of_alike {name name' : TyVar → String}
    (hname : ∀ v ∈ ty.vars, ∀ w ∈ ty.vars, name v = name w → v = w)
    (hname' : ∀ v ∈ other.vars, ∀ w ∈ other.vars, name' v = name' w → v = w)
    (h : Alike (fun v w => name v = name' w) ty other) : ∃ f, Renames f ty other := by
  -- Each variable is sent to the one that has its name in the other type.
  have hright := h.exists_right
  choose! f hf hnames using hright
  have hmaps : ty.rename f = other := h.rename_eq fun v hv w hw heq =>
    hname' (f v) (hf v hv) w hw ((hnames v hv).symm.trans heq)
  have hinj : Set.InjOn f {v | v ∈ ty.vars} := by
    intro v hv w hw heq
    refine hname v hv w hw ?_
    rw [hnames v hv, hnames w hw, heq]
  exact ⟨f, hmaps ▸ renames_rename hinj⟩

theorem exists_renames_of_render_eq (h : ty.KindsAgree ty) (h' : other.KindsAgree other)
    (heq : ty.render = other.render) : ∃ f, Renames f ty other := by
  have hkinds := (hasKinds_ofPair h h h).1
  have hkinds' := (hasKinds_ofPair h' h' h').1
  obtain ⟨name, htext, hnames, hinj⟩ := exists_names hkinds
  obtain ⟨name', htext', hnames', hinj'⟩ := exists_names hkinds'
  have htexts : ty.textBy name ++ [] = other.textBy name' ++ [] := by
    rw [← htext, ← htext', heq]
  have hends : Ends [] := fun c hc => absurd hc (Option.not_mem_none c)
  obtain ⟨halike, -⟩ := alike_of_textBy_append (named_of_hasKinds hkinds hnames)
    (named_of_hasKinds hkinds' hnames') hends hends htexts
  exact exists_renames_of_alike hinj hinj' halike

theorem Renames.render_eq (h : Renames f ty other) : ty.render = other.render := by
  have honeToOne : OneToOne fun v w => v ∈ ty.vars ∧ f v = w := by
    rintro v w v' w' ⟨hv, rfl⟩ ⟨hv', rfl⟩
    exact (h.bijective.injOn.eq_iff hv hv').symm
  have halike : Alike (fun v w => v ∈ ty.vars ∧ f v = w) ty (ty.rename f) :=
    alike_rename fun v hv => ⟨hv, rfl⟩
  rw [← h.maps]
  exact halike.render_eq honeToOne

end Renaming

/-- Two types that use each variable at one kind have the same text exactly if a renaming of the
variables, one to one and within the kinds, takes the one to the other. -/
theorem render_eq_iff_exists_renames {ty other : Ty} (h : ty.KindsAgree ty)
    (h' : other.KindsAgree other) : ty.render = other.render ↔ ∃ f, Renames f ty other := by
  constructor
  · exact exists_renames_of_render_eq h h'
  · rintro ⟨f, hf⟩
    exact hf.render_eq

/-- Variables in the order in which another type has them are a renaming of it, and in another
order they are not. -/
theorem render_eq_iff_exists_renames_order :
    let ty : Ty := .func (.func (.var 7) (.number 4)) (.func (.var 3) (.var 7))
    let same : Ty := .func (.func (.var 0) (.number 1)) (.func (.var 2) (.var 0))
    let swapped : Ty := .func (.func (.var 0) (.number 1)) (.func (.var 0) (.var 2))
    (ty.KindsAgree ty ∧ same.KindsAgree same ∧ swapped.KindsAgree swapped) ∧
      (∃ f, Renames f ty same) ∧ ¬∃ f, Renames f ty swapped := by
  intro ty same swapped
  have hty : ty.KindsAgree ty := ⟨by decide, by decide⟩
  have hsame : same.KindsAgree same := ⟨by decide, by decide⟩
  have hswapped : swapped.KindsAgree swapped := ⟨by decide, by decide⟩
  refine ⟨⟨hty, hsame, hswapped⟩, (render_eq_iff_exists_renames hty hsame).mp rfl, ?_⟩
  rw [← render_eq_iff_exists_renames hty hswapped]
  decide

end Ty

end Viewlet
