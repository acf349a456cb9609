import Viewlet.Proofs.Evaluation.Steadiness

namespace Viewlet

theorem Scope.isUnresolved_bindUnresolved {scope : Scope} {parameter x : String} :
    (scope.bindUnresolved parameter).isUnresolved x = true ↔
      x = parameter ∨ scope.isUnresolved x = true := by
  rw [isUnresolved_iff, isUnresolved_iff, bindUnresolved, get?_bind]
  split <;> simp_all

theorem Scope.value?_of_isUnresolved {scope : Scope} {x : String}
    (h : scope.isUnresolved x = true) : scope.value? x = none :=
  value?_eq_none.mpr (.inr h)

namespace Node

/-- An expression that can be put in anywhere: it is steady, its free names are among the given
ones, and its parameters are not. -/
structure Orderly (names : List String) (node : Node) : Prop where
  formed : node.Formed (· ∉ names)
  steady : node.steady [] = true
  free : ∀ x ∈ node.freeNames [], x ∈ names

theorem Orderly.of_isLiteral {names : List String} {node : Node} (h : node.isLiteral = true) :
    node.Orderly names where
  formed := .inert (isInert_of_isLiteral h)
  steady := by
    cases node with
    | integer | float | boolean => rfl
    | _ => cases h
  free x hx := by
    rw [freeNames_of_isInert (isInert_of_isLiteral h)] at hx
    cases hx

end Node

namespace ResultsIn

variable {table : Table} {scope : Scope} {node : Node} {outcome : Evaluated}
  {names outer inner : List String}

theorem incomplete (h : ResultsIn table scope node outcome) (hawaits : node.awaits names = true)
    (hnames : ∀ x ∈ names, scope.isUnresolved x = true) : outcome.complete = false := by
  induction h with
  | @literal _ node hliteral =>
      cases node with
      | integer | float | boolean => cases hawaits
      | _ => cases hliteral
  | unresolved => rfl
  | bound hvalue =>
      rw [Scope.value?_of_isUnresolved (hnames _ (Node.awaits_var.mp hawaits))] at hvalue
      cases hvalue
  | declared hnone =>
      rw [Scope.isUnresolved_iff.mp (hnames _ (Node.awaits_var.mp hawaits))] at hnone
      cases hnone
  | inverted _ ih => cases ih hawaits hnames
  | negation => rfl
  | operated _ _ _ ihl ihr =>
      rcases Node.awaits_binary.mp hawaits with hawaits | hawaits
      · cases ihl hawaits hnames
      · cases ihr hawaits hnames
  | binary => rfl
  | function => cases hawaits
  | called _ _ hcallee hargument =>
      rw [Node.mentionsUnresolved_eq_false] at hcallee hargument
      obtain ⟨x, hx, hmem⟩ := Node.awaits_apply.mp hawaits
      have hresolved := (Node.mem_freeNames_apply.mp hx).elim (hcallee x) (hargument x)
      rw [hnames x hmem] at hresolved
      cases hresolved
  | suspended => rfl
  | selected _ _ _ _ ihc ihb =>
      rcases Node.awaits_ifElse.mp hawaits with hawaits | hawaits
      · cases ihc hawaits hnames
      · cases ihb hawaits hnames
  | skipped _ _ _ ihc ihb =>
      rcases Node.awaits_ifElse.mp hawaits with hawaits | hawaits
      · cases ihc hawaits hnames
      · cases ihb hawaits hnames
  | waiting => rfl
  | otherwise _ _ ih =>
      rcases Node.awaits_ifElse.mp hawaits with hawaits | hawaits
      · cases hawaits
      · rw [Evaluated.orWhole_of_incomplete (ih hawaits hnames)]

theorem eq_whole {conditions branches : List Node}
    (h : ResultsIn table scope (.ifElse conditions branches) outcome)
    (hretains : Node.retains outer inner (.ifElse conditions branches) = true)
    (hunresolved : ∀ y ∈ inner ++ outer, scope.isUnresolved y = true) {x : String}
    (hx : x ∈ Node.freeNames inner (.ifElse conditions branches)) (hmem : x ∈ outer) :
    outcome = ⟨Node.substitute scope (.ifElse conditions branches), false⟩ := by
  have hawaits := Node.retains_ifElse.mp hretains x hx hmem
  have hincomplete := h.incomplete hawaits fun y hy => hunresolved y <|
    (List.mem_append.mp hy).elim (List.mem_append_left _)
      fun hy => List.mem_append_right _ (mem_of_mem_upTo hy)
  rw [← h.orWhole_eq, Evaluated.orWhole_of_incomplete hincomplete]

theorem unresolved_cons {parameter : String}
    (h : ∀ y ∈ inner ++ outer, scope.isUnresolved y = true) :
    ∀ y ∈ (parameter :: inner) ++ outer,
      (scope.bindUnresolved parameter).isUnresolved y = true := by
  intro y hy
  rw [Scope.isUnresolved_bindUnresolved]
  exact (List.mem_cons.mp hy).imp_right (h y)

theorem mem_freeNames_kept {source found : Node} {x : String} (hx : x ∈ source.freeNames [])
    (hfound : x ∈ found.freeNames []) :
    x ∈ (table.kept scope source found).freeNames [] := by
  rw [Table.kept]
  split
  · exact hx
  · exact hfound

theorem mem_freeNames (h : ResultsIn table scope node outcome)
    (hretains : node.retains outer inner = true)
    (hunresolved : ∀ y ∈ inner ++ outer, scope.isUnresolved y = true) {x : String}
    (hx : x ∈ node.freeNames inner) (hmem : x ∈ outer) : x ∈ outcome.node.freeNames [] := by
  have hchain : ∀ {scope conditions branches outcome inner},
      ResultsIn table scope (.ifElse conditions branches) outcome →
      Node.retains outer inner (.ifElse conditions branches) = true →
      (∀ y ∈ inner ++ outer, scope.isUnresolved y = true) →
      x ∈ Node.freeNames inner (.ifElse conditions branches) →
      x ∈ outcome.node.freeNames [] := by
    intro scope conditions branches outcome inner h hretains hunresolved hx
    rw [h.eq_whole hretains hunresolved hx hmem]
    exact Node.mem_freeNames_substitute_of_mem ((Node.mem_freeNames inner).mp hx).1
      (Scope.value?_of_isUnresolved (hunresolved x (List.mem_append_right _ hmem)))
  induction h generalizing inner with
  | literal hliteral =>
      rw [Node.freeNames_of_isInert (Node.isInert_of_isLiteral hliteral)] at hx
      cases hx
  | unresolved => exact ((Node.mem_freeNames inner).mp hx).1
  | bound hvalue =>
      obtain rfl := Node.mem_freeNames_var.mp ((Node.mem_freeNames inner).mp hx).1
      rw [Scope.value?_of_isUnresolved (hunresolved x (List.mem_append_right _ hmem))] at hvalue
      cases hvalue
  | declared hnone =>
      obtain rfl := Node.mem_freeNames_var.mp ((Node.mem_freeNames inner).mp hx).1
      rw [Scope.isUnresolved_iff.mp (hunresolved x (List.mem_append_right _ hmem))] at hnone
      cases hnone
  | inverted _ ih => cases ih hretains hunresolved hx
  | negation _ ih => exact Node.mem_freeNames_negation.mpr (ih hretains hunresolved hx)
  | operated _ _ hvalue ihl ihr =>
      obtain ⟨hfirst, hsecond, -⟩ := BinOp.isLiteral_of_operate hvalue
      obtain ⟨hleft, hright⟩ := Node.retains_binary.mp hretains
      rcases List.mem_append.mp hx with hx | hx
      · have hx := ihl hleft hunresolved hx
        rw [Node.freeNames_of_isInert (Node.isInert_of_isLiteral hfirst)] at hx
        cases hx
      · have hx := ihr hright hunresolved hx
        rw [Node.freeNames_of_isInert (Node.isInert_of_isLiteral hsecond)] at hx
        cases hx
  | binary _ _ _ ihl ihr =>
      obtain ⟨hleft, hright⟩ := Node.retains_binary.mp hretains
      exact Node.mem_freeNames_binary.mpr
        ((List.mem_append.mp hx).imp (ihl hleft hunresolved) (ihr hright hunresolved))
  | @function _ parameter body _ _ ih =>
      have hbody : x ∈ body.freeNames (parameter :: inner) := hx
      have hne := List.ne_of_not_mem_cons ((Node.mem_freeNames _).mp hbody).2
      exact Node.mem_freeNames_function.mpr ⟨ih hretains (unresolved_cons hunresolved) hx, hne⟩
  | called _ _ hcallee hargument =>
      rw [Node.mentionsUnresolved_eq_false] at hcallee hargument
      have hresolved := (Node.mem_freeNames_apply.mp ((Node.mem_freeNames inner).mp hx).1).elim
        (hcallee x) (hargument x)
      rw [hunresolved x (List.mem_append_right _ hmem)] at hresolved
      cases hresolved
  | suspended _ _ _ _ ihc iha =>
      obtain ⟨hcallee, hargument⟩ := Node.retains_apply.mp hretains
      refine Node.mem_freeNames_apply.mpr ((List.mem_append.mp hx).imp (fun hx => ?_) fun hx => ?_)
      · exact mem_freeNames_kept ((Node.mem_freeNames inner).mp hx).1 (ihc hcallee hunresolved hx)
      · exact mem_freeNames_kept ((Node.mem_freeNames inner).mp hx).1 (iha hargument hunresolved hx)
  | selected _ _ hcondition hbranch =>
      exact hchain (.selected _ _ hcondition hbranch) hretains hunresolved hx
  | skipped hcondition hbranch hrest =>
      exact hchain (.skipped hcondition hbranch hrest) hretains hunresolved hx
  | waiting _ _ hcondition hbranch hincomplete =>
      exact hchain (.waiting _ _ hcondition hbranch hincomplete) hretains hunresolved hx
  | otherwise _ hbranch => exact hchain (.otherwise _ hbranch) hretains hunresolved hx

section Retains

variable (htable : ∀ name value, table.lookup name = some value →
  ∀ x ∈ value.freeNames [], x ∈ names)
include htable

theorem retains_of_unmentioned (h : ResultsIn table scope node outcome)
    (hvalues : ∀ name value, scope.value? name = some value → ∀ x ∈ value.freeNames [], x ∈ names)
    (houter : ∀ x ∈ outer, x ∉ names) (hnode : ∀ x ∈ node.freeNames inner, x ∉ outer) :
    outcome.node.retains outer inner = true := by
  refine Node.retains_of_notMem fun x hx hmem => ?_
  obtain ⟨hx, hinner⟩ := (Node.mem_freeNames inner).mp hx
  rcases h.free htable hvalues x hx with hnamed | ⟨hx, -⟩
  · exact houter x hmem hnamed
  · exact hnode x ((Node.mem_freeNames inner).mpr ⟨hx, hinner⟩) hmem

/-- What comes of a node that cannot lose mentions cannot lose them either. -/
theorem retains (h : ResultsIn table scope node outcome)
    (hvalues : ∀ name value, scope.value? name = some value → ∀ x ∈ value.freeNames [], x ∈ names)
    (houter : ∀ x ∈ outer, x ∉ names)
    (hunresolved : ∀ y ∈ inner ++ outer, scope.isUnresolved y = true)
    (hretains : node.retains outer inner = true) : outcome.node.retains outer inner = true := by
  have hchain : ∀ {scope conditions branches outcome inner},
      ResultsIn table scope (.ifElse conditions branches) outcome →
      (∀ name value, scope.value? name = some value → ∀ x ∈ value.freeNames [], x ∈ names) →
      (∀ y ∈ inner ++ outer, scope.isUnresolved y = true) →
      Node.retains outer inner (.ifElse conditions branches) = true →
      outcome.node.retains outer inner = true := by
    intro scope conditions branches outcome inner h hvalues hunresolved hretains
    by_cases hmentions : ∀ x ∈ Node.freeNames inner (.ifElse conditions branches), x ∉ outer
    · exact h.retains_of_unmentioned htable hvalues houter hmentions
    · push Not at hmentions
      obtain ⟨x, hx, hmem⟩ := hmentions
      rw [h.eq_whole hretains hunresolved hx hmem]
      refine Node.retains_substitute hvalues (fun y hy => ⟨houter y hy, ?_⟩) (fun y hy => ?_)
        hretains
      · exact Scope.value?_of_isUnresolved (hunresolved y (List.mem_append_right _ hy))
      · exact Scope.value?_of_isUnresolved (hunresolved y (List.mem_append_left _ hy))
  induction h generalizing inner with
  | literal | unresolved => exact hretains
  | bound hvalue =>
      refine Node.retains_of_notMem fun x hx hmem => houter x hmem ?_
      exact hvalues _ _ hvalue x ((Node.mem_freeNames inner).mp hx).1
  | declared _ hlookup =>
      refine Node.retains_of_notMem fun x hx hmem => houter x hmem ?_
      exact htable _ _ hlookup x ((Node.mem_freeNames inner).mp hx).1
  | inverted => rfl
  | negation _ ih => exact ih hvalues hunresolved hretains
  | operated _ _ hvalue =>
      refine Node.retains_of_notMem fun x hx => ?_
      rw [Node.freeNames_of_isInert
        (Node.isInert_of_isLiteral (BinOp.isLiteral_of_operate hvalue).2.2)] at hx
      cases hx
  | binary _ _ _ ihl ihr =>
      exact Node.retains_binary.mpr ((Node.retains_binary.mp hretains).imp
        (ihl hvalues hunresolved) (ihr hvalues hunresolved))
  | function _ ih =>
      exact ih (fun name value hvalue => hvalues name value (Scope.value?_of_bindUnresolved hvalue))
        (unresolved_cons hunresolved) hretains
  | called hfirst hsecond hcallee hargument hbody =>
      refine (ResultsIn.called hfirst hsecond hcallee hargument hbody).retains_of_unmentioned htable
        hvalues houter fun x hx hmem => ?_
      rw [Node.mentionsUnresolved_eq_false] at hcallee hargument
      have hresolved := (Node.mem_freeNames_apply.mp ((Node.mem_freeNames inner).mp hx).1).elim
        (hcallee x) (hargument x)
      rw [hunresolved x (List.mem_append_right _ hmem)] at hresolved
      cases hresolved
  | suspended _ _ _ _ ihc iha =>
      obtain ⟨hcallee, hargument⟩ := Node.retains_apply.mp hretains
      refine Node.retains_apply.mpr ⟨?_, ?_⟩
      · rw [Table.kept]
        split
        · exact hcallee
        · exact ihc hvalues hunresolved hcallee
      · rw [Table.kept]
        split
        · exact hargument
        · exact iha hvalues hunresolved hargument
  | selected _ _ hcondition hbranch =>
      exact hchain (.selected _ _ hcondition hbranch) hvalues hunresolved hretains
  | skipped hcondition hbranch hrest =>
      exact hchain (.skipped hcondition hbranch hrest) hvalues hunresolved hretains
  | waiting _ _ hcondition hbranch hincomplete =>
      exact hchain (.waiting _ _ hcondition hbranch hincomplete) hvalues hunresolved hretains
  | otherwise _ hbranch => exact hchain (.otherwise _ hbranch) hvalues hunresolved hretains

end Retains

end ResultsIn

/-- A steady node whose parameters are apart from the given names, with a scope: of the names that
functions use, those that are not bound around the node are among the given ones. -/
structure Scope.Suits (names bound : List String) (scope : Scope) (node : Node) : Prop where
  formed : node.Formed (· ∉ names)
  steady : node.steady bound = true
  kept : ∀ x ∈ node.keptNames, x ∉ bound → scope.value? x = none → x ∈ names
  bound : ∀ x ∈ bound, x ∉ names ∧ scope.isUnresolved x = true
  values : ValuesHave (Node.Orderly names) scope.value?

namespace Scope.Suits

variable {names bound : List String} {scope : Scope} {node part : Node}

theorem of_part (h : scope.Suits names bound node) (hformed : part.Formed (· ∉ names))
    (hsteady : part.steady bound = true) (hkept : ∀ x ∈ part.keptNames, x ∈ node.keptNames) :
    scope.Suits names bound part where
  formed := hformed
  steady := hsteady
  kept x hx := h.kept x (hkept x hx)
  bound := h.bound
  values := h.values

theorem of_orderly (h : scope.Suits names bound node) (hpart : part.Orderly names) :
    scope.Suits names bound part where
  formed := hpart.formed
  steady := Node.steady_of_notMem hpart.steady fun x hx hmem => (h.bound x hmem).1 (hpart.free x hx)
  kept x hx _ _ := hpart.free x (Node.mem_freeNames_of_mem_keptNames hx)
  bound := h.bound
  values := h.values

theorem free_values (h : scope.Suits names bound node) :
    ∀ name value, scope.value? name = some value → ∀ x ∈ value.freeNames [], x ∈ names :=
  fun name value hvalue => (h.values name value hvalue).2.free

theorem negation_iff {operand : Node} :
    scope.Suits names bound (.negation operand) ↔ scope.Suits names bound operand := by
  constructor
  · intro h
    exact h.of_part ((Node.hereditary_formed _).negation.mp h.formed) h.steady fun x hx => hx
  · intro h
    exact h.of_part (.negation h.formed) h.steady fun x hx => hx

theorem binary_iff {op : BinOp} {left right : Node} :
    scope.Suits names bound (.binary op left right) ↔
      scope.Suits names bound left ∧ scope.Suits names bound right := by
  constructor
  · intro h
    obtain ⟨hleft, hright⟩ := (Node.hereditary_formed _).binary.mp h.formed
    obtain ⟨hsteady, hsteady'⟩ := Node.steady_binary.mp h.steady
    exact ⟨h.of_part hleft hsteady fun x hx => List.mem_append_left _ hx,
      h.of_part hright hsteady' fun x hx => List.mem_append_right _ hx⟩
  · rintro ⟨h, h'⟩
    exact { h with
      formed := .binary h.formed h'.formed
      steady := Node.steady_binary.mpr ⟨h.steady, h'.steady⟩
      kept := fun x hx => (List.mem_append.mp hx).elim (h.kept x) (h'.kept x) }

theorem apply_iff {callee argument : Node} :
    scope.Suits names bound (.apply callee argument) ↔
      (scope.Suits names bound callee ∧ callee.retains bound [] = true) ∧
        scope.Suits names bound argument ∧ argument.retains bound [] = true := by
  constructor
  · intro h
    obtain ⟨hcallee, hargument⟩ := (Node.hereditary_formed _).apply.mp h.formed
    obtain ⟨⟨hretains, hsteady⟩, hretains', hsteady'⟩ := Node.steady_apply.mp h.steady
    exact ⟨⟨h.of_part hcallee hsteady fun x hx => List.mem_append_left _ hx, hretains⟩,
      h.of_part hargument hsteady' fun x hx => List.mem_append_right _ hx, hretains'⟩
  · rintro ⟨⟨h, hretains⟩, h', hretains'⟩
    exact { h with
      formed := .apply h.formed h'.formed
      steady := Node.steady_apply.mpr ⟨⟨hretains, h.steady⟩, hretains', h'.steady⟩
      kept := fun x hx => (List.mem_append.mp hx).elim (h.kept x) (h'.kept x) }

theorem arms {conditions branches : List Node}
    (h : scope.Suits names bound (.ifElse conditions branches)) :
    (∀ condition ∈ conditions, scope.Suits names bound condition) ∧
      ∀ branch ∈ branches, scope.Suits names bound branch := by
  obtain ⟨hconditions, hbranches⟩ := (Node.hereditary_formed _).ifElse h.formed
  obtain ⟨hsteady, hsteady'⟩ := Node.steady_ifElse.mp h.steady
  constructor
  · intro node hmem
    exact h.of_part (hconditions node hmem) (hsteady node hmem) fun x hx =>
      Node.mem_keptNames_ifElse.mpr (.inl ⟨node, hmem, hx⟩)
  · intro node hmem
    exact h.of_part (hbranches node hmem) (hsteady' node hmem) fun x hx =>
      Node.mem_keptNames_ifElse.mpr (.inr ⟨node, hmem, hx⟩)

theorem rest {condition branch : Node} {conditions branches : List Node}
    (h : scope.Suits names bound (.ifElse (condition :: conditions) (branch :: branches))) :
    scope.Suits names bound (.ifElse conditions branches) := by
  obtain ⟨hsteady, hsteady'⟩ := Node.steady_ifElse.mp h.steady
  refine h.of_part h.formed.rest (Node.steady_ifElse.mpr
    ⟨(List.forall_mem_cons.mp hsteady).2, (List.forall_mem_cons.mp hsteady').2⟩) fun x hx => ?_
  rcases Node.mem_keptNames_ifElse.mp hx with ⟨node, hmem, hx⟩ | ⟨node, hmem, hx⟩
  · exact Node.mem_keptNames_ifElse.mpr (.inl ⟨node, List.mem_cons_of_mem _ hmem, hx⟩)
  · exact Node.mem_keptNames_ifElse.mpr (.inr ⟨node, List.mem_cons_of_mem _ hmem, hx⟩)

theorem body {parameter : String} {body : Node}
    (h : scope.Suits names bound (.function parameter body)) :
    parameter ∉ names ∧ (scope.bindUnresolved parameter).Suits names (parameter :: bound) body := by
  cases h.formed with
  | inert hinert => cases hinert
  | function hparameter hbody =>
      refine ⟨hparameter, hbody, h.steady, fun x hx hmem hnone => ?_,
        List.forall_mem_cons.mpr ⟨⟨hparameter, ?_⟩, fun x hmem => (h.bound x hmem).imp_right ?_⟩,
        h.values.bindUnresolved parameter⟩
      · rw [List.mem_cons, not_or] at hmem
        rw [value?_bindUnresolved, if_neg hmem.1] at hnone
        exact h.kept x (Node.mem_freeNames_function.mpr
          ⟨Node.mem_freeNames_of_mem_keptNames hx, hmem.1⟩) hmem.2 hnone
      · exact isUnresolved_bindUnresolved.mpr (.inl rfl)
      · exact fun hunresolved => isUnresolved_bindUnresolved.mpr (.inr hunresolved)

theorem single {parameter : String} {body value : Node}
    (hfunction : (Node.function parameter body).Orderly names) (hvalue : value.isValue = true)
    (horderly : value.Orderly names) : (Scope.bind [] parameter value).Suits names [] body := by
  cases hfunction.formed with
  | inert hinert => cases hinert
  | function _ hbody =>
      refine ⟨hbody, Node.steady_of_append hfunction.steady, fun x hx _ hnone => ?_,
        List.forall_mem_nil _, valuesHave_single hvalue horderly⟩
      rw [value?_single (Node.ne_noValue_of_isValue hvalue)] at hnone
      split at hnone
      · cases hnone
      · next hne =>
          exact hfunction.free x (Node.mem_freeNames_function.mpr
            ⟨Node.mem_freeNames_of_mem_keptNames hx, hne⟩)

theorem substitute (h : scope.Suits names bound node) :
    scope.Suits names bound (node.substitute scope) where
  formed := h.formed.substitute fun name value hvalue => (h.values name value hvalue).2.formed
  steady := Node.steady_substitute h.free_values h.formed
    (fun name value hvalue => (h.values name value hvalue).2.steady)
    (fun x hmem => (h.bound x hmem).imp_right value?_of_isUnresolved) h.steady
  kept x hx hmem hnone := (Node.mem_keptNames_of_substitute h.free_values hx).elim id
    fun hx => h.kept x hx.1 hmem hnone
  bound := h.bound
  values := h.values

end Scope.Suits

namespace ResultsIn

variable {table : Table} {scope : Scope} {node : Node} {outcome : Evaluated}
  {names bound : List String}

theorem isValue {P : Node → Prop} (htable : ValuesHave P fun name => table.lookup name)
    (h : ResultsIn table scope node outcome)
    (hscope : ∀ name value, scope.value? name = some value → value.isValue = true)
    (hcomplete : outcome.complete = true) : outcome.node.isValue = true := by
  induction h with
  | literal hliteral => exact Node.isValue_of_isLiteral hliteral
  | bound hvalue => exact hscope _ _ hvalue
  | declared _ hlookup => exact (htable _ _ hlookup).1
  | operated _ _ hvalue =>
      exact Node.isValue_of_isLiteral (BinOp.isLiteral_of_operate hvalue).2.2
  | inverted | function => rfl
  | called _ _ _ _ _ _ iha ihb =>
      refine ihb (fun name value hvalue => ?_) hcomplete
      rw [(Scope.eq_of_value?_single hvalue).2]
      exact iha hscope rfl
  | selected _ _ _ _ _ ihb => exact ihb hscope rfl
  | skipped _ _ _ _ _ ihr =>
      revert hcomplete
      exact Evaluated.orWhole_cases (fun hrest _ => ihr hscope hrest) fun _ h => by cases h
  | otherwise _ _ ih =>
      revert hcomplete
      exact Evaluated.orWhole_cases (fun hvalue _ => ih hscope hvalue) fun _ h => by cases h
  | unresolved | negation | binary | suspended | waiting => cases hcomplete

variable (htable : ValuesHave (Node.Orderly names) fun name => table.lookup name)
include htable

theorem free_names (h : ResultsIn table scope node outcome)
    (hscope : ValuesHave (Node.Orderly names) scope.value?) :
    ∀ x ∈ outcome.node.freeNames [],
      x ∈ names ∨ (x ∈ node.freeNames [] ∧ scope.value? x = none) :=
  h.free (fun name value hlookup => (htable name value hlookup).2.free)
    fun name value hvalue => (hscope name value hvalue).2.free

theorem orderly_of_suits (h : ResultsIn table scope node outcome)
    (hresolved : node.mentionsUnresolved scope = false)
    (hsuits : scope.Suits names bound outcome.node) : outcome.node.Orderly names where
  formed := hsuits.formed
  steady := Node.steady_of_append hsuits.steady
  free x hx := by
    have hvalue := h.isValue htable (fun name value hvalue => (hsuits.values name value hvalue).1)
      (h.complete hresolved)
    rcases h.free_names htable hsuits.values x hx with hnamed | ⟨hmem, hnone⟩
    · exact hnamed
    · have hunbound : x ∉ bound := by
        intro hbound
        have hunresolved := (hsuits.bound x hbound).2
        rw [Node.mentionsUnresolved_eq_false.mp hresolved x hmem] at hunresolved
        cases hunresolved
      exact hsuits.kept x (Node.mem_keptNames_of_isValue hvalue hx) hunbound hnone

theorem suits_kept (h : ResultsIn table scope node outcome) (hnode : scope.Suits names bound node)
    (hretains : node.retains bound [] = true) (hsuits : scope.Suits names bound outcome.node) :
    scope.Suits names bound (table.kept scope node outcome.node) ∧
      (table.kept scope node outcome.node).retains bound [] = true := by
  rw [Table.kept]
  split
  · exact ⟨hnode, hretains⟩
  · exact ⟨hsuits, h.retains (fun name value hlookup => (htable name value hlookup).2.free)
      hnode.free_values (fun x hx => (hnode.bound x hx).1) (fun x hx => (hnode.bound x hx).2)
      hretains⟩

/-- What comes of a node that suits a scope suits it too. -/
theorem suits (h : ResultsIn table scope node outcome) (hnode : scope.Suits names bound node) :
    scope.Suits names bound outcome.node := by
  induction h generalizing bound with
  | literal | unresolved => exact hnode
  | bound hvalue => exact hnode.of_orderly (hnode.values _ _ hvalue).2
  | declared _ hlookup => exact hnode.of_orderly (htable _ _ hlookup).2
  | inverted => exact hnode.of_orderly (.of_isLiteral rfl)
  | negation _ ih => exact Scope.Suits.negation_iff.mpr (ih (Scope.Suits.negation_iff.mp hnode))
  | operated _ _ hvalue =>
      exact hnode.of_orderly (.of_isLiteral (BinOp.isLiteral_of_operate hvalue).2.2)
  | binary _ _ _ ihl ihr =>
      exact Scope.Suits.binary_iff.mpr ((Scope.Suits.binary_iff.mp hnode).imp ihl ihr)
  | function hbody ih =>
      obtain ⟨hparameter, hsuits⟩ := hnode.body
      have hresult := ih hsuits
      refine ⟨.function hparameter hresult.formed, hresult.steady, fun x hx hmem hnone => ?_,
        hnode.bound, hnode.values⟩
      rcases (ResultsIn.function hbody).free_names htable hnode.values x hx with hnamed | ⟨hx, -⟩
      · exact hnamed
      · exact hnode.kept x hx hmem hnone
  | called hfirst hsecond hcallee hargument hbody ihc iha ihb =>
      obtain ⟨⟨hsuits, -⟩, hsuits', -⟩ := Scope.Suits.apply_iff.mp hnode
      have hfunction := hfirst.orderly_of_suits htable hcallee (ihc hsuits)
      have hvalue := hsecond.orderly_of_suits htable hargument (iha hsuits')
      have hisValue := hsecond.isValue htable
        (fun name value hvalue => (hnode.values name value hvalue).1) rfl
      refine hnode.of_orderly (hbody.orderly_of_suits htable ?_
        (ihb (.single hfunction hisValue hvalue)))
      exact Node.mentionsUnresolved_single hsecond.ne_noValue
  | suspended hfirst hsecond _ _ ihc iha =>
      obtain ⟨⟨hsuits, hretains⟩, hsuits', hretains'⟩ := Scope.Suits.apply_iff.mp hnode
      exact Scope.Suits.apply_iff.mpr
        ⟨hfirst.suits_kept htable hsuits hretains (ihc hsuits),
          hsecond.suits_kept htable hsuits' hretains' (iha hsuits')⟩
  | selected _ _ _ _ _ ihb => exact ihb (hnode.arms.2 _ List.mem_cons_self)
  | skipped _ _ _ _ _ ihr =>
      exact Evaluated.orWhole_cases (fun _ => ihr hnode.rest) fun _ => hnode.substitute
  | waiting => exact hnode.substitute
  | otherwise _ _ ih =>
      exact Evaluated.orWhole_cases (fun _ => ih (hnode.arms.2 _ List.mem_cons_self))
        fun _ => hnode.substitute

/-- What comes of a node without unresolved names can be put in anywhere. -/
theorem orderly (h : ResultsIn table scope node outcome) (hnode : scope.Suits names bound node)
    (hresolved : node.mentionsUnresolved scope = false) : outcome.node.Orderly names :=
  h.orderly_of_suits htable hresolved (h.suits htable hnode)

end ResultsIn

end Viewlet
