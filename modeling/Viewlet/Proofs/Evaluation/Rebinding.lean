import Viewlet.Proofs.Evaluation.Renaming

namespace Viewlet

/-- Gives a name back for the one that has taken its place. -/
def restore (old new name : String) : String :=
  if name = new then old else name

section Restore

variable {old new name : String}

theorem restore_new : restore old new new = old :=
  if_pos rfl

theorem restore_of_ne (h : name ≠ new) : restore old new name = name :=
  if_neg h

end Restore

namespace Node

mutual

/-- Gives another name to the free occurrences of a name. -/
def renameFree (old new : String) : Node → Node
  | .var name => .var (if name = old then new else name)
  | .function parameter body =>
      .function parameter (if parameter = old then body else renameFree old new body)
  | .apply callee argument => .apply (renameFree old new callee) (renameFree old new argument)
  | .binary op left right => .binary op (renameFree old new left) (renameFree old new right)
  | .negation operand => .negation (renameFree old new operand)
  | .ifElse conditions branches =>
      .ifElse (renameFreeAll old new conditions) (renameFreeAll old new branches)
  | .construction constructor arguments =>
      .construction constructor (renameFreeAll old new arguments)
  | node => node

/-- Gives another name to the free occurrences of a name in nodes. -/
def renameFreeAll (old new : String) : List Node → List Node
  | [] => []
  | node :: nodes => renameFree old new node :: renameFreeAll old new nodes

end

/-- One function in the node gets another name for its parameter and for the variables that the
parameter binds. -/
inductive Rebinds (old new : String) : Node → Node → Prop where
  | parameter (body) :
      Rebinds old new (.function old body) (.function new (body.renameFree old new))
  | body {parameter body body'} : Rebinds old new body body' →
      Rebinds old new (.function parameter body) (.function parameter body')
  | callee {callee callee' argument} : Rebinds old new callee callee' →
      Rebinds old new (.apply callee argument) (.apply callee' argument)
  | argument {callee argument argument'} : Rebinds old new argument argument' →
      Rebinds old new (.apply callee argument) (.apply callee argument')
  | left {op left left' right} : Rebinds old new left left' →
      Rebinds old new (.binary op left right) (.binary op left' right)
  | right {op left right right'} : Rebinds old new right right' →
      Rebinds old new (.binary op left right) (.binary op left right')
  | operand {operand operand'} : Rebinds old new operand operand' →
      Rebinds old new (.negation operand) (.negation operand')
  | condition {before condition condition' after branches} :
      Rebinds old new condition condition' →
      Rebinds old new (.ifElse (before ++ condition :: after) branches)
        (.ifElse (before ++ condition' :: after) branches)
  | branch {conditions before branch branch' after} : Rebinds old new branch branch' →
      Rebinds old new (.ifElse conditions (before ++ branch :: after))
        (.ifElse conditions (before ++ branch' :: after))
  | constructed {constructor before argument argument' after} :
      Rebinds old new argument argument' →
      Rebinds old new (.construction constructor (before ++ argument :: after))
        (.construction constructor (before ++ argument' :: after))
  | declaration {name body body'} : Rebinds old new body body' →
      Rebinds old new (.declaration name body) (.declaration name body')

attribute [local simp] names namesAll renameFree renameFreeAll

variable {old new x : String} {node node' : Node} {nodes : List Node}

theorem notMem_namesAll : x ∉ namesAll nodes ↔ ∀ node ∈ nodes, x ∉ node.names := by
  simp [mem_namesAll]

theorem renameFreeAll_eq_map : renameFreeAll old new nodes = nodes.map (renameFree old new) := by
  induction nodes with
  | nil => rfl
  | cons node nodes ih => rw [renameFreeAll, ih, List.map_cons]

theorem notMem_names_function {parameter : String} {body : Node} :
    x ∉ (function parameter body).names ↔ x ≠ parameter ∧ x ∉ body.names := by
  simp

theorem notMem_names_apply {callee argument : Node} :
    x ∉ (apply callee argument).names ↔ x ∉ callee.names ∧ x ∉ argument.names := by
  simp

theorem notMem_names_binary {op : BinOp} {left right : Node} :
    x ∉ (binary op left right).names ↔ x ∉ left.names ∧ x ∉ right.names := by
  simp

theorem notMem_names_ifElse {conditions branches : List Node} :
    x ∉ (ifElse conditions branches).names ↔
      (∀ condition ∈ conditions, x ∉ condition.names) ∧ ∀ branch ∈ branches, x ∉ branch.names := by
  simp [notMem_namesAll]

theorem notMem_names_declaration {name : String} {body : Node} :
    x ∉ (declaration name body).names ↔ x ≠ name ∧ x ∉ body.names := by
  simp

theorem notMem_names_construction {constructor : String} {arguments : List Node} :
    x ∉ (construction constructor arguments).names ↔
      ∀ argument ∈ arguments, x ∉ argument.names := by
  simp [notMem_namesAll]

theorem notMem_freeNames_of_notMem_names (h : x ∉ node.names) : x ∉ node.freeNames [] :=
  fun hx => h (mem_names_of_mem_freeNames hx)

theorem ne_of_mem_freeNames (h : new ∉ node.names) (hx : x ∈ node.freeNames []) : x ≠ new := by
  rintro rfl
  exact notMem_freeNames_of_notMem_names h hx

theorem rename_restore (h : new ∉ node.names) : node.rename (restore old new) = node :=
  rename_eq_self fun _ hx => restore_of_ne fun heq => h (heq ▸ hx)

theorem map_rename_restore (h : ∀ node ∈ nodes, new ∉ node.names) :
    nodes.map (rename (restore old new)) = nodes :=
  (List.map_congr_left fun node hmem => rename_restore (h node hmem)).trans (List.map_id nodes)

theorem respects_restore (hnode : node.IsExpression) (h : new ∉ node.names) :
    node.Respects (restore old new) := by
  induction hnode with
  | inert hinert => exact .inert hinert
  | var name => exact .var name
  | negation _ ih => exact .negation (ih h)
  | binary _ _ ihl ihr =>
      obtain ⟨hl, hr⟩ := notMem_names_binary.mp h
      exact .binary (ihl hl) (ihr hr)
  | @function parameter body _ _ ih =>
      obtain ⟨hparameter, hbody⟩ := notMem_names_function.mp h
      refine .function (ih hbody) fun x hx heq => ?_
      rwa [restore_of_ne (ne_of_mem_freeNames hbody hx), restore_of_ne hparameter.symm] at heq
  | apply _ _ ihc iha =>
      obtain ⟨hc, ha⟩ := notMem_names_apply.mp h
      exact .apply (ihc hc) (iha ha)
  | ifElse hlength _ _ ihc ihb =>
      obtain ⟨hc, hb⟩ := notMem_names_ifElse.mp h
      exact .ifElse hlength (fun node hmem => ihc node hmem (hc node hmem))
        fun node hmem => ihb node hmem (hb node hmem)

section RenameFree

theorem renameFree_ifElse (conditions branches : List Node) :
    (ifElse conditions branches).renameFree old new =
      .ifElse (conditions.map (renameFree old new)) (branches.map (renameFree old new)) := by
  rw [renameFree, renameFreeAll_eq_map, renameFreeAll_eq_map]

theorem renameFree_of_isInert (h : node.isInert = true) :
    (node.renameFree old new).isInert = true := by
  cases node with
  | integer | float | boolean | noValue | typeName | typeDefinition | construction => rfl
  | _ => cases h

theorem rename_renameFree (h : new ∉ node.names) :
    (node.renameFree old new).rename (restore old new) = node := by
  have hmap : ∀ nodes : List Node, (∀ node ∈ nodes, new ∉ node.names) →
      (∀ node ∈ nodes, new ∉ node.names →
        (node.renameFree old new).rename (restore old new) = node) →
      renameAll (restore old new) (renameFreeAll old new nodes) = nodes := by
    intro nodes hnodes ih
    rw [renameAll_eq_map, renameFreeAll_eq_map, List.map_map]
    exact (List.map_congr_left fun node hmem => ih node hmem (hnodes node hmem)).trans
      (List.map_id nodes)
  induction node with
  | var name =>
      rw [renameFree, rename]
      split
      · next heq => rw [restore_new, heq]
      · rw [restore_of_ne]
        rintro rfl
        exact h List.mem_cons_self
  | function parameter body ih =>
      obtain ⟨hparameter, hbody⟩ := notMem_names_function.mp h
      rw [renameFree, rename, restore_of_ne hparameter.symm]
      split
      · rw [rename_restore hbody]
      · rw [ih hbody]
  | apply callee argument ihc iha =>
      obtain ⟨hc, ha⟩ := notMem_names_apply.mp h
      rw [renameFree, rename, ihc hc, iha ha]
  | binary op left right ihl ihr =>
      obtain ⟨hl, hr⟩ := notMem_names_binary.mp h
      rw [renameFree, rename, ihl hl, ihr hr]
  | negation operand ih => rw [renameFree, rename, ih h]
  | ifElse conditions branches ihc ihb =>
      obtain ⟨hc, hb⟩ := notMem_names_ifElse.mp h
      rw [renameFree, rename, hmap conditions hc ihc, hmap branches hb ihb]
  | declaration name body => exact rename_restore h
  | construction constructor arguments ih =>
      rw [renameFree, rename, hmap arguments (notMem_names_construction.mp h) ih]
  | _ => rfl

theorem mem_freeNames_renameFree (h : new ∉ node.names) :
    x ∈ (node.renameFree old new).freeNames [] ↔
      (x ∈ node.freeNames [] ∧ x ≠ old) ∨ (x = new ∧ old ∈ node.freeNames []) := by
  induction node with
  | var name =>
      rw [renameFree, mem_freeNames_var, mem_freeNames_var, mem_freeNames_var]
      split <;> grind
  | function parameter body ih =>
      obtain ⟨hparameter, hbody⟩ := notMem_names_function.mp h
      rw [renameFree, mem_freeNames_function, mem_freeNames_function, mem_freeNames_function]
      split
      · grind
      · rw [ih hbody]
        grind
  | apply callee argument ihc iha =>
      obtain ⟨hc, ha⟩ := notMem_names_apply.mp h
      rw [renameFree, mem_freeNames_apply, mem_freeNames_apply, mem_freeNames_apply, ihc hc, iha ha]
      grind
  | binary op left right ihl ihr =>
      obtain ⟨hl, hr⟩ := notMem_names_binary.mp h
      rw [renameFree, mem_freeNames_binary, mem_freeNames_binary, mem_freeNames_binary, ihl hl,
        ihr hr]
      grind
  | negation operand ih =>
      rw [renameFree, mem_freeNames_negation, mem_freeNames_negation, mem_freeNames_negation, ih h]
  | ifElse conditions branches ihc ihb =>
      obtain ⟨hc, hb⟩ := notMem_names_ifElse.mp h
      simp only [renameFree_ifElse, mem_freeNames_ifElse, List.mem_map]
      constructor
      · rintro (⟨_, ⟨node, hmem, rfl⟩, hx⟩ | ⟨_, ⟨node, hmem, rfl⟩, hx⟩)
        · exact ((ihc node hmem (hc node hmem)).mp hx).imp
            (And.imp_left fun hx => .inl ⟨node, hmem, hx⟩)
            (And.imp_right fun hx => .inl ⟨node, hmem, hx⟩)
        · exact ((ihb node hmem (hb node hmem)).mp hx).imp
            (And.imp_left fun hx => .inr ⟨node, hmem, hx⟩)
            (And.imp_right fun hx => .inr ⟨node, hmem, hx⟩)
      · rintro (⟨⟨node, hmem, hx⟩ | ⟨node, hmem, hx⟩, hne⟩ |
          ⟨rfl, ⟨node, hmem, hx⟩ | ⟨node, hmem, hx⟩⟩)
        · exact .inl ⟨_, ⟨node, hmem, rfl⟩, (ihc node hmem (hc node hmem)).mpr (.inl ⟨hx, hne⟩)⟩
        · exact .inr ⟨_, ⟨node, hmem, rfl⟩, (ihb node hmem (hb node hmem)).mpr (.inl ⟨hx, hne⟩)⟩
        · exact .inl ⟨_, ⟨node, hmem, rfl⟩, (ihc node hmem (hc node hmem)).mpr (.inr ⟨rfl, hx⟩)⟩
        · exact .inr ⟨_, ⟨node, hmem, rfl⟩, (ihb node hmem (hb node hmem)).mpr (.inr ⟨rfl, hx⟩)⟩
  | _ => simp [freeNames]

theorem respects_renameFree (hnode : node.IsExpression) (h : new ∉ node.names) :
    (node.renameFree old new).Respects (restore old new) := by
  induction hnode with
  | inert hinert => exact .inert (renameFree_of_isInert hinert)
  | var name => exact .var _
  | negation _ ih => exact .negation (ih h)
  | binary _ _ ihl ihr =>
      obtain ⟨hl, hr⟩ := notMem_names_binary.mp h
      exact .binary (ihl hl) (ihr hr)
  | @function parameter body _ hbody ih =>
      obtain ⟨hparameter, hnew⟩ := notMem_names_function.mp h
      rw [renameFree]
      split
      · exact respects_restore (.function trivial hbody) h
      · next hne =>
          refine .function (ih hnew) fun x hx heq => ?_
          rw [restore_of_ne hparameter.symm] at heq
          by_cases hx : x = new
          · rw [hx, restore_new] at heq
            exact absurd heq.symm hne
          · rwa [restore_of_ne hx] at heq
  | apply _ _ ihc iha =>
      obtain ⟨hc, ha⟩ := notMem_names_apply.mp h
      exact .apply (ihc hc) (iha ha)
  | ifElse hlength _ _ ihc ihb =>
      obtain ⟨hc, hb⟩ := notMem_names_ifElse.mp h
      rw [renameFree_ifElse]
      refine .ifElse (by simpa using hlength) ?_ ?_
      · exact List.forall_mem_map.mpr fun node hmem => ihc node hmem (hc node hmem)
      · exact List.forall_mem_map.mpr fun node hmem => ihb node hmem (hb node hmem)

end RenameFree

namespace Rebinds

theorem rename (h : Rebinds old new node node') (hnew : new ∉ node.names) :
    node'.rename (restore old new) = node := by
  induction h with
  | parameter body =>
      rw [Node.rename, restore_new, rename_renameFree (notMem_names_function.mp hnew).2]
  | body _ ih =>
      obtain ⟨hparameter, hbody⟩ := notMem_names_function.mp hnew
      rw [Node.rename, restore_of_ne hparameter.symm, ih hbody]
  | callee _ ih =>
      obtain ⟨hc, ha⟩ := notMem_names_apply.mp hnew
      rw [Node.rename, ih hc, rename_restore ha]
  | argument _ ih =>
      obtain ⟨hc, ha⟩ := notMem_names_apply.mp hnew
      rw [Node.rename, rename_restore hc, ih ha]
  | left _ ih =>
      obtain ⟨hl, hr⟩ := notMem_names_binary.mp hnew
      rw [Node.rename, ih hl, rename_restore hr]
  | right _ ih =>
      obtain ⟨hl, hr⟩ := notMem_names_binary.mp hnew
      rw [Node.rename, rename_restore hl, ih hr]
  | operand _ ih => rw [Node.rename, ih hnew]
  | condition _ ih =>
      obtain ⟨hc, hb⟩ := notMem_names_ifElse.mp hnew
      rw [List.forall_mem_append, List.forall_mem_cons] at hc
      rw [rename_ifElse, List.map_append, List.map_cons, map_rename_restore hc.1, ih hc.2.1,
        map_rename_restore hc.2.2, map_rename_restore hb]
  | branch _ ih =>
      obtain ⟨hc, hb⟩ := notMem_names_ifElse.mp hnew
      rw [List.forall_mem_append, List.forall_mem_cons] at hb
      rw [rename_ifElse, List.map_append, List.map_cons, map_rename_restore hb.1, ih hb.2.1,
        map_rename_restore hb.2.2, map_rename_restore hc]
  | constructed _ ih =>
      have ha := notMem_names_construction.mp hnew
      rw [List.forall_mem_append, List.forall_mem_cons] at ha
      rw [Node.rename, renameAll_eq_map, List.map_append, List.map_cons, map_rename_restore ha.1,
        ih ha.2.1, map_rename_restore ha.2.2]
  | declaration _ ih => rw [Node.rename, ih (notMem_names_declaration.mp hnew).2]

theorem mem_freeNames (h : Rebinds old new node node') (hnew : new ∉ node.names) :
    x ∈ node'.freeNames [] ↔ x ∈ node.freeNames [] := by
  induction h with
  | parameter body =>
      obtain ⟨-, hbody⟩ := notMem_names_function.mp hnew
      have hfree := notMem_freeNames_of_notMem_names hbody
      rw [mem_freeNames_function, mem_freeNames_function, mem_freeNames_renameFree hbody]
      grind
  | body _ ih =>
      rw [mem_freeNames_function, mem_freeNames_function, ih (notMem_names_function.mp hnew).2]
  | callee _ ih =>
      rw [mem_freeNames_apply, mem_freeNames_apply, ih (notMem_names_apply.mp hnew).1]
  | argument _ ih =>
      rw [mem_freeNames_apply, mem_freeNames_apply, ih (notMem_names_apply.mp hnew).2]
  | left _ ih =>
      rw [mem_freeNames_binary, mem_freeNames_binary, ih (notMem_names_binary.mp hnew).1]
  | right _ ih =>
      rw [mem_freeNames_binary, mem_freeNames_binary, ih (notMem_names_binary.mp hnew).2]
  | operand _ ih => rw [mem_freeNames_negation, mem_freeNames_negation, ih hnew]
  | condition _ ih =>
      have ih := ih ((notMem_names_ifElse.mp hnew).1 _ (by simp))
      simp only [mem_freeNames_ifElse, List.mem_append, List.mem_cons, or_and_right, exists_or,
        exists_eq_left, ih]
  | branch _ ih =>
      have ih := ih ((notMem_names_ifElse.mp hnew).2 _ (by simp))
      simp only [mem_freeNames_ifElse, List.mem_append, List.mem_cons, or_and_right, exists_or,
        exists_eq_left, ih]
  | constructed | declaration => exact Iff.rfl

theorem respects (h : Rebinds old new node node') (hnode : node.IsExpression)
    (hnew : new ∉ node.names) : node'.Respects (restore old new) := by
  have hothers : ∀ nodes : List Node, (∀ node ∈ nodes, node.IsExpression) →
      (∀ node ∈ nodes, new ∉ node.names) → ∀ node ∈ nodes, node.Respects (restore old new) :=
    fun nodes hnodes hnew node hmem => respects_restore (hnodes node hmem) (hnew node hmem)
  induction h with
  | parameter body =>
      obtain ⟨-, hnew⟩ := notMem_names_function.mp hnew
      cases hnode with
      | inert hinert => cases hinert
      | function _ hbody =>
          refine .function (respects_renameFree hbody hnew) fun x hx heq => ?_
          rw [restore_new] at heq
          rcases (mem_freeNames_renameFree hnew).mp hx with ⟨hx, hne⟩ | ⟨rfl, -⟩
          · rw [restore_of_ne (ne_of_mem_freeNames hnew hx)] at heq
            exact absurd heq hne
          · rfl
  | body hrebinds ih =>
      obtain ⟨hparameter, hnew⟩ := notMem_names_function.mp hnew
      cases hnode with
      | inert hinert => cases hinert
      | function _ hbody =>
          refine .function (ih hbody hnew) fun x hx heq => ?_
          have hx := (hrebinds.mem_freeNames hnew).mp hx
          rwa [restore_of_ne (ne_of_mem_freeNames hnew hx), restore_of_ne hparameter.symm] at heq
  | callee _ ih =>
      obtain ⟨hc, ha⟩ := notMem_names_apply.mp hnew
      cases hnode with
      | inert hinert => cases hinert
      | apply hcallee hargument => exact .apply (ih hcallee hc) (respects_restore hargument ha)
  | argument _ ih =>
      obtain ⟨hc, ha⟩ := notMem_names_apply.mp hnew
      cases hnode with
      | inert hinert => cases hinert
      | apply hcallee hargument => exact .apply (respects_restore hcallee hc) (ih hargument ha)
  | left _ ih =>
      obtain ⟨hl, hr⟩ := notMem_names_binary.mp hnew
      cases hnode with
      | inert hinert => cases hinert
      | binary hleft hright => exact .binary (ih hleft hl) (respects_restore hright hr)
  | right _ ih =>
      obtain ⟨hl, hr⟩ := notMem_names_binary.mp hnew
      cases hnode with
      | inert hinert => cases hinert
      | binary hleft hright => exact .binary (respects_restore hleft hl) (ih hright hr)
  | operand _ ih =>
      cases hnode with
      | inert hinert => cases hinert
      | negation hoperand => exact .negation (ih hoperand hnew)
  | condition _ ih =>
      obtain ⟨hc, hb⟩ := notMem_names_ifElse.mp hnew
      rw [List.forall_mem_append, List.forall_mem_cons] at hc
      cases hnode with
      | inert hinert => cases hinert
      | ifElse hlength hconditions hbranches =>
          rw [List.forall_mem_append, List.forall_mem_cons] at hconditions
          refine .ifElse (by simpa using hlength) ?_ (hothers _ hbranches hb)
          rw [List.forall_mem_append, List.forall_mem_cons]
          exact ⟨hothers _ hconditions.1 hc.1, ih hconditions.2.1 hc.2.1,
            hothers _ hconditions.2.2 hc.2.2⟩
  | branch _ ih =>
      obtain ⟨hc, hb⟩ := notMem_names_ifElse.mp hnew
      rw [List.forall_mem_append, List.forall_mem_cons] at hb
      cases hnode with
      | inert hinert => cases hinert
      | ifElse hlength hconditions hbranches =>
          rw [List.forall_mem_append, List.forall_mem_cons] at hbranches
          refine .ifElse (by simpa using hlength) (hothers _ hconditions hc) ?_
          rw [List.forall_mem_append, List.forall_mem_cons]
          exact ⟨hothers _ hbranches.1 hb.1, ih hbranches.2.1 hb.2.1,
            hothers _ hbranches.2.2 hb.2.2⟩
  | constructed => exact .inert rfl
  | declaration =>
      cases hnode with
      | inert hinert => cases hinert

end Rebinds

end Node

end Viewlet
