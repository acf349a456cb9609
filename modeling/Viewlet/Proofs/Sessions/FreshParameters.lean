import Mathlib.Logic.Function.Basic
import Viewlet.Proofs.Evaluation.Idempotence
import Viewlet.Proofs.Sessions.RenamedSessions

/-!
Parameters apart from everything else. Every parameter is given a marked name, and the marks are
taken off by a renaming. Taking them off changes nothing in a session, as long as functions that
are handed on use no name of a parameter, and with the marks no parameter has a name that a
function uses. So what takes the latter condition holds under the former.
-/

namespace Viewlet

/-- Marked names, which are none of the plain ones, and a renaming that takes off the marks. The
carried names have no marked names that could become equal to them. -/
structure Marking (plain carried : List String) (mark ρ : String → String) : Prop where
  marked : ∀ x, mark x ∉ plain
  injective : Function.Injective mark
  restores : ∀ x, x ∉ carried → ρ (mark x) = x
  fixes : ∀ x ∈ plain, ρ x = x
  anchors : ∀ x ∈ carried, x ∈ plain → Anchored ρ x

theorem exists_length_lt (names : List String) : ∃ n, ∀ x ∈ names, x.length < n := by
  induction names with
  | nil => exact ⟨0, List.forall_mem_nil _⟩
  | cons name names ih =>
      obtain ⟨n, hn⟩ := ih
      refine ⟨max n (name.length + 1), List.forall_mem_cons.mpr ⟨by omega, fun x hx => ?_⟩⟩
      have := hn x hx
      omega

theorem exists_marking (plain carried : List String) : ∃ mark ρ, Marking plain carried mark ρ := by
  obtain ⟨n, hn⟩ := exists_length_lt plain
  -- A mark is longer than every plain name.
  let mark : String → String := fun x => "".pushn '\'' n ++ x
  have hplain : ∀ x, mark x ∉ plain := by
    intro x hx
    have hlength := hn _ hx
    rw [String.length_append, String.length_pushn] at hlength
    omega
  have hinjective : Function.Injective mark := fun x y h => (String.append_right_inj _).mp h
  let marked : { x // x ∉ carried } → String := fun x => mark x
  have hmarked : Function.Injective marked := hinjective.comp Subtype.val_injective
  have hfixes : ∀ x ∈ plain, Function.extend marked Subtype.val id x = x := by
    intro x hx
    refine Function.extend_apply' _ _ _ ?_
    rintro ⟨y, rfl⟩
    exact hplain y hx
  refine ⟨mark, Function.extend marked Subtype.val id, hplain, hinjective, fun x hx => ?_, hfixes,
    fun x hcarried hx y => ⟨fun heq => ?_, fun heq => heq ▸ hfixes x hx⟩⟩
  · exact hmarked.extend_apply Subtype.val id ⟨x, hx⟩
  · by_cases hy : ∃ z, marked z = y
    · obtain ⟨z, rfl⟩ := hy
      rw [hmarked.extend_apply] at heq
      exact absurd (heq ▸ hcarried) z.2
    · rwa [Function.extend_apply' _ _ _ hy] at heq

namespace Node

mutual

/-- Marks the parameters of an expression, and the variables that they or the bound names bind. -/
def freshen (mark : String → String) : (bound : List String) → Node → Node
  | bound, .var name => .var (if name ∈ bound then mark name else name)
  | bound, .function parameter body =>
      .function (mark parameter) (freshen mark (parameter :: bound) body)
  | bound, .apply callee argument =>
      .apply (freshen mark bound callee) (freshen mark bound argument)
  | bound, .binary op left right => .binary op (freshen mark bound left) (freshen mark bound right)
  | bound, .negation operand => .negation (freshen mark bound operand)
  | bound, .ifElse conditions branches =>
      .ifElse (freshenAll mark bound conditions) (freshenAll mark bound branches)
  | bound, .declaration name body => .declaration name (freshen mark bound body)
  | _, node => node

/-- Marks the parameters of expressions. -/
def freshenAll (mark : String → String) : (bound : List String) → List Node → List Node
  | _, [] => []
  | bound, node :: nodes => freshen mark bound node :: freshenAll mark bound nodes

end

attribute [local simp] freshen freshenAll names namesAll

variable {plain carried : List String} {mark ρ : String → String}
  {bound : List String} {node : Node} {nodes : List Node} {x name : String}

theorem freshenAll_eq_map : freshenAll mark bound nodes = nodes.map (freshen mark bound) := by
  induction nodes with
  | nil => rfl
  | cons node nodes ih => rw [freshenAll, ih, List.map_cons]

theorem freshen_ifElse (conditions branches : List Node) :
    (ifElse conditions branches).freshen mark bound =
      .ifElse (conditions.map (freshen mark bound)) (branches.map (freshen mark bound)) := by
  rw [freshen, freshenAll_eq_map, freshenAll_eq_map]

theorem freshen_of_isInert (h : node.isInert = true) : node.freshen mark bound = node := by
  cases node <;> simp_all [isInert]

theorem formed_freshen {admits : String → Prop} (h : node.IsExpression)
    (hmark : ∀ x, admits (mark x)) : (node.freshen mark bound).Formed admits := by
  induction h generalizing bound with
  | inert hinert =>
      rw [freshen_of_isInert hinert]
      exact .inert hinert
  | var name => exact .var _
  | negation _ ih => exact .negation ih
  | binary _ _ ihl ihr => exact .binary ihl ihr
  | function _ _ ih => exact .function (hmark _) ih
  | apply _ _ ihc iha => exact .apply ihc iha
  | ifElse hlength _ _ ihc ihb =>
      rw [freshen_ifElse]
      refine .ifElse (by simpa using hlength) ?_ ?_
      · exact List.forall_mem_map.mpr fun node hmem => ihc node hmem
      · exact List.forall_mem_map.mpr fun node hmem => ihb node hmem

/-- The names of the children of a chain of conditions. -/
theorem forall_names_ifElse {P : String → Prop} {conditions branches : List Node} :
    (∀ x ∈ (ifElse conditions branches).names, P x) ↔
      (∀ node ∈ conditions, ∀ x ∈ node.names, P x) ∧ ∀ node ∈ branches, ∀ x ∈ node.names, P x := by
  simp only [names, List.forall_mem_append, mem_namesAll]
  grind

theorem mem_freeNames_freshen (hmark : Marking plain carried mark ρ)
    (hnames : ∀ x ∈ node.names, x ∈ plain) :
    x ∈ (node.freshen mark bound).freeNames [] ↔
      ∃ y ∈ node.freeNames [], x = if y ∈ bound then mark y else y := by
  induction node generalizing bound with
  | var name => simp only [freshen, mem_freeNames_var, exists_eq_left]
  | function parameter body ih =>
      obtain ⟨-, hbody⟩ := List.forall_mem_cons.mp hnames
      simp only [freshen, mem_freeNames_function, ih hbody]
      constructor
      · rintro ⟨⟨y, hy, rfl⟩, hne⟩
        have hy' : y ≠ parameter := by
          rintro rfl
          exact hne (if_pos List.mem_cons_self)
        exact ⟨y, ⟨hy, hy'⟩, by simp [hy']⟩
      · rintro ⟨y, ⟨hy, hy'⟩, rfl⟩
        refine ⟨⟨y, hy, by simp [hy']⟩, ?_⟩
        split
        · exact fun heq => hy' (hmark.injective heq)
        · rintro rfl
          exact hmark.marked _ (hbody _ (mem_names_of_mem_freeNames hy))
  | apply callee argument ihc iha =>
      obtain ⟨hc, ha⟩ := List.forall_mem_append.mp hnames
      simp only [freshen, mem_freeNames_apply, ihc hc, iha ha, or_and_right, exists_or]
  | binary op left right ihl ihr =>
      obtain ⟨hl, hr⟩ := List.forall_mem_append.mp hnames
      simp only [freshen, mem_freeNames_binary, ihl hl, ihr hr, or_and_right, exists_or]
  | negation operand ih => simp only [freshen, mem_freeNames_negation, ih hnames]
  | ifElse conditions branches ihc ihb =>
      obtain ⟨hc, hb⟩ := forall_names_ifElse.mp hnames
      simp only [freshen_ifElse, mem_freeNames_ifElse, List.mem_map]
      constructor
      · rintro (⟨_, ⟨node, hmem, rfl⟩, hx⟩ | ⟨_, ⟨node, hmem, rfl⟩, hx⟩)
        · obtain ⟨y, hy, heq⟩ := (ihc node hmem (hc node hmem)).mp hx
          exact ⟨y, .inl ⟨node, hmem, hy⟩, heq⟩
        · obtain ⟨y, hy, heq⟩ := (ihb node hmem (hb node hmem)).mp hx
          exact ⟨y, .inr ⟨node, hmem, hy⟩, heq⟩
      · rintro ⟨y, ⟨node, hmem, hy⟩ | ⟨node, hmem, hy⟩, heq⟩
        · exact .inl ⟨_, ⟨node, hmem, rfl⟩, (ihc node hmem (hc node hmem)).mpr ⟨y, hy, heq⟩⟩
        · exact .inr ⟨_, ⟨node, hmem, rfl⟩, (ihb node hmem (hb node hmem)).mpr ⟨y, hy, heq⟩⟩
  | _ => simp [freeNames]

theorem mem_freeNames_freshen_nil (hmark : Marking plain carried mark ρ)
    (hnames : ∀ x ∈ node.names, x ∈ plain) :
    x ∈ (node.freshen mark []).freeNames [] ↔ x ∈ node.freeNames [] := by
  rw [mem_freeNames_freshen hmark hnames]
  simp

theorem rename_freshen (hmark : Marking plain carried mark ρ) (h : node.IsExpression)
    (hnames : ∀ x ∈ node.names, x ∈ plain) (hbound : ∀ x ∈ bound, x ∉ carried)
    (hparameters : ∀ x ∈ node.boundNames, x ∉ carried) :
    (node.freshen mark bound).rename ρ = node := by
  induction h generalizing bound with
  | inert hinert =>
      rw [freshen_of_isInert hinert]
      exact rename_eq_self fun x hx => hmark.fixes x (hnames x hx)
  | var name =>
      rw [freshen, rename]
      split
      · next hmem => rw [hmark.restores name (hbound name hmem)]
      · rw [hmark.fixes name (hnames name List.mem_cons_self)]
  | negation _ ih => rw [freshen, rename, ih hnames hbound hparameters]
  | binary _ _ ihl ihr =>
      obtain ⟨hl, hr⟩ := List.forall_mem_append.mp hnames
      obtain ⟨hl', hr'⟩ := List.forall_mem_append.mp hparameters
      rw [freshen, rename, ihl hl hbound hl', ihr hr hbound hr']
  | function _ _ ih =>
      obtain ⟨hparameter, hparameters⟩ := List.forall_mem_cons.mp hparameters
      rw [freshen, rename, hmark.restores _ hparameter,
        ih (List.forall_mem_cons.mp hnames).2
          (List.forall_mem_cons.mpr ⟨hparameter, hbound⟩) hparameters]
  | apply _ _ ihc iha =>
      obtain ⟨hc, ha⟩ := List.forall_mem_append.mp hnames
      obtain ⟨hc', ha'⟩ := List.forall_mem_append.mp hparameters
      rw [freshen, rename, ihc hc hbound hc', iha ha hbound ha']
  | ifElse _ _ _ ihc ihb =>
      obtain ⟨hc, hb⟩ := forall_names_ifElse.mp hnames
      obtain ⟨hc', hb'⟩ := List.forall_mem_append.mp hparameters
      have hchildren : ∀ {nodes : List Node},
          (∀ node ∈ nodes, (node.freshen mark bound).rename ρ = node) →
          (nodes.map (freshen mark bound)).map (rename ρ) = nodes := by
        intro nodes ih
        rw [List.map_map]
        exact (List.map_congr_left ih).trans (List.map_id nodes)
      rw [freshen_ifElse, rename_ifElse, hchildren fun node hmem => ihc node hmem (hc node hmem)
        hbound fun x hx => hc' x (mem_gatherAll hmem hx), hchildren fun node hmem =>
        ihb node hmem (hb node hmem) hbound fun x hx => hb' x (mem_gatherAll hmem hx)]

theorem respects_freshen (hmark : Marking plain carried mark ρ) (h : node.IsExpression)
    (hnames : ∀ x ∈ node.names, x ∈ plain) (hbound : ∀ x ∈ bound, x ∉ carried)
    (hparameters : ∀ x ∈ node.boundNames, x ∉ carried) :
    (node.freshen mark bound).Respects ρ := by
  induction h generalizing bound with
  | inert hinert =>
      rw [freshen_of_isInert hinert]
      exact .inert hinert
  | var name => exact .var _
  | negation _ ih => exact .negation (ih hnames hbound hparameters)
  | binary _ _ ihl ihr =>
      obtain ⟨hl, hr⟩ := List.forall_mem_append.mp hnames
      obtain ⟨hl', hr'⟩ := List.forall_mem_append.mp hparameters
      exact .binary (ihl hl hbound hl') (ihr hr hbound hr')
  | @function parameter body _ _ ih =>
      obtain ⟨hparameter, hparameters⟩ := List.forall_mem_cons.mp hparameters
      obtain ⟨-, hnames⟩ := List.forall_mem_cons.mp hnames
      have hbound : ∀ x ∈ parameter :: bound, x ∉ carried :=
        List.forall_mem_cons.mpr ⟨hparameter, hbound⟩
      refine .function (ih hnames hbound hparameters) fun x hx heq => ?_
      obtain ⟨y, hy, rfl⟩ := (mem_freeNames_freshen hmark hnames).mp hx
      rw [hmark.restores parameter hparameter] at heq
      split at heq
      · next hmem =>
          rw [hmark.restores y (hbound y hmem)] at heq
          rw [if_pos hmem, heq]
      · next hmem =>
          rw [hmark.fixes y (hnames y (mem_names_of_mem_freeNames hy))] at heq
          exact absurd (heq ▸ List.mem_cons_self) hmem
  | apply _ _ ihc iha =>
      obtain ⟨hc, ha⟩ := List.forall_mem_append.mp hnames
      obtain ⟨hc', ha'⟩ := List.forall_mem_append.mp hparameters
      exact .apply (ihc hc hbound hc') (iha ha hbound ha')
  | ifElse hlength _ _ ihc ihb =>
      obtain ⟨hc, hb⟩ := forall_names_ifElse.mp hnames
      obtain ⟨hc', hb'⟩ := List.forall_mem_append.mp hparameters
      rw [freshen_ifElse]
      refine .ifElse (by simpa using hlength) ?_ ?_
      · exact List.forall_mem_map.mpr fun node hmem => ihc node hmem (hc node hmem) hbound
          fun x hx => hc' x (mem_gatherAll hmem hx)
      · exact List.forall_mem_map.mpr fun node hmem => ihb node hmem (hb node hmem) hbound
          fun x hx => hb' x (mem_gatherAll hmem hx)

section Steady

variable {outer inner waited : List String}

theorem mem_map_mark (hmark : Marking plain carried mark ρ) (hx : x ∈ plain)
    (hwaited : ∀ y ∈ waited, y ∈ bound) :
    (if x ∈ bound then mark x else x) ∈ waited.map mark ↔ x ∈ waited := by
  split
  · refine ⟨fun h => ?_, List.mem_map_of_mem⟩
    obtain ⟨y, hy, heq⟩ := List.mem_map.mp h
    exact hmark.injective heq ▸ hy
  · next hmem =>
      refine iff_of_false (fun h => ?_) fun h => hmem (hwaited x h)
      obtain ⟨y, -, rfl⟩ := List.mem_map.mp h
      exact hmark.marked y hx

theorem awaits_freshen (hmark : Marking plain carried mark ρ) (hnames : ∀ x ∈ node.names, x ∈ plain)
    (hwaited : ∀ y ∈ waited, y ∈ bound) (h : node.awaits waited = true) :
    (node.freshen mark bound).awaits (waited.map mark) = true := by
  have hfirst : ∀ {nodes : List Node},
      (∀ node ∈ nodes, node.awaits waited = true →
        (node.freshen mark bound).awaits (waited.map mark) = true) →
      firstAwaits waited nodes = true →
      firstAwaits (waited.map mark) (nodes.map (freshen mark bound)) = true := by
    intro nodes ih h
    cases nodes with
    | nil => cases h
    | cons node nodes => exact ih node List.mem_cons_self h
  induction node with
  | var name =>
      rw [freshen, awaits_var, mem_map_mark hmark (hnames name List.mem_cons_self) hwaited]
      exact awaits_var.mp h
  | negation operand ih => exact ih hnames h
  | binary op left right ihl ihr =>
      obtain ⟨hl, hr⟩ := List.forall_mem_append.mp hnames
      exact awaits_binary.mpr ((awaits_binary.mp h).imp (ihl hl) (ihr hr))
  | apply callee argument =>
      obtain ⟨x, hx, hmem⟩ := awaits_apply.mp h
      exact awaits_apply.mpr ⟨_, (mem_freeNames_freshen hmark hnames).mpr ⟨x, hx, rfl⟩,
        (mem_map_mark hmark (hnames x (mem_names_of_mem_freeNames hx)) hwaited).mpr hmem⟩
  | ifElse conditions branches ihc ihb =>
      obtain ⟨hc, hb⟩ := forall_names_ifElse.mp hnames
      rw [freshen_ifElse, awaits_ifElse]
      exact (awaits_ifElse.mp h).imp (hfirst fun node hmem => ihc node hmem (hc node hmem))
        (hfirst fun node hmem => ihb node hmem (hb node hmem))
  | _ => cases h

theorem upTo_map_mark (hmark : Marking plain carried mark ρ) :
    (upTo outer x).map mark = upTo (outer.map mark) (mark x) := by
  have hindex : (outer.map mark).idxOf (mark x) = outer.idxOf x := by
    induction outer with
    | nil => rfl
    | cons y outer ih =>
        rw [List.map_cons, List.idxOf_cons, List.idxOf_cons, ih]
        by_cases hy : y = x
        · rw [hy, beq_self_eq_true, beq_self_eq_true]
        · have hy' : mark y ≠ mark x := fun heq => hy (hmark.injective heq)
          rw [beq_false_of_ne hy, beq_false_of_ne hy']
  rw [upTo, upTo, List.map_take, hindex]

theorem retains_freshen (hmark : Marking plain carried mark ρ)
    (hnames : ∀ x ∈ node.names, x ∈ plain) (h : node.retains outer inner = true) :
    (node.freshen mark (inner ++ outer)).retains (outer.map mark) (inner.map mark) = true := by
  induction node generalizing inner with
  | function parameter body ih => exact ih (List.forall_mem_cons.mp hnames).2 h
  | negation operand ih => exact ih hnames h
  | binary op left right ihl ihr =>
      obtain ⟨hl, hr⟩ := List.forall_mem_append.mp hnames
      exact retains_binary.mpr ((retains_binary.mp h).imp (ihl hl) (ihr hr))
  | apply callee argument ihc iha =>
      obtain ⟨hc, ha⟩ := List.forall_mem_append.mp hnames
      exact retains_apply.mpr ((retains_apply.mp h).imp (ihc hc) (iha ha))
  | ifElse conditions branches =>
      rw [retains_ifElse] at h
      have hnode : (ifElse conditions branches).freshen mark (inner ++ outer) =
          .ifElse _ _ := freshen_ifElse conditions branches
      rw [hnode, retains_ifElse, ← hnode]
      intro x hx hmem
      rw [mem_freeNames, mem_freeNames_freshen hmark hnames] at hx
      obtain ⟨⟨y, hy, rfl⟩, hinner⟩ := hx
      have hplain := hnames y (mem_names_of_mem_freeNames hy)
      have houter : y ∈ outer := (mem_map_mark hmark hplain fun _ =>
        List.mem_append_right inner).mp hmem
      rw [if_pos (List.mem_append_right inner houter)] at hinner ⊢
      have hy' : y ∉ inner := fun hmem => hinner (List.mem_map_of_mem hmem)
      rw [← upTo_map_mark hmark, ← List.map_append]
      refine awaits_freshen hmark hnames (fun z hz => ?_)
        (h y ((mem_freeNames inner).mpr ⟨hy, hy'⟩) houter)
      exact List.mem_append.mpr ((List.mem_append.mp hz).imp_right mem_of_mem_upTo)
  | _ => rfl

theorem steady_freshen (hmark : Marking plain carried mark ρ) (hnames : ∀ x ∈ node.names, x ∈ plain)
    (h : node.steady bound = true) :
    (node.freshen mark bound).steady (bound.map mark) = true := by
  induction node generalizing bound with
  | function parameter body ih => exact ih (List.forall_mem_cons.mp hnames).2 h
  | negation operand ih => exact ih hnames h
  | binary op left right ihl ihr =>
      obtain ⟨hl, hr⟩ := List.forall_mem_append.mp hnames
      exact steady_binary.mpr ((steady_binary.mp h).imp (ihl hl) (ihr hr))
  | apply callee argument ihc iha =>
      obtain ⟨hc, ha⟩ := List.forall_mem_append.mp hnames
      obtain ⟨⟨hretains, hsteady⟩, hretains', hsteady'⟩ := steady_apply.mp h
      have hcallee := retains_freshen hmark hc hretains
      have hargument := retains_freshen hmark ha hretains'
      exact steady_apply.mpr ⟨⟨hcallee, ihc hc hsteady⟩, hargument, iha ha hsteady'⟩
  | ifElse conditions branches ihc ihb =>
      obtain ⟨hc, hb⟩ := forall_names_ifElse.mp hnames
      obtain ⟨hc', hb'⟩ := steady_ifElse.mp h
      rw [freshen_ifElse, steady_ifElse]
      exact ⟨List.forall_mem_map.mpr fun node hmem => ihc node hmem (hc node hmem) (hc' node hmem),
        List.forall_mem_map.mpr fun node hmem => ihb node hmem (hb node hmem) (hb' node hmem)⟩
  | _ => rfl

theorem defers_freshen (hmark : Marking plain carried mark ρ) (hname : name ∈ plain)
    (hnames : ∀ x ∈ node.names, x ∈ plain) (h : node.defers name bound = true) :
    (node.freshen mark bound).defers name (bound.map mark) = true := by
  have hfree : ∀ {part : Node} {bound : List String}, (∀ x ∈ part.names, x ∈ plain) →
      name ∈ (part.freshen mark bound).freeNames [] → name ∈ part.freeNames [] ∧ name ∉ bound := by
    intro part bound hpart hx
    obtain ⟨y, hy, heq⟩ := (mem_freeNames_freshen hmark hpart).mp hx
    split at heq
    · exact absurd (heq ▸ hname) (hmark.marked y)
    · next hmem => exact heq ▸ ⟨hy, hmem⟩
  induction node generalizing bound with
  | var other =>
      rw [freshen, defers_var]
      split
      · exact fun heq => hmark.marked other (heq ▸ hname)
      · exact defers_var.mp h
  | function parameter body ih =>
      obtain ⟨-, hbody⟩ := List.forall_mem_cons.mp hnames
      rw [freshen, defers_function]
      rcases defers_function.mp h with rfl | h
      · exact .inr (defers_of_notMem fun hx => (hfree hbody hx).2 List.mem_cons_self)
      · exact .inr (ih hbody h)
  | negation operand ih => exact ih hnames h
  | binary op left right ihl ihr =>
      obtain ⟨hl, hr⟩ := List.forall_mem_append.mp hnames
      exact defers_binary.mpr ((defers_binary.mp h).imp (ihl hl) (ihr hr))
  | apply callee argument ihc iha =>
      obtain ⟨hc, ha⟩ := List.forall_mem_append.mp hnames
      obtain ⟨⟨hcallee, hargument⟩, hwaits⟩ := defers_apply.mp h
      have hoperand : ∀ {part : Node}, (part.defers name bound = true →
            (part.freshen mark bound).defers name (bound.map mark) = true) →
          part = .var name ∨ part.defers name bound = true →
          part.freshen mark bound = .var name ∨
            (part.freshen mark bound).defers name (bound.map mark) = true := by
        rintro part ih (rfl | h)
        · rw [freshen, defers_var]
          split
          · exact .inr fun heq => hmark.marked name (heq.symm ▸ hname)
          · exact .inl rfl
        · exact .inr (ih h)
      refine defers_apply.mpr ⟨⟨hoperand (ihc hc) hcallee, hoperand (iha ha) hargument⟩,
        fun hx => ?_⟩
      exact awaits_freshen hmark hnames (fun _ => id) (hwaits (hfree hnames hx).1)
  | ifElse conditions branches ihc ihb =>
      obtain ⟨hc, hb⟩ := forall_names_ifElse.mp hnames
      have hfirst : ∀ {nodes : List Node}, (∀ node ∈ nodes, node.defers name bound = true →
            (node.freshen mark bound).defers name (bound.map mark) = true) →
          firstDefers name bound nodes = true →
          firstDefers name (bound.map mark) (nodes.map (freshen mark bound)) = true := by
        intro nodes ih h
        cases nodes with
        | nil => rfl
        | cons node nodes => exact ih node List.mem_cons_self h
      have hall : ∀ {nodes : List Node}, (∀ node ∈ nodes, node.defers name bound = true →
            (node.freshen mark bound).defers name (bound.map mark) = true) →
          allDefer name bound nodes = true →
          allDefer name (bound.map mark) (nodes.map (freshen mark bound)) = true :=
        fun ih h => allDefer_iff.mpr (List.forall_mem_map.mpr fun node hmem =>
          ih node hmem (allDefer_iff.mp h node hmem))
      have ihc := fun node hmem (h : node.defers name bound = true) =>
        ihc node hmem (hc node hmem) h
      have ihb := fun node hmem (h : node.defers name bound = true) =>
        ihb node hmem (hb node hmem) h
      have hawaits := awaits_freshen hmark hnames fun x (hx : x ∈ bound) => hx
      rw [freshen_ifElse] at hawaits ⊢
      exact defers_ifElse.mpr ((defers_ifElse.mp h).imp
        (And.imp hawaits (And.imp (hfirst ihc) (hfirst ihb))) (And.imp (hall ihc) (hall ihb)))
  | _ => rfl

end Steady

end Node

/-- A declaration with parameters apart from the names that are carried. -/
structure Node.Apart (called carried : List String) (name : String) (body : Node) : Prop where
  parameters : ∀ x ∈ body.boundNames, x ∉ carried
  carried : ∀ x ∈ (Node.declaration name body).carriedNames called, x ∈ carried
  handed : ∀ x ∈ body.handedNames, x ∉ called

/-- Units that are declarations of this kind. -/
def ApartUnits (called carried : List String) (nodes : List Node) : Prop :=
  ∀ node ∈ nodes, ∃ name body, node = .declaration name body ∧ body.IsExpression ∧
    body.Apart called carried name

namespace Marking

variable {plain carried called : List String} {mark ρ : String → String}
  {name : String} {body : Node} {nodes : List Node}

theorem rename_freshen (hmark : Marking plain carried mark ρ) (hbody : body.IsExpression)
    (hapart : body.Apart called carried name) (hnames : ∀ x ∈ body.names, x ∈ plain) :
    (body.freshen mark []).rename ρ = body :=
  Node.rename_freshen hmark hbody hnames (List.forall_mem_nil _) hapart.parameters

theorem rename_freshen_declaration (hmark : Marking plain carried mark ρ)
    (hbody : body.IsExpression) (hapart : body.Apart called carried name)
    (hnames : ∀ x ∈ (Node.declaration name body).names, x ∈ plain) :
    ((Node.declaration name body).freshen mark []).rename ρ = .declaration name body :=
  congrArg (Node.declaration name)
    (hmark.rename_freshen hbody hapart (List.forall_mem_cons.mp hnames).2)

theorem respects_freshen (hmark : Marking plain carried mark ρ) (hbody : body.IsExpression)
    (hapart : body.Apart called carried name) (hnames : ∀ x ∈ body.names, x ∈ plain) :
    (body.freshen mark []).Respects ρ :=
  Node.respects_freshen hmark hbody hnames (List.forall_mem_nil _) hapart.parameters

theorem mem_plain_of_mem_freeNames (hmark : Marking plain carried mark ρ)
    (hnames : ∀ x ∈ body.names, x ∈ plain) {x : String}
    (hx : x ∈ (body.freshen mark []).freeNames []) : x ∈ plain :=
  hnames x (Node.mem_names_of_mem_freeNames ((Node.mem_freeNames_freshen_nil hmark hnames).mp hx))

theorem renamableUnit (hmark : Marking plain carried mark ρ) (hbody : body.IsExpression)
    (hapart : body.Apart called carried name)
    (hnames : ∀ x ∈ (Node.declaration name body).names, x ∈ plain) :
    ((Node.declaration name body).freshen mark []).RenamableUnit ρ called := by
  obtain ⟨hname, hnames⟩ := List.forall_mem_cons.mp hnames
  have hrename := hmark.rename_freshen hbody hapart hnames
  refine .of_rename (hmark.fixes name hname) (hmark.respects_freshen hbody hapart hnames)
    (fun x hx => hmark.fixes x (hmark.mem_plain_of_mem_freeNames hnames hx))
    (hrename.symm ▸ fun x hx => ?_)
    (hrename.symm ▸ hapart.handed)
  exact hmark.anchors x (hapart.carried x hx) (hnames x
    (Node.mem_names_of_mem_freeNames (Node.mem_freeNames_of_mem_carriedNames hx)))

theorem renamableUnits (hmark : Marking plain carried mark ρ)
    (hnodes : ApartUnits called carried nodes) (hnames : ∀ x ∈ Node.namesAll nodes, x ∈ plain) :
    ∀ unit ∈ nodes.map (Node.freshen mark []), unit.RenamableUnit ρ called := by
  refine List.forall_mem_map.mpr fun node hmem => ?_
  obtain ⟨name, body, rfl, hbody, hapart⟩ := hnodes node hmem
  exact hmark.renamableUnit hbody hapart fun x hx => hnames x (Node.mem_namesAll.mpr ⟨_, hmem, hx⟩)

theorem map_rename_freshen (hmark : Marking plain carried mark ρ)
    (hnodes : ApartUnits called carried nodes) (hnames : ∀ x ∈ Node.namesAll nodes, x ∈ plain) :
    (nodes.map (Node.freshen mark [])).map (Node.rename ρ) = nodes := by
  rw [List.map_map]
  refine (List.map_congr_left fun node hmem => ?_).trans (List.map_id nodes)
  obtain ⟨name, body, rfl, hbody, hapart⟩ := hnodes node hmem
  exact hmark.rename_freshen_declaration hbody hapart fun x hx =>
    hnames x (Node.mem_namesAll.mpr ⟨_, hmem, hx⟩)

theorem formed_units (hmark : Marking plain carried mark ρ)
    (hnodes : ApartUnits called carried nodes) (hnames : ∀ x ∈ Node.namesAll nodes, x ∈ plain)
    (hmem : .declaration name body ∈ nodes.map (Node.freshen mark [])) :
    body.Formed (· ∉ plain) ∧ ∀ x ∈ body.keptNames, x ∈ plain := by
  obtain ⟨node, hnode, heq⟩ := List.mem_map.mp hmem
  obtain ⟨name, body, rfl, hbody, -⟩ := hnodes node hnode
  obtain ⟨rfl, rfl⟩ := Node.declaration.inj heq
  have hnames : ∀ x ∈ body.names, x ∈ plain := fun x hx =>
    hnames x (Node.mem_namesAll.mpr ⟨_, hnode, List.mem_cons_of_mem name hx⟩)
  exact ⟨Node.formed_freshen hbody hmark.marked, fun x hx =>
    hmark.mem_plain_of_mem_freeNames hnames (Node.mem_freeNames_of_mem_keptNames hx)⟩

theorem declareAll_eq {session : Session} {depth : Nat} (hmark : Marking plain carried mark ρ)
    (hnodes : ApartUnits called carried nodes) (hnames : ∀ x ∈ Node.namesAll nodes, x ∈ plain)
    (h : session.table.Portable ρ called) :
    (session.rename ρ).declareAll depth (nodes.map .ok) =
      (session.declareAll depth ((nodes.map (Node.freshen mark [])).map .ok)).map fun outcome =>
        (outcome.1.mapError (SessionError.rename ρ), outcome.2.rename ρ) := by
  rw [← Session.declareAll_rename (hmark.renamableUnits hnodes hnames) h,
    hmark.map_rename_freshen hnodes hnames]

/-- A run is one with marked parameters, whose marks are taken off. -/
theorem exists_declareAll {session after : Session} {depth : Nat}
    {result : Except SessionError Unit} (hmark : Marking plain carried mark ρ)
    (hnodes : ApartUnits called carried nodes)
    (hnames : ∀ x ∈ Node.namesAll nodes, x ∈ plain) (h : session.table.Portable ρ called)
    (hrun : (session.rename ρ).declareAll depth (nodes.map .ok) = some (result, after)) :
    ∃ outcome final, result = outcome.mapError (SessionError.rename ρ) ∧ after = final.rename ρ ∧
      session.declareAll depth ((nodes.map (Node.freshen mark [])).map .ok) =
        some (outcome, final) ∧ final.table.Portable ρ called := by
  rw [hmark.declareAll_eq hnodes hnames h] at hrun
  obtain ⟨⟨outcome, final⟩, hdeclare, heq⟩ := Option.map_eq_some_iff.mp hrun
  obtain ⟨rfl, rfl⟩ := Prod.mk.inj heq
  exact ⟨outcome, final, rfl, rfl, hdeclare,
    Session.portable_of_declareAll (hmark.renamableUnits hnodes hnames) h hdeclare⟩

end Marking

end Viewlet
