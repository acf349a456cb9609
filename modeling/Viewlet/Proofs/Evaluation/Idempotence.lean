import Viewlet.Proofs.Evaluation.HandedNames
import Viewlet.Proofs.Evaluation.SteadyOutcomes

namespace Viewlet

namespace Node

mutual

/-- Whether evaluation meets the name only as an operand of an application that waits for one of
the bound names. -/
def defers (name : String) : (bound : List String) → Node → Bool
  | _, .var other => other != name
  | bound, .negation operand => defers name bound operand
  | bound, .binary _ left right => defers name bound left && defers name bound right
  | bound, .function parameter body => parameter == name || defers name (parameter :: bound) body
  | bound, .apply callee argument =>
      ((callee.isVariable || defers name bound callee) &&
        (argument.isVariable || defers name bound argument)) &&
        (!(freeNames [] (.apply callee argument)).contains name ||
          awaits bound (.apply callee argument))
  | bound, .ifElse conditions branches =>
      (awaits bound (.ifElse conditions branches) &&
          (firstDefers name bound conditions && firstDefers name bound branches)) ||
        (allDefer name bound conditions && allDefer name bound branches)
  | _, _ => true

def firstDefers (name : String) : (bound : List String) → List Node → Bool
  | _, [] => true
  | bound, node :: _ => defers name bound node

def allDefer (name : String) : (bound : List String) → List Node → Bool
  | _, [] => true
  | bound, node :: nodes => defers name bound node && allDefer name bound nodes

end

section Defers

variable {name : String} {bound : List String} {conditions branches : List Node}

attribute [local simp] isVariable defers firstDefers allDefer

theorem defers_var {other : String} : (var other).defers name bound = true ↔ other ≠ name := by
  simp

theorem defers_binary {op : BinOp} {left right : Node} :
    (binary op left right).defers name bound = true ↔
      left.defers name bound = true ∧ right.defers name bound = true := by
  simp

theorem defers_function {parameter : String} {body : Node} :
    (function parameter body).defers name bound = true ↔
      parameter = name ∨ body.defers name (parameter :: bound) = true := by
  simp

theorem isVariable_or_defers {node : Node} :
    (node.isVariable || node.defers name bound) = true ↔
      node = .var name ∨ node.defers name bound = true := by
  cases node with
  | var other => simp [em]
  | _ => simp

theorem defers_apply {callee argument : Node} :
    (apply callee argument).defers name bound = true ↔
      ((callee = .var name ∨ callee.defers name bound = true) ∧
        (argument = .var name ∨ argument.defers name bound = true)) ∧
      (name ∈ (apply callee argument).freeNames [] →
        (apply callee argument).awaits bound = true) := by
  rw [defers, Bool.and_eq_true, Bool.and_eq_true, isVariable_or_defers, isVariable_or_defers,
    Bool.or_eq_true, Bool.not_eq_true', ← Bool.not_eq_true, List.contains_iff_mem, imp_iff_not_or]

theorem allDefer_cons {node : Node} {nodes : List Node} :
    allDefer name bound (node :: nodes) = true ↔
      node.defers name bound = true ∧ allDefer name bound nodes = true := by
  simp

theorem allDefer_iff {nodes : List Node} :
    allDefer name bound nodes = true ↔ ∀ node ∈ nodes, node.defers name bound = true := by
  induction nodes with
  | nil => simp
  | cons node nodes ih => simp [ih]

theorem firstDefers_of_allDefer {nodes : List Node} (h : allDefer name bound nodes = true) :
    firstDefers name bound nodes = true := by
  cases nodes with
  | nil => rfl
  | cons node nodes => exact (allDefer_cons.mp h).1

theorem defers_ifElse : (ifElse conditions branches).defers name bound = true ↔
    ((ifElse conditions branches).awaits bound = true ∧
      firstDefers name bound conditions = true ∧ firstDefers name bound branches = true) ∨
    (allDefer name bound conditions = true ∧ allDefer name bound branches = true) := by
  simp

theorem defers_of_notMem {node : Node} (h : name ∉ node.freeNames []) :
    node.defers name bound = true := by
  induction node generalizing bound with
  | var other => exact defers_var.mpr fun heq => h (mem_freeNames_var.mpr heq.symm)
  | function parameter body ih =>
      refine defers_function.mpr ((em (parameter = name)).imp_right fun hne => ih fun hx => ?_)
      exact h (mem_freeNames_function.mpr ⟨hx, fun heq => hne heq.symm⟩)
  | negation operand ih => exact ih fun hx => h (mem_freeNames_negation.mpr hx)
  | binary op left right ihl ihr =>
      exact defers_binary.mpr ⟨ihl fun hx => h (mem_freeNames_binary.mpr (.inl hx)),
        ihr fun hx => h (mem_freeNames_binary.mpr (.inr hx))⟩
  | apply callee argument ihc iha =>
      exact defers_apply.mpr ⟨⟨.inr (ihc fun hx => h (mem_freeNames_apply.mpr (.inl hx))),
        .inr (iha fun hx => h (mem_freeNames_apply.mpr (.inr hx)))⟩, fun hx => absurd hx h⟩
  | ifElse conditions branches ihc ihb =>
      refine defers_ifElse.mpr (.inr ⟨allDefer_iff.mpr fun node hmem => ?_,
        allDefer_iff.mpr fun node hmem => ?_⟩)
      · exact ihc node hmem fun hx => h (mem_freeNames_ifElse.mpr (.inl ⟨node, hmem, hx⟩))
      · exact ihb node hmem fun hx => h (mem_freeNames_ifElse.mpr (.inr ⟨node, hmem, hx⟩))
  | _ => rfl

theorem firstDefers_of_defers (h : (ifElse conditions branches).defers name bound = true) :
    firstDefers name bound conditions = true ∧ firstDefers name bound branches = true :=
  (defers_ifElse.mp h).elim And.right (And.imp firstDefers_of_allDefer firstDefers_of_allDefer)

end Defers

theorem mentionsUnresolved_apply {scope : Scope} {callee argument : Node} :
    (apply callee argument).mentionsUnresolved scope = true ↔
      callee.mentionsUnresolved scope = true ∨ argument.mentionsUnresolved scope = true := by
  simp only [mentionsUnresolved_eq_true, mem_freeNames_apply, or_and_right, exists_or]

end Node

@[simp] theorem Table.kept_self (table : Table) (scope : Scope) (node : Node) :
    table.kept scope node node = node :=
  ite_self node

namespace ResultsIn

variable {table : Table} {scope : Scope} {callee argument : Node} {first second : Evaluated}

theorem mentions_of_suspended (hfirst : ResultsIn table scope callee first)
    (hsecond : ResultsIn table scope argument second)
    (hwaits : first.complete = false ∨ second.complete = false ∨
      callee.mentionsUnresolved scope = true ∨ argument.mentionsUnresolved scope = true) :
    (Node.apply callee argument).mentionsUnresolved scope = true := by
  rw [Node.mentionsUnresolved_apply]
  rcases hwaits with hincomplete | hincomplete | hmentions
  · exact .inl (hfirst.mentions hincomplete)
  · exact .inr (hsecond.mentions hincomplete)
  · exact hmentions

theorem suspended_of_mentions (hfirst : ResultsIn table scope callee first)
    (hsecond : ResultsIn table scope argument second)
    (hfunction : first.complete = true → first.node.isFunction = true)
    (hmentions : (Node.apply callee argument).mentionsUnresolved scope = true) :
    ResultsIn table scope (.apply callee argument) ⟨.apply (table.kept scope callee first.node)
      (table.kept scope argument second.node), false⟩ :=
  .suspended hfirst hsecond hfunction (.inr (.inr (Node.mentionsUnresolved_apply.mp hmentions)))

end ResultsIn

/-- The second scope is the first one without a name that is unresolved there. -/
structure Scope.Releases (name : String) (scope scope' : Scope) : Prop where
  others : ∀ x, x ≠ name → scope'.get? x = scope.get? x
  unresolved : scope.isUnresolved name = true
  unbound : scope'.get? name = none

namespace Scope.Releases

variable {name x : String} {scope scope' : Scope} {node : Node} {bound : List String}

theorem bindUnresolved (h : scope.Releases name scope') {parameter : String}
    (hparameter : parameter ≠ name) :
    (scope.bindUnresolved parameter).Releases name (scope'.bindUnresolved parameter) where
  others x hx := get?_bindUnresolved_congr parameter fun _ => h.others x hx
  unresolved := isUnresolved_bindUnresolved.mpr (.inr h.unresolved)
  unbound := by
    rw [Scope.bindUnresolved, get?_bind, if_neg hparameter.symm]
    exact h.unbound

theorem get?_bindUnresolved (h : scope.Releases name scope') :
    (scope'.bindUnresolved name).get? x = (scope.bindUnresolved name).get? x :=
  get?_bindUnresolved_congr name fun hne => h.others x hne

theorem isUnresolved_iff (h : scope.Releases name scope') :
    scope'.isUnresolved x = true ↔ x ≠ name ∧ scope.isUnresolved x = true := by
  rw [Scope.isUnresolved_iff, Scope.isUnresolved_iff]
  by_cases hx : x = name
  · simp [hx, h.unbound]
  · simp [hx, h.others x hx]

theorem value?_eq (h : scope.Releases name scope') : scope'.value? x = scope.value? x := by
  by_cases hx : x = name
  · rw [hx, value?_of_isUnresolved h.unresolved, Scope.value?_eq_none]
    exact .inl h.unbound
  · exact value?_congr (h.others x hx)

theorem get?_of_mentions (h : scope.Releases name scope')
    (hnode : node.mentionsUnresolved scope = false) (hx : x ∈ node.freeNames []) :
    scope'.get? x = scope.get? x := by
  refine h.others x ?_
  rintro rfl
  have hresolved := Node.mentionsUnresolved_eq_false.mp hnode x hx
  rw [h.unresolved] at hresolved
  cases hresolved

theorem mentionsUnresolved {callee argument : Node} (h : scope.Releases name scope')
    (hbound : ∀ x ∈ bound, scope'.isUnresolved x = true)
    (hdefers : (Node.apply callee argument).defers name bound = true)
    (hmentions : (Node.apply callee argument).mentionsUnresolved scope = true) :
    (Node.apply callee argument).mentionsUnresolved scope' = true := by
  obtain ⟨x, hx, hunresolved⟩ := Node.mentionsUnresolved_eq_true.mp hmentions
  by_cases heq : x = name
  · obtain ⟨y, hy, hmem⟩ := Node.awaits_apply.mp ((Node.defers_apply.mp hdefers).2 (heq ▸ hx))
    exact Node.mentionsUnresolved_eq_true.mpr ⟨y, hy, hbound y hmem⟩
  · exact Node.mentionsUnresolved_eq_true.mpr ⟨x, hx, h.isUnresolved_iff.mpr ⟨heq, hunresolved⟩⟩

end Scope.Releases

theorem ResultsIn.eq_of_isUnresolved {table : Table} {scope : Scope} {name : String}
    {outcome : Evaluated} (h : ResultsIn table scope (.var name) outcome)
    (hunresolved : scope.isUnresolved name = true) : outcome = ⟨.var name, false⟩ := by
  cases h with
  | literal hliteral => cases hliteral
  | unresolved => rfl
  | bound hvalue =>
      rw [Scope.value?_of_isUnresolved hunresolved] at hvalue
      cases hvalue
  | declared hnone =>
      rw [Scope.isUnresolved_iff.mp hunresolved] at hnone
      cases hnone

theorem Table.kept_of_lookup {table : Table} {scope : Scope} {name parameter : String}
    {body found : Node} (hnone : scope.get? name = none)
    (hlookup : table.lookup name = some (.function parameter body)) :
    table.kept scope (.var name) found = .var name :=
  if_pos (Table.namesFunction_iff.mpr ⟨name, parameter, body, rfl, hnone, hlookup⟩)

section Release

variable {table table' : Table} {scope scope' : Scope} {node : Node} {outcome : Evaluated}
  {name parameter : String} {body : Node} {bound : List String}
  (htable : ∀ x value, table.lookup x = some value → table'.lookup x = some value)
  (hname : table'.lookup name = some (.function parameter body))
include htable hname

theorem Scope.Releases.operand (hscope : scope.Releases name scope')
    (h : ResultsIn table scope node outcome)
    (hnode : node = .var name ∨ ResultsIn table' scope' node outcome) :
    ∃ outcome', ResultsIn table' scope' node outcome' ∧
      table'.kept scope' node outcome'.node = table.kept scope node outcome.node ∧
      ((outcome.complete = true → outcome.node.isFunction = true) →
        outcome'.complete = true → outcome'.node.isFunction = true) := by
  by_cases heq : node = .var name
  · subst heq
    obtain rfl := h.eq_of_isUnresolved hscope.unresolved
    refine ⟨_, .declared hscope.unbound hname Node.noConfusion, ?_, fun _ _ => rfl⟩
    rw [Table.kept_self, Table.kept_of_lookup hscope.unbound hname]
  · refine ⟨outcome, hnode.resolve_left heq, Table.kept_congr fun x hx => ?_, id⟩
    subst hx
    have hne : x ≠ name := fun hx => heq (congrArg Node.var hx)
    refine ⟨hscope.others x hne, fun hnone => ?_⟩
    obtain ⟨value, hlookup, -, -⟩ := h.lookup_of_var hnone
    rw [hlookup, htable x value hlookup]

/-- It makes no difference that a name becomes the name of a declared function, if evaluation
meets it in waiting applications only. -/
theorem ResultsIn.release (h : ResultsIn table scope node outcome)
    (hscope : scope.Releases name scope') (hbound : ∀ x ∈ bound, scope'.isUnresolved x = true)
    (hdefers : node.defers name bound = true) : ResultsIn table' scope' node outcome := by
  have hwhole : ∀ {whole : Node} {scope scope' : Scope}, scope.Releases name scope' →
      whole.substitute scope' = whole.substitute scope := fun hscope =>
    Node.substitute_congr fun x _ => hscope.value?_eq
  induction h generalizing scope' bound with
  | literal hliteral => exact .literal hliteral
  | unresolved hunresolved =>
      exact .unresolved (hscope.isUnresolved_iff.mpr ⟨Node.defers_var.mp hdefers, hunresolved⟩)
  | bound hvalue => exact .bound (hscope.value?_eq.trans hvalue)
  | declared hnone hlookup hne =>
      exact .declared ((hscope.others _ (Node.defers_var.mp hdefers)).trans hnone)
        (htable _ _ hlookup) hne
  | inverted _ ih => exact .inverted (ih hscope hbound hdefers)
  | negation _ ih => exact .negation (ih hscope hbound hdefers)
  | operated _ _ hvalue ihl ihr =>
      obtain ⟨hleft, hright⟩ := Node.defers_binary.mp hdefers
      exact .operated (ihl hscope hbound hleft) (ihr hscope hbound hright) hvalue
  | binary _ _ hincomplete ihl ihr =>
      obtain ⟨hleft, hright⟩ := Node.defers_binary.mp hdefers
      exact .binary (ihl hscope hbound hleft) (ihr hscope hbound hright) hincomplete
  | @function _ parameter _ _ hbody ih =>
      by_cases hparameter : parameter = name
      · subst hparameter
        exact .function ((hbody.extend htable).congr fun x _ => hscope.get?_bindUnresolved)
      · refine .function (ih (hscope.bindUnresolved hparameter) (List.forall_mem_cons.mpr ⟨?_, ?_⟩)
          ((Node.defers_function.mp hdefers).resolve_left hparameter))
        · exact Scope.isUnresolved_bindUnresolved.mpr (.inl rfl)
        · exact fun x hx => Scope.isUnresolved_bindUnresolved.mpr (.inr (hbound x hx))
  | called hfirst hsecond hcallee hargument hbody =>
      -- What is called mentions no unresolved name, so it does not mention this one.
      have hcall := (ResultsIn.called hfirst hsecond hcallee hargument hbody).extend htable
      refine hcall.congr fun x hx => ?_
      exact (Node.mem_freeNames_apply.mp hx).elim (hscope.get?_of_mentions hcallee)
        (hscope.get?_of_mentions hargument)
  | suspended hfirst hsecond hfunction hwaits ihc iha =>
      obtain ⟨⟨hcallee, hargument⟩, -⟩ := Node.defers_apply.mp hdefers
      obtain ⟨first', hfirst', hkept, hfunction'⟩ := hscope.operand htable hname hfirst
        (hcallee.imp_right (ihc hscope hbound))
      obtain ⟨second', hsecond', hkept', -⟩ := hscope.operand htable hname hsecond
        (hargument.imp_right (iha hscope hbound))
      rw [← hkept, ← hkept']
      exact suspended_of_mentions hfirst' hsecond' (hfunction' hfunction)
        (hscope.mentionsUnresolved hbound hdefers (mentions_of_suspended hfirst hsecond hwaits))
  | selected _ _ _ _ ihc ihb =>
      obtain ⟨hcondition, hbranch⟩ := Node.firstDefers_of_defers hdefers
      exact .selected _ _ (ihc hscope hbound hcondition) (ihb hscope hbound hbranch)
  | skipped hcondition hbranch _ ihc ihb ihr =>
      have hawait : ∀ x ∈ bound, Scope.isUnresolved _ x = true := fun x hx =>
        (hscope.isUnresolved_iff.mp (hbound x hx)).2
      rcases Node.defers_ifElse.mp hdefers with ⟨hawaits, -⟩ | ⟨hconditions, hbranches⟩
      · rcases Node.awaits_ifElse.mp hawaits with hawaits | hawaits
        · cases hcondition.incomplete hawaits hawait
        · cases hbranch.incomplete hawaits hawait
      · rw [Node.allDefer_cons] at hconditions hbranches
        rw [← hwhole hscope]
        exact .skipped (ihc hscope hbound hconditions.1) (ihb hscope hbound hbranches.1)
          (ihr hscope hbound (Node.defers_ifElse.mpr (.inr ⟨hconditions.2, hbranches.2⟩)))
  | waiting _ _ _ _ hincomplete ihc ihb =>
      obtain ⟨hcondition, hbranch⟩ := Node.firstDefers_of_defers hdefers
      rw [← hwhole hscope]
      exact .waiting _ _ (ihc hscope hbound hcondition) (ihb hscope hbound hbranch) hincomplete
  | otherwise _ _ ih =>
      obtain ⟨-, hbranch⟩ := Node.firstDefers_of_defers hdefers
      rw [← hwhole hscope]
      exact .otherwise _ (ih hscope hbound hbranch)

end Release

theorem Scope.Residue.get?_of_mem {names : List String} {table : Table} {scope scope' : Scope}
    {x : String} (h : scope.Residue names table scope') (hx : x ∈ names) :
    scope'.get? x = none := by
  rw [h.rest, h.resolved x hx]
  rfl

/-- The places where a node is evaluated, and where what comes of it is evaluated again. In
between, the name of the declaration may be released. -/
structure Scope.Resumes (names bound : List String) (name : String) (table' : Table)
    (scope released scope' : Scope) (node : Node) : Prop where
  suits : scope.Suits names bound node
  release : (∀ x, released.get? x = scope.get? x) ∨
    (scope.Releases name released ∧ node.defers name bound = true)
  unresolved : ∀ x, released.isUnresolved x = true ↔ x ∈ bound
  residue : released.Residue names table' scope'

namespace Scope.Resumes

variable {names bound : List String} {name x : String} {table table' : Table}
  {scope released scope' : Scope} {node part : Node} {outcome : Evaluated}

theorem of_part (h : scope.Resumes names bound name table' released scope' node)
    (hsuits : scope.Suits names bound part)
    (hdefers : node.defers name bound = true → part.defers name bound = true) :
    scope.Resumes names bound name table' released scope' part where
  suits := hsuits
  release := h.release.imp_right (And.imp_right hdefers)
  unresolved := h.unresolved
  residue := h.residue

theorem value?_eq (h : scope.Resumes names bound name table' released scope' node) :
    released.value? x = scope.value? x :=
  h.release.elim (fun hsame => value?_congr (hsame x)) fun hreleases => hreleases.1.value?_eq

theorem get?_of_unbound (h : scope.Resumes names bound name table' released scope' node)
    (hnone : scope.get? x = none) : scope'.get? x = none := by
  have hreleased : released.get? x = none := by
    rcases h.release with hsame | ⟨hreleases, -⟩
    · rw [hsame, hnone]
    · rw [hreleases.others x, hnone]
      rintro rfl
      rw [isUnresolved_iff.mp hreleases.unresolved] at hnone
      cases hnone
  rw [h.residue.rest, if_neg]
  rw [isUnresolved_iff, hreleased]
  exact (Option.some_ne_none _).symm

theorem body {parameter : String} {body : Node}
    (h : scope.Resumes names bound name table' released scope' (.function parameter body)) :
    (scope.bindUnresolved parameter).Resumes names (parameter :: bound) name table'
      (released.bindUnresolved parameter) (scope'.bindUnresolved parameter) body where
  suits := h.suits.body.2
  release := by
    rcases h.release with hsame | ⟨hreleases, hdefers⟩
    · exact .inl fun x => get?_bindUnresolved_congr parameter fun _ => hsame x
    · by_cases hparameter : parameter = name
      · exact .inl fun x => hparameter ▸ hreleases.get?_bindUnresolved
      · exact .inr ⟨hreleases.bindUnresolved hparameter,
          (Node.defers_function.mp hdefers).resolve_left hparameter⟩
  unresolved x := by
    rw [isUnresolved_bindUnresolved, h.unresolved, List.mem_cons]
  residue := h.residue.bindUnresolved h.suits.body.1

theorem single {parameter : String} {body value : Node}
    (hfunction : (Node.function parameter body).Orderly names) (hvalue : value.isValue = true)
    (horderly : value.Orderly names) (hfixes : table'.Fixes value) :
    (Scope.bind [] parameter value).Resumes names [] name table' (Scope.bind [] parameter value) []
      body := by
  have hresolved : ∀ x, (Scope.bind [] parameter value).isUnresolved x = false := by
    intro x
    rw [← Bool.not_eq_true, isUnresolved_iff, get?_bind]
    split
    · exact fun heq => Node.ne_noValue_of_isValue hvalue (Option.some.inj heq)
    · exact (Option.some_ne_none _).symm
  refine ⟨.single hfunction hvalue horderly, .inl fun _ => rfl, fun x => ?_,
    fun y found hfound => ?_,
    fun x _ => hresolved x, fun x => ?_⟩
  · simp [hresolved]
  · rw [(eq_of_value?_single hfound).2]
    exact ⟨hvalue, hfixes, horderly.free⟩
  · simp [hresolved]

section Again

variable (htable : ∀ x value, table.lookup x = some value → table'.lookup x = some value)
  {parameter : String} {body : Node} (hname : table'.lookup name = some (.function parameter body))
include htable hname

theorem release_resultsIn (h : scope.Resumes names bound name table' released scope' node)
    (hnode : ResultsIn table scope node outcome) : ResultsIn table' released node outcome := by
  rcases h.release with hsame | ⟨hreleases, hdefers⟩
  · exact (hnode.extend htable).congr fun x _ => hsame x
  · exact hnode.release htable hname hreleases (fun x hx => (h.unresolved x).mpr hx) hdefers

theorem whole (h : scope.Resumes names bound name table' released scope' node)
    (hnode : ResultsIn table scope node ⟨node.substitute scope, false⟩) :
    ResultsIn table' scope' (node.substitute scope) ⟨node.substitute scope, false⟩ := by
  have hagain := (h.release_resultsIn htable hname hnode).substitute h.suits.formed h.residue
  rwa [Node.substitute_congr fun x _ => h.value?_eq] at hagain

theorem operand (h : scope.Resumes names bound name table' released scope' node)
    (hpart : ResultsIn table scope part outcome)
    (hagain : (part = .var name ∧ scope.Releases name released) ∨
      ResultsIn table' scope' outcome.node outcome) :
    ∃ outcome', ResultsIn table' scope' (table.kept scope part outcome.node) outcome' ∧
      table'.kept scope' (table.kept scope part outcome.node) outcome'.node =
        table.kept scope part outcome.node ∧
      ((outcome.complete = true → outcome.node.isFunction = true) →
        outcome'.complete = true → outcome'.node.isFunction = true) := by
  -- The name of a function that is declared, and is bound in no scope.
  have hglobal : ∀ {other : String} {p : String} {b : Node}, scope'.get? other = none →
      table'.lookup other = some (.function p b) →
      ∃ outcome', ResultsIn table' scope' (.var other) outcome' ∧
        table'.kept scope' (.var other) outcome'.node = .var other ∧
        ((outcome.complete = true → outcome.node.isFunction = true) →
          outcome'.complete = true → outcome'.node.isFunction = true) :=
    fun hnone hlookup => ⟨_, .declared hnone hlookup Node.noConfusion,
      Table.kept_of_lookup hnone hlookup, fun _ _ => rfl⟩
  rcases hagain with ⟨rfl, hreleases⟩ | hagain
  · obtain rfl := hpart.eq_of_isUnresolved hreleases.unresolved
    rw [Table.kept_self]
    refine hglobal ?_ hname
    rw [h.residue.rest, if_neg]
    rw [isUnresolved_iff, hreleases.unbound]
    exact (Option.some_ne_none _).symm
  · cases hnames : table.namesFunction scope part with
    | true =>
        obtain ⟨other, p, b, rfl, hnone, hlookup⟩ := Table.namesFunction_iff.mp hnames
        rw [Table.kept_of_lookup hnone hlookup]
        exact hglobal (h.get?_of_unbound hnone) (htable _ _ hlookup)
    | false =>
        rw [Table.kept, hnames]
        exact ⟨outcome, hagain, Table.kept_self _ _ _, id⟩

end Again

theorem operands {callee argument : Node}
    (h : scope.Resumes names bound name table' released scope' (.apply callee argument)) :
    ((callee = .var name ∧ scope.Releases name released) ∨
        scope.Resumes names bound name table' released scope' callee) ∧
      ((argument = .var name ∧ scope.Releases name released) ∨
        scope.Resumes names bound name table' released scope' argument) := by
  obtain ⟨⟨hsuits, -⟩, hsuits', -⟩ := Suits.apply_iff.mp h.suits
  rcases h.release with hsame | ⟨hreleases, hdefers⟩
  · exact ⟨.inr { h with suits := hsuits, release := .inl hsame },
      .inr { h with suits := hsuits', release := .inl hsame }⟩
  · obtain ⟨⟨hcallee, hargument⟩, -⟩ := Node.defers_apply.mp hdefers
    exact ⟨hcallee.imp (⟨·, hreleases⟩)
        fun hcallee => { h with suits := hsuits, release := .inr ⟨hreleases, hcallee⟩ },
      hargument.imp (⟨·, hreleases⟩)
        fun hargument => { h with suits := hsuits', release := .inr ⟨hreleases, hargument⟩ }⟩

theorem mem_bound {callee argument : Node}
    (h : scope.Resumes names bound name table' released scope' (.apply callee argument))
    (hmentions : (Node.apply callee argument).mentionsUnresolved scope = true) :
    ∃ x ∈ (Node.apply callee argument).freeNames [], x ∈ bound := by
  have hreleased : (Node.apply callee argument).mentionsUnresolved released = true := by
    rcases h.release with hsame | ⟨hreleases, hdefers⟩
    · rwa [Node.mentionsUnresolved_congr fun x _ => hsame x]
    · exact hreleases.mentionsUnresolved (fun x hx => (h.unresolved x).mpr hx) hdefers hmentions
  obtain ⟨x, hx, hunresolved⟩ := Node.mentionsUnresolved_eq_true.mp hreleased
  exact ⟨x, hx, (h.unresolved x).mp hunresolved⟩

theorem rest {condition branch : Node} {conditions branches : List Node}
    {first second : Evaluated}
    (h : scope.Resumes names bound name table' released scope'
      (.ifElse (condition :: conditions) (branch :: branches)))
    (hcondition : ResultsIn table scope condition first) (hcomplete : first.complete = true)
    (hbranch : ResultsIn table scope branch second) (hcomplete' : second.complete = true) :
    scope.Resumes names bound name table' released scope' (.ifElse conditions branches) := by
  refine h.of_part h.suits.rest fun hdefers => ?_
  have hbound : ∀ x ∈ bound, scope.isUnresolved x = true := fun x hx => (h.suits.bound x hx).2
  rcases Node.defers_ifElse.mp hdefers with ⟨hawaits, -⟩ | ⟨hconditions, hbranches⟩
  · rcases Node.awaits_ifElse.mp hawaits with hawaits | hawaits
    · rw [hcondition.incomplete hawaits hbound] at hcomplete
      cases hcomplete
    · rw [hbranch.incomplete hawaits hbound] at hcomplete'
      cases hcomplete'
  · exact Node.defers_ifElse.mpr (.inr ⟨(Node.allDefer_cons.mp hconditions).2,
      (Node.allDefer_cons.mp hbranches).2⟩)

end Scope.Resumes

/-- What comes of a node comes out as itself when it is evaluated again. -/
theorem ResultsIn.again {names bound : List String} {name parameter : String} {body : Node}
    {table table' : Table} {scope released scope' : Scope} {node : Node} {outcome : Evaluated}
    (horderly : ValuesHave (Node.Orderly names) fun x => table.lookup x)
    (hfixes : ∀ x value, table.lookup x = some value → table'.Fixes value)
    (htable : ∀ x value, table.lookup x = some value → table'.lookup x = some value)
    (hname : table'.lookup name = some (.function parameter body))
    (h : ResultsIn table scope node outcome)
    (hnode : scope.Resumes names bound name table' released scope' node) :
    ResultsIn table' scope' outcome.node outcome := by
  induction h generalizing bound released scope' with
  | literal hliteral => exact .literal hliteral
  | unresolved hunresolved =>
      have hvar := hnode.release_resultsIn htable hname (.unresolved hunresolved)
      have hagain := hvar.substitute hnode.suits.formed hnode.residue
      rwa [Node.substitute_var, hnode.value?_eq, Scope.value?_of_isUnresolved hunresolved] at hagain
  | bound hvalue => exact hnode.residue.resultsIn (hnode.value?_eq.trans hvalue)
  | declared _ hlookup =>
      refine (hfixes _ _ hlookup).resultsIn fun x hx => ?_
      exact hnode.residue.get?_of_mem ((horderly _ _ hlookup).2.free x hx)
  | inverted => exact .literal rfl
  | negation _ ih =>
      exact .negation (ih (hnode.of_part (Scope.Suits.negation_iff.mp hnode.suits) id))
  | operated _ _ hvalue => exact .literal (BinOp.isLiteral_of_operate hvalue).2.2
  | binary _ _ hincomplete ihl ihr =>
      obtain ⟨hleft, hright⟩ := Scope.Suits.binary_iff.mp hnode.suits
      exact .binary (ihl (hnode.of_part hleft fun hdefers => (Node.defers_binary.mp hdefers).1))
        (ihr (hnode.of_part hright fun hdefers => (Node.defers_binary.mp hdefers).2)) hincomplete
  | function _ ih => exact .function (ih hnode.body)
  | called hfirst hsecond hcallee hargument hbody _ iha ihb =>
      obtain ⟨⟨hsuits, -⟩, hsuits', -⟩ := Scope.Suits.apply_iff.mp hnode.suits
      have hfunction := hfirst.orderly horderly hsuits hcallee
      have hvalue := hsecond.orderly horderly hsuits' hargument
      have hisValue := hsecond.isValue horderly
        (fun x value hvalue => (hsuits.values x value hvalue).1) rfl
      have hvalueAgain := iha (hnode.operands.2.resolve_left fun hself => by
        have hresolved := Node.mentionsUnresolved_eq_false.mp hargument name
          (hself.1 ▸ Node.mem_freeNames_var.mpr rfl)
        rw [hself.2.unresolved] at hresolved
        cases hresolved)
      have hvalueFixed : table'.Fixes _ := hvalueAgain.congr fun x hx =>
        (hnode.residue.get?_of_mem (hvalue.free x hx)).symm
      have hsingle := Scope.Suits.single hfunction hisValue hvalue
      have hresult := hbody.orderly horderly hsingle
        (Node.mentionsUnresolved_single hsecond.ne_noValue)
      exact (ihb (.single hfunction hisValue hvalue hvalueFixed)).congr fun x hx =>
        hnode.residue.get?_of_mem (hresult.free x hx)
  | suspended hfirst hsecond hfunction hwaits ihc iha =>
      obtain ⟨⟨-, hretains⟩, -, hretains'⟩ := Scope.Suits.apply_iff.mp hnode.suits
      obtain ⟨first', hfirst', hkept, hfunction'⟩ := hnode.operand htable hname hfirst
        (hnode.operands.1.imp_right ihc)
      obtain ⟨second', hsecond', hkept', -⟩ := hnode.operand htable hname hsecond
        (hnode.operands.2.imp_right iha)
      -- A bound name for which the application waits is still mentioned by what stands for the
      -- operands.
      obtain ⟨x, hx, hmem⟩ := hnode.mem_bound (mentions_of_suspended hfirst hsecond hwaits)
      have hbound := fun y hy => (hnode.suits.bound y hy).2
      have hunresolved := hnode.residue.isUnresolved.trans ((hnode.unresolved x).mpr hmem)
      have hagain := suspended_of_mentions hfirst' hsecond' (hfunction' hfunction)
        (Node.mentionsUnresolved_eq_true.mpr ⟨x, Node.mem_freeNames_apply.mpr
          ((Node.mem_freeNames_apply.mp hx).imp
            (fun hx => mem_freeNames_kept hx (hfirst.mem_freeNames hretains hbound hx hmem))
            fun hx => mem_freeNames_kept hx (hsecond.mem_freeNames hretains' hbound hx hmem)),
          hunresolved⟩)
      rwa [hkept, hkept'] at hagain
  | selected _ _ _ _ _ ihb =>
      refine ihb (hnode.of_part (hnode.suits.arms.2 _ List.mem_cons_self) fun hdefers => ?_)
      exact (Node.firstDefers_of_defers hdefers).2
  | skipped hcondition hbranch hrest _ _ ihr =>
      have hwhole := ResultsIn.skipped hcondition hbranch hrest
      revert hwhole
      refine Evaluated.orWhole_cases (fun _ _ => ?_) fun _ hwhole => ?_
      · exact ihr (hnode.rest hcondition rfl hbranch rfl)
      · exact hnode.whole htable hname hwhole
  | waiting _ _ hcondition hbranch hincomplete =>
      exact hnode.whole htable hname (.waiting _ _ hcondition hbranch hincomplete)
  | otherwise branches hbranch ih =>
      have hwhole := ResultsIn.otherwise branches hbranch
      revert hwhole
      refine Evaluated.orWhole_cases (fun _ _ => ?_) fun _ hwhole => ?_
      · refine ih (hnode.of_part (hnode.suits.arms.2 _ List.mem_cons_self) fun hdefers => ?_)
        exact (Node.firstDefers_of_defers hdefers).2
      · exact hnode.whole htable hname hwhole

end Viewlet
