import Viewlet.Proofs.Evaluation.ScopeExtrusion

namespace Viewlet

namespace Node

variable {scope scope' : Scope} {node : Node}

theorem substitute_congr (h : ∀ x ∈ node.freeNames [], scope'.value? x = scope.value? x) :
    node.substitute scope' = node.substitute scope := by
  induction node generalizing scope scope' with
  | var name => rw [substitute_var, substitute_var, h name (mem_freeNames_var.mpr rfl)]
  | function parameter body ih =>
      rw [substitute, substitute, ih fun x hx => ?_]
      simp only [Scope.value?_bindUnresolved]
      split
      · rfl
      · next hne => exact h x (mem_freeNames_function.mpr ⟨hx, hne⟩)
  | apply callee argument ihc iha =>
      rw [substitute, substitute, ihc fun x hx => h x (mem_freeNames_apply.mpr (.inl hx)),
        iha fun x hx => h x (mem_freeNames_apply.mpr (.inr hx))]
  | binary op left right ihl ihr =>
      rw [substitute, substitute, ihl fun x hx => h x (mem_freeNames_binary.mpr (.inl hx)),
        ihr fun x hx => h x (mem_freeNames_binary.mpr (.inr hx))]
  | negation operand ih =>
      rw [substitute, substitute, ih fun x hx => h x (mem_freeNames_negation.mpr hx)]
  | ifElse conditions branches ihc ihb =>
      rw [substitute_ifElse, substitute_ifElse]
      congr 1
      · exact List.map_congr_left fun node hmem => ihc node hmem fun x hx =>
          h x (mem_freeNames_ifElse.mpr (.inl ⟨node, hmem, hx⟩))
      · exact List.map_congr_left fun node hmem => ihb node hmem fun x hx =>
          h x (mem_freeNames_ifElse.mpr (.inr ⟨node, hmem, hx⟩))
  | _ => rfl

theorem mem_freeNames_substitute_of_mem {x : String} (hx : x ∈ node.freeNames [])
    (hnone : scope.value? x = none) : x ∈ (node.substitute scope).freeNames [] := by
  induction node generalizing scope with
  | var name =>
      obtain rfl := mem_freeNames_var.mp hx
      rwa [substitute_var, hnone]
  | function parameter body ih =>
      obtain ⟨hx, hne⟩ := mem_freeNames_function.mp hx
      refine mem_freeNames_function.mpr ⟨ih hx ?_, hne⟩
      rw [Scope.value?_bindUnresolved, if_neg hne, hnone]
  | apply callee argument ihc iha =>
      exact mem_freeNames_apply.mpr ((mem_freeNames_apply.mp hx).imp (ihc · hnone) (iha · hnone))
  | binary op left right ihl ihr =>
      exact mem_freeNames_binary.mpr ((mem_freeNames_binary.mp hx).imp (ihl · hnone) (ihr · hnone))
  | negation operand ih =>
      exact mem_freeNames_negation.mpr (ih (mem_freeNames_negation.mp hx) hnone)
  | ifElse conditions branches ihc ihb =>
      rw [substitute_ifElse, mem_freeNames_ifElse]
      rcases mem_freeNames_ifElse.mp hx with ⟨node, hmem, hx⟩ | ⟨node, hmem, hx⟩
      · exact .inl ⟨_, List.mem_map_of_mem hmem, ihc node hmem hx hnone⟩
      · exact .inr ⟨_, List.mem_map_of_mem hmem, ihb node hmem hx hnone⟩
  | _ => cases hx

theorem Formed.rest {admits : String → Prop} {condition branch : Node}
    {conditions branches : List Node}
    (h : Formed admits (.ifElse (condition :: conditions) (branch :: branches))) :
    Formed admits (.ifElse conditions branches) := by
  cases h with
  | inert hinert => cases hinert
  | ifElse hlength hconditions hbranches =>
      exact .ifElse (Nat.succ.inj hlength) (List.forall_mem_cons.mp hconditions).2
        (List.forall_mem_cons.mp hbranches).2

theorem mentionsUnresolved_eq_true :
    node.mentionsUnresolved scope = true ↔
      ∃ x ∈ node.freeNames [], scope.isUnresolved x = true := by
  simp [mentionsUnresolved]

theorem mentionsUnresolved_congr (h : ∀ x ∈ node.freeNames [], scope'.get? x = scope.get? x) :
    node.mentionsUnresolved scope' = node.mentionsUnresolved scope := by
  rw [Bool.eq_iff_iff, mentionsUnresolved_eq_true, mentionsUnresolved_eq_true]
  refine exists_congr fun x => and_congr_right fun hx => ?_
  rw [Scope.isUnresolved_iff, Scope.isUnresolved_iff, h x hx]

end Node

theorem Scope.value?_congr {scope scope' : Scope} {x : String} (h : scope'.get? x = scope.get? x) :
    scope'.value? x = scope.value? x := by
  rw [value?, value?, h]

theorem Scope.get?_bindUnresolved_congr {scope scope' : Scope} {x : String} (parameter : String)
    (h : x ≠ parameter → scope'.get? x = scope.get? x) :
    (scope'.bindUnresolved parameter).get? x = (scope.bindUnresolved parameter).get? x := by
  rw [bindUnresolved, bindUnresolved, get?_bind, get?_bind]
  split
  · rfl
  · next hne => exact h hne

theorem Table.kept_congr {table table' : Table} {scope scope' : Scope} {source result : Node}
    (h : ∀ name, source = .var name → scope'.get? name = scope.get? name ∧
      (scope.get? name = none → table'.lookup name = table.lookup name)) :
    table'.kept scope' source result = table.kept scope source result := by
  have hnames : table'.namesFunction scope' source = table.namesFunction scope source := by
    cases source with
    | var name =>
        obtain ⟨hscope, htable⟩ := h name rfl
        rw [namesFunction, namesFunction, hscope]
        cases hget : scope.get? name with
        | none => rw [htable hget]
        | some => rfl
    | _ => rfl
  rw [kept, kept, hnames]

/-- The value comes out as itself where the declarations are those of the table. -/
def Table.Fixes (table : Table) (value : Node) : Prop :=
  ResultsIn table [] value ⟨value, true⟩

namespace ResultsIn

variable {table table' : Table} {scope scope' : Scope} {node : Node} {outcome : Evaluated}

theorem lookup_of_var {name : String} (h : ResultsIn table scope (.var name) outcome)
    (hnone : scope.get? name = none) :
    ∃ value, table.lookup name = some value ∧ value ≠ .noValue ∧ outcome = ⟨value, true⟩ := by
  cases h with
  | literal hliteral => cases hliteral
  | unresolved hunresolved =>
      rw [Scope.isUnresolved_iff, hnone] at hunresolved
      cases hunresolved
  | bound hvalue =>
      rw [Scope.get?_of_value? hvalue] at hnone
      cases hnone
  | declared _ hlookup hne => exact ⟨_, hlookup, hne, rfl⟩

theorem kept_extend {source result : Node} (h : ResultsIn table scope source outcome)
    (htable : ∀ name value, table.lookup name = some value → table'.lookup name = some value) :
    table'.kept scope source result = table.kept scope source result := by
  refine Table.kept_congr fun name heq => ⟨rfl, fun hnone => ?_⟩
  subst heq
  obtain ⟨value, hlookup, -, -⟩ := h.lookup_of_var hnone
  rw [hlookup, htable name value hlookup]

theorem congr (h : ResultsIn table scope node outcome)
    (hsame : ∀ x ∈ node.freeNames [], scope'.get? x = scope.get? x) :
    ResultsIn table scope' node outcome := by
  have hwhole : ∀ {whole : Node} {scope scope' : Scope},
      (∀ x ∈ whole.freeNames [], scope'.get? x = scope.get? x) →
      whole.substitute scope' = whole.substitute scope := fun hsame =>
    Node.substitute_congr fun x hx => Scope.value?_congr (hsame x hx)
  induction h generalizing scope' with
  | literal hliteral => exact .literal hliteral
  | unresolved hunresolved =>
      refine .unresolved ?_
      rwa [Scope.isUnresolved_iff, hsame _ (Node.mem_freeNames_var.mpr rfl),
        ← Scope.isUnresolved_iff]
  | bound hvalue =>
      refine .bound ?_
      rwa [Scope.value?_congr (hsame _ (Node.mem_freeNames_var.mpr rfl))]
  | declared hnone hlookup hne =>
      refine .declared ?_ hlookup hne
      rwa [hsame _ (Node.mem_freeNames_var.mpr rfl)]
  | inverted _ ih => exact .inverted (ih fun x hx => hsame x (Node.mem_freeNames_negation.mpr hx))
  | negation _ ih => exact .negation (ih fun x hx => hsame x (Node.mem_freeNames_negation.mpr hx))
  | operated _ _ hvalue ihl ihr =>
      exact .operated (ihl fun x hx => hsame x (Node.mem_freeNames_binary.mpr (.inl hx)))
        (ihr fun x hx => hsame x (Node.mem_freeNames_binary.mpr (.inr hx))) hvalue
  | binary _ _ hincomplete ihl ihr =>
      exact .binary (ihl fun x hx => hsame x (Node.mem_freeNames_binary.mpr (.inl hx)))
        (ihr fun x hx => hsame x (Node.mem_freeNames_binary.mpr (.inr hx))) hincomplete
  | @function _ parameter _ _ _ ih =>
      refine .function (ih fun x hx => Scope.get?_bindUnresolved_congr parameter fun hne => ?_)
      exact hsame x (Node.mem_freeNames_function.mpr ⟨hx, hne⟩)
  | called _ _ hcallee hargument hbody ihc iha =>
      have hsame' := fun x hx => hsame x (Node.mem_freeNames_apply.mpr (.inl hx))
      have hsame'' := fun x hx => hsame x (Node.mem_freeNames_apply.mpr (.inr hx))
      refine .called (ihc hsame') (iha hsame'') ?_ ?_ hbody
      · rw [Node.mentionsUnresolved_congr hsame', hcallee]
      · rw [Node.mentionsUnresolved_congr hsame'', hargument]
  | @suspended scope callee argument first second _ _ hfunction hwaits ihc iha =>
      have hsame' := fun x hx => hsame x (Node.mem_freeNames_apply.mpr (.inl hx))
      have hsame'' := fun x hx => hsame x (Node.mem_freeNames_apply.mpr (.inr hx))
      have hkept : ∀ {source result : Node},
          (∀ x ∈ source.freeNames [], scope'.get? x = scope.get? x) →
          table.kept scope' source result = table.kept scope source result := by
        intro source result hsource
        refine Table.kept_congr fun name heq => ⟨hsource name ?_, fun _ => rfl⟩
        rw [heq]
        exact Node.mem_freeNames_var.mpr rfl
      rw [← Node.mentionsUnresolved_congr hsame', ← Node.mentionsUnresolved_congr hsame''] at hwaits
      rw [← hkept hsame', ← hkept hsame'']
      exact .suspended (ihc hsame') (iha hsame'') hfunction hwaits
  | selected _ _ _ _ ihc ihb =>
      exact .selected _ _ (ihc fun x hx => hsame x (Node.mem_freeNames_condition hx))
        (ihb fun x hx => hsame x (Node.mem_freeNames_branch hx))
  | skipped _ _ _ ihc ihb ihr =>
      rw [← hwhole hsame]
      exact .skipped (ihc fun x hx => hsame x (Node.mem_freeNames_condition hx))
        (ihb fun x hx => hsame x (Node.mem_freeNames_branch hx))
        (ihr fun x hx => hsame x (Node.mem_freeNames_ifElse_cons hx))
  | waiting _ _ _ _ hincomplete ihc ihb =>
      rw [← hwhole hsame]
      exact .waiting _ _ (ihc fun x hx => hsame x (Node.mem_freeNames_condition hx))
        (ihb fun x hx => hsame x (Node.mem_freeNames_branch hx)) hincomplete
  | otherwise _ _ ih =>
      rw [← hwhole hsame]
      exact .otherwise _ (ih fun x hx => hsame x (Node.mem_freeNames_branch hx))

theorem extend (h : ResultsIn table scope node outcome)
    (htable : ∀ name value, table.lookup name = some value → table'.lookup name = some value) :
    ResultsIn table' scope node outcome := by
  induction h with
  | literal hliteral => exact .literal hliteral
  | unresolved hunresolved => exact .unresolved hunresolved
  | bound hvalue => exact .bound hvalue
  | declared hnone hlookup hne => exact .declared hnone (htable _ _ hlookup) hne
  | inverted _ ih => exact .inverted ih
  | negation _ ih => exact .negation ih
  | operated _ _ hvalue ihl ihr => exact .operated ihl ihr hvalue
  | binary _ _ hincomplete ihl ihr => exact .binary ihl ihr hincomplete
  | function _ ih => exact .function ih
  | called _ _ hcallee hargument _ ihc iha ihb => exact .called ihc iha hcallee hargument ihb
  | suspended hfirst hsecond hfunction hwaits ihc iha =>
      rw [← hfirst.kept_extend htable, ← hsecond.kept_extend htable]
      exact .suspended ihc iha hfunction hwaits
  | selected _ _ _ _ ihc ihb => exact .selected _ _ ihc ihb
  | skipped _ _ _ ihc ihb ihr => exact .skipped ihc ihb ihr
  | waiting _ _ _ _ hincomplete ihc ihb => exact .waiting _ _ ihc ihb hincomplete
  | otherwise _ _ ih => exact .otherwise _ ih

end ResultsIn

/-- What remains of a scope when its values are put in. The values come out as themselves, and
none of their names is unresolved. -/
structure Scope.Residue (names : List String) (table : Table) (scope scope' : Scope) : Prop where
  values : ∀ name value, scope.value? name = some value →
    value.isValue = true ∧ table.Fixes value ∧ ∀ x ∈ value.freeNames [], x ∈ names
  resolved : ∀ x ∈ names, scope.isUnresolved x = false
  rest : ∀ x, scope'.get? x = if scope.isUnresolved x then some .noValue else none

theorem Table.Fixes.resultsIn {table : Table} {value : Node} {scope : Scope}
    (h : table.Fixes value) (hscope : ∀ x ∈ value.freeNames [], scope.get? x = none) :
    ResultsIn table scope value ⟨value, true⟩ :=
  ResultsIn.congr h hscope

namespace Scope.Residue

variable {names : List String} {table : Table} {scope scope' : Scope} {node : Node} {x : String}

theorem isUnresolved (h : scope.Residue names table scope') :
    scope'.isUnresolved x = scope.isUnresolved x := by
  rw [Bool.eq_iff_iff, isUnresolved_iff, h.rest]
  split <;> simp_all

theorem value?_eq_none (h : scope.Residue names table scope') : scope'.value? x = none := by
  rw [Scope.value?_eq_none, h.isUnresolved, h.rest]
  split <;> simp_all

theorem bindUnresolved (h : scope.Residue names table scope') {parameter : String}
    (hparameter : parameter ∉ names) :
    (scope.bindUnresolved parameter).Residue names table (scope'.bindUnresolved parameter) where
  values name value hvalue := h.values name value (value?_of_bindUnresolved hvalue)
  resolved x hx := by
    have hne : x ≠ parameter := by
      rintro rfl
      exact hparameter hx
    have hresolved := h.resolved x hx
    rwa [← Bool.not_eq_true, isUnresolved_iff, Scope.bindUnresolved, get?_bind, if_neg hne,
      ← isUnresolved_iff, Bool.not_eq_true]
  rest x := by
    rw [Scope.isUnresolved, Scope.bindUnresolved, Scope.bindUnresolved, get?_bind, get?_bind]
    split
    · rfl
    · exact h.rest x

theorem resultsIn (h : scope.Residue names table scope') {name : String} {value : Node}
    (hvalue : scope.value? name = some value) : ResultsIn table scope' value ⟨value, true⟩ := by
  obtain ⟨-, hfixes, hnames⟩ := h.values name value hvalue
  refine hfixes.resultsIn fun x hx => ?_
  rw [h.rest, h.resolved x (hnames x hx)]
  rfl

theorem mentionsUnresolved (h : scope.Residue names table scope') :
    (node.substitute scope).mentionsUnresolved scope' = node.mentionsUnresolved scope := by
  rw [Bool.eq_iff_iff, Node.mentionsUnresolved_eq_true, Node.mentionsUnresolved_eq_true]
  constructor
  · rintro ⟨x, hx, hunresolved⟩
    rw [h.isUnresolved] at hunresolved
    rcases Node.mem_freeNames_of_substitute (fun name value hvalue =>
      (h.values name value hvalue).2.2) hx with hmem | ⟨hx, -⟩
    · rw [h.resolved x hmem] at hunresolved
      cases hunresolved
    · exact ⟨x, hx, hunresolved⟩
  · rintro ⟨x, hx, hunresolved⟩
    refine ⟨x, Node.mem_freeNames_substitute_of_mem hx ?_, by rwa [h.isUnresolved]⟩
    exact Scope.value?_eq_none.mpr (.inr hunresolved)

theorem kept (h : scope.Residue names table scope') {source result : Node} :
    table.kept scope' (source.substitute scope) result = table.kept scope source result := by
  cases source with
  | var name =>
      rw [Node.substitute_var]
      cases hvalue : scope.value? name with
      | none =>
          refine Table.kept_congr fun other heq => ⟨?_, fun _ => rfl⟩
          obtain rfl := Node.var.inj heq
          rw [h.rest]
          rcases Scope.value?_eq_none.mp hvalue with hunbound | hunresolved
          · simp [Scope.isUnresolved, hunbound]
          · rw [if_pos hunresolved, ← isUnresolved_iff.mp hunresolved]
      | some value =>
          have hisValue := (h.values name value hvalue).1
          have hget := get?_of_value? hvalue
          rw [Table.kept, Table.kept, Table.namesFunction, hget]
          cases value with
          | var => cases hisValue
          | _ => rfl
  | _ => rfl

end Scope.Residue

/-- It does not matter whether names have values in scope, or the values are put in. -/
theorem ResultsIn.substitute {names : List String} {table : Table} {scope scope' : Scope}
    {node : Node} {outcome : Evaluated} (h : ResultsIn table scope node outcome)
    (hformed : node.Formed (· ∉ names)) (hscope : scope.Residue names table scope') :
    ResultsIn table scope' (node.substitute scope) outcome := by
  have hwhole : ∀ {whole : Node} {scope scope' : Scope}, scope.Residue names table scope' →
      (whole.substitute scope).substitute scope' = whole.substitute scope := fun hscope =>
    Node.substitute_eq_self fun x _ => hscope.value?_eq_none
  induction h generalizing scope' with
  | literal hliteral =>
      rw [Node.substitute_of_isInert (Node.isInert_of_isLiteral hliteral)]
      exact .literal hliteral
  | unresolved hunresolved =>
      rw [Node.substitute_var, Scope.value?_eq_none.mpr (.inr hunresolved)]
      exact .unresolved (hscope.isUnresolved.trans hunresolved)
  | bound hvalue =>
      rw [Node.substitute_var, hvalue]
      exact hscope.resultsIn hvalue
  | declared hnone hlookup hne =>
      rw [Node.substitute_var, Scope.value?_eq_none.mpr (.inl hnone)]
      refine .declared ?_ hlookup hne
      rw [hscope.rest]
      simp [Scope.isUnresolved, hnone]
  | inverted _ ih =>
      exact .inverted (ih ((Node.hereditary_formed _).negation.mp hformed) hscope)
  | negation _ ih =>
      exact .negation (ih ((Node.hereditary_formed _).negation.mp hformed) hscope)
  | operated _ _ hvalue ihl ihr =>
      obtain ⟨hleft, hright⟩ := (Node.hereditary_formed _).binary.mp hformed
      exact .operated (ihl hleft hscope) (ihr hright hscope) hvalue
  | binary _ _ hincomplete ihl ihr =>
      obtain ⟨hleft, hright⟩ := (Node.hereditary_formed _).binary.mp hformed
      exact .binary (ihl hleft hscope) (ihr hright hscope) hincomplete
  | function _ ih =>
      cases hformed with
      | inert hinert => cases hinert
      | function hparameter hbody => exact .function (ih hbody (hscope.bindUnresolved hparameter))
  | called _ _ hcallee hargument hbody ihc iha =>
      obtain ⟨hformed, hformed'⟩ := (Node.hereditary_formed _).apply.mp hformed
      exact .called (ihc hformed hscope) (iha hformed' hscope)
        (hscope.mentionsUnresolved.trans hcallee) (hscope.mentionsUnresolved.trans hargument) hbody
  | suspended _ _ hfunction hwaits ihc iha =>
      obtain ⟨hformed, hformed'⟩ := (Node.hereditary_formed _).apply.mp hformed
      rw [← hscope.mentionsUnresolved, ← hscope.mentionsUnresolved] at hwaits
      rw [← hscope.kept, ← hscope.kept]
      exact .suspended (ihc hformed hscope) (iha hformed' hscope) hfunction hwaits
  | selected _ _ _ _ ihc ihb =>
      obtain ⟨hconditions, hbranches⟩ := (Node.hereditary_formed _).ifElse hformed
      rw [Node.substitute_ifElse]
      exact .selected _ _ (ihc (hconditions _ List.mem_cons_self) hscope)
        (ihb (hbranches _ List.mem_cons_self) hscope)
  | skipped _ _ _ ihc ihb ihr =>
      obtain ⟨hconditions, hbranches⟩ := (Node.hereditary_formed _).ifElse hformed
      have hrest := ihr hformed.rest hscope
      rw [Node.substitute_ifElse] at hrest
      have hskipped := ResultsIn.skipped (ihc (hconditions _ List.mem_cons_self) hscope)
        (ihb (hbranches _ List.mem_cons_self) hscope) hrest
      rwa [← List.map_cons, ← List.map_cons, ← Node.substitute_ifElse, hwhole hscope] at hskipped
  | @waiting scope condition branch _ _ conditions branches _ _ hincomplete ihc ihb =>
      obtain ⟨hconditions, hbranches⟩ := (Node.hereditary_formed _).ifElse hformed
      have hwaiting := ResultsIn.waiting (conditions.map (Node.substitute scope))
        (branches.map (Node.substitute scope)) (ihc (hconditions _ List.mem_cons_self) hscope)
        (ihb (hbranches _ List.mem_cons_self) hscope) hincomplete
      rwa [← List.map_cons, ← List.map_cons, ← Node.substitute_ifElse, hwhole hscope] at hwaiting
  | @otherwise scope branch _ branches _ ih =>
      obtain ⟨-, hbranches⟩ := (Node.hereditary_formed _).ifElse hformed
      have hotherwise := ResultsIn.otherwise (branches.map (Node.substitute scope))
        (ih (hbranches _ List.mem_cons_self) hscope)
      rwa [← List.map_cons, ← List.map_nil, ← Node.substitute_ifElse, hwhole hscope] at hotherwise

end Viewlet
