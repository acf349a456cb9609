import Viewlet.Proofs.Sessions.Commutation
import Viewlet.Proofs.Sessions.FreshParameters

namespace Viewlet

/-- A declaration with parameters apart from the names that are carried, whose waiting applications
go on waiting once it is declared. -/
structure Node.Declarable (called carried : List String) (name : String) (body : Node) : Prop
    extends Node.Apart called carried name body where
  steady : body.steady [] = true
  defers : body.defers name [] = true

/-- The sessions all of whose declarations are of this kind. -/
inductive Session.Built (called carried : List String) : Session → Prop where
  | fresh (root : String) : Session.Built called carried { root := root }
  | declare {session session' depth name body outcome} : Session.Built called carried session →
      body.IsExpression → body.Declarable called carried name →
      session.evaluate depth [] (.declaration name body) = some (.ok outcome, session') →
      Session.Built called carried session'

/-- A declaration of this kind with parameters apart from all names that functions use. -/
structure Node.Settles (names : List String) (name : String) (body : Node) : Prop where
  formed : body.Formed (· ∉ names)
  kept : ∀ x ∈ body.keptNames, x ∈ names
  steady : body.steady [] = true
  defers : body.defers name [] = true

theorem Node.Declarable.settles {plain called carried : List String} {mark ρ : String → String}
    {name : String} {body : Node} (h : body.Declarable called carried name)
    (hmark : Marking plain carried mark ρ) (hbody : body.IsExpression)
    (hnames : ∀ x ∈ (Node.declaration name body).names, x ∈ plain) :
    (body.freshen mark []).Settles plain name := by
  obtain ⟨hname, hnames⟩ := List.forall_mem_cons.mp hnames
  exact ⟨formed_freshen hbody hmark.marked,
    fun x hx => hmark.mem_plain_of_mem_freeNames hnames (mem_freeNames_of_mem_keptNames hx),
    steady_freshen hmark hnames h.steady, defers_freshen hmark hname hnames h.defers⟩

theorem settles_units {plain called carried : List String} {mark ρ : String → String}
    {nodes : List Node} (hmark : Marking plain carried mark ρ)
    (hnodes : ∀ node ∈ nodes, ∃ name body, node = .declaration name body ∧ body.IsExpression ∧
      body.Declarable called carried name)
    (hnames : ∀ x ∈ Node.namesAll nodes, x ∈ plain) :
    ∀ node ∈ nodes.map (Node.freshen mark []), ∃ name body, node = .declaration name body ∧
      body.Settles plain name := by
  refine List.forall_mem_map.mpr fun node hmem => ?_
  obtain ⟨name, body, rfl, hbody, hdeclarable⟩ := hnodes node hmem
  exact ⟨name, _, rfl, hdeclarable.settles hmark hbody fun x hx =>
    hnames x (Node.mem_namesAll.mpr ⟨_, hmem, hx⟩)⟩

namespace Session

/-- What is declared can be put in anywhere, and comes out as itself. -/
def Stable (names : List String) (session : Session) : Prop :=
  session.Holds fun value => value.Orderly names ∧ session.table.Fixes value

variable {names called carried : List String} {session after : Session} {name : String}
  {body value : Node} {depth : Nat} {nodes : List Node}

theorem lookup_enter (hnone : session.get? name = none) {x : String} {found : Node}
    (h : session.table.lookup x = some found) :
    (session.enter name value).table.lookup x = some found := by
  refine get?_enter.trans ?_
  rw [if_neg, get?, h]
  rintro rfl
  rw [get?, h] at hnone
  cases hnone

theorem lookup_enter_self : (session.enter name value).table.lookup name = some value :=
  get?_enter.trans (if_pos rfl)

namespace Stable

theorem orderly (h : session.Stable names) :
    ValuesHave (Node.Orderly names) fun x => session.table.lookup x :=
  fun x found hfound => (h x found hfound).imp_right And.left

theorem isProper (h : session.Stable names) : session.table.IsProper := fun x found hfound =>
  ⟨Node.ne_noValue_of_isValue (h x found hfound).1,
    Node.declares_of_formed (h x found hfound).2.1.formed⟩

theorem suits (hbody : body.Settles names name) :
    (Scope.bindUnresolved [] name).Suits names [] body where
  formed := hbody.formed
  steady := hbody.steady
  kept x hx _ _ := hbody.kept x hx
  bound := List.forall_mem_nil _
  values := valuesHave_emptyScope.bindUnresolved name

theorem resumes (hbody : body.Settles names name) {table : Table} :
    (Scope.bindUnresolved [] name).Resumes names [] name table [] [] body where
  suits := suits hbody
  release := by
    refine .inr ⟨⟨fun x hx => ?_, Scope.isUnresolved_bindUnresolved.mpr (.inl rfl), rfl⟩,
      hbody.defers⟩
    rw [Scope.bindUnresolved, Scope.get?_bind, if_neg hx]
  unresolved x := by simp [Scope.isUnresolved]
  residue := by
    refine ⟨fun x found hfound => ?_, fun _ _ => rfl, fun _ => rfl⟩
    cases hfound

theorem enter (h : session.Stable names) (hnone : session.get? name = none)
    (hbody : body.Settles names name)
    (hvalue : ResultsIn session.table (Scope.bindUnresolved [] name) body ⟨value, true⟩) :
    (session.enter name value).Stable names := by
  have hsuits := suits hbody
  have hresult := hvalue.suits h.orderly hsuits
  have hisValue := hvalue.isValue h.orderly (fun x found hfound => (hsuits.values x found hfound).1)
    rfl
  have hnoValue : ∀ x, (Scope.bindUnresolved [] name).value? x = none := by
    intro x
    rw [Scope.value?_bindUnresolved]
    exact ite_self _
  have horderly : value.Orderly names := ⟨hresult.formed, hresult.steady, fun x hx =>
    hresult.kept x (Node.mem_keptNames_of_isValue hisValue hx) List.not_mem_nil (hnoValue x)⟩
  have hold : ∀ x found, session.table.lookup x = some found →
      (session.enter name value).table.Fixes found := fun x found hfound =>
    (h x found hfound).2.2.extend fun x found => lookup_enter hnone
  intro x found hfound
  change (session.enter name value).get? x = some found at hfound
  rw [get?_enter] at hfound
  split at hfound
  · obtain rfl := Option.some.inj hfound
    refine ⟨hisValue, horderly, ?_⟩
    cases value with
    | function =>
        exact hvalue.again h.orderly hold (fun x found => lookup_enter hnone) lookup_enter_self
          (resumes hbody)
    | integer | float | boolean => exact .literal rfl
    | _ => cases hisValue
  · exact ⟨(h x found hfound).1, (h x found hfound).2.1, hold x found hfound⟩

theorem exists_resultsIn {outcome : Evaluated} (h : session.Stable names)
    (hbody : body.Settles names name)
    (hrun : session.evaluate depth [] (.declaration name body) = some (.ok outcome, after)) :
    session.get? name = none ∧ ∃ value, after = session.enter name value ∧
      ResultsIn session.table (Scope.bindUnresolved [] name) body ⟨value, true⟩ := by
  obtain ⟨hgives, hroot⟩ := Eval.gives_of_evaluate hrun
  obtain ⟨root, table⟩ := session
  obtain ⟨root', table'⟩ := after
  obtain rfl : root' = root := hroot
  have hscope : Undeclaring (Scope.bindUnresolved [] name).value? :=
    Undeclaring.bindUnresolved (fun x found hfound => by cases hfound) name
  cases depth with
  | zero => cases hgives
  | succ depth =>
      rcases Eval.declaration_cases hgives with ⟨-, hfailed⟩ | ⟨hnone, hcases⟩
      · cases hfailed
      · rcases hcases with ⟨error, -, hfailed⟩ | ⟨⟨value, complete⟩, middle, hvalue, hcases⟩
        · cases hfailed
        · obtain ⟨rfl, hresults⟩ := isRuled_evaluate depth
            (Node.declares_of_formed hbody.formed) hscope h.isProper hvalue
          rcases hcases with ⟨hcomplete, htable, -⟩ | ⟨-, -, hfailed⟩
          · obtain rfl : complete = true := hcomplete
            refine ⟨hnone, value, ?_, hresults⟩
            rw [Session.enter, ← Table.declare_of_lookup hnone, ← htable]
          · cases hfailed

theorem declare {outcome : Evaluated} (h : session.Stable names) (hbody : body.Settles names name)
    (hrun : session.evaluate depth [] (.declaration name body) = some (.ok outcome, after)) :
    after.root = session.root ∧ after.Stable names ∧ ∀ᶠ depth in Filter.atTop,
      ∃ outcome,
        session.evaluate depth [] (.declaration name body) = some (.ok outcome, after) := by
  obtain ⟨hnone, value, rfl, hvalue⟩ := h.exists_resultsIn hbody hrun
  refine ⟨rfl, h.enter hnone hbody hvalue, ?_⟩
  have hgives : ∀ᶠ depth in Filter.atTop,
      (Viewlet.evaluate depth [] (.declaration name body)).Gives session.table
        (.ok ⟨.declaration name value, true⟩) ((name, value) :: session.table) := by
    rw [eventually_evaluate, ← Table.declare_of_lookup hnone]
    exact hvalue.eventually_gives.mono fun depth => Eval.declaration_gives hnone
  refine hgives.mono fun depth hrun => ⟨⟨.declaration name value, true⟩, ?_⟩
  rw [Session.evaluate, hrun]
  rfl

theorem declareAll (h : session.Stable names)
    (hnodes : ∀ node ∈ nodes, ∃ name body, node = .declaration name body ∧ body.Settles names name)
    (hrun : session.declareAll depth (nodes.map .ok) = some (.ok (), after)) :
    after.root = session.root ∧ after.Stable names ∧ ∀ᶠ depth in Filter.atTop,
      session.declareAll depth (nodes.map .ok) = some (.ok (), after) := by
  induction nodes generalizing session with
  | nil =>
      cases hrun
      exact ⟨rfl, h, .of_forall fun depth => rfl⟩
  | cons node nodes ih =>
      obtain ⟨⟨name, body, rfl, hbody⟩, hrests⟩ := List.forall_mem_cons.mp hnodes
      obtain ⟨⟨result, middle⟩, heval, hrest⟩ := Option.bind_eq_some_iff.mp hrun
      cases result with
      | error => cases hrest
      | ok outcome =>
          obtain ⟨hroot, hmiddle, hdeclares⟩ := h.declare hbody heval
          obtain ⟨hroot', hafter, hothers⟩ := ih hmiddle hrests hrest
          refine ⟨hroot'.trans hroot, hafter, (hdeclares.and hothers).mono ?_⟩
          rintro depth ⟨⟨outcome, heval⟩, hothers⟩
          exact Option.bind_eq_some_iff.mpr ⟨_, heval, hothers⟩

theorem rootValue (h : session.Stable names) (hroot : session.get? session.root = some value) :
    ∀ᶠ depth in Filter.atTop, session.rootValue depth = some (.ok value, session) := by
  refine (h session.root value hroot).2.2.eventually_gives.mono fun depth hgives => ?_
  rw [Session.rootValue, hroot]
  refine Option.bind_eq_some_iff.mpr ⟨(.ok ⟨value, true⟩, session), ?_, rfl⟩
  rw [Session.evaluate, hgives]
  rfl

end Stable

/-- A session is one with marked parameters whose marks are taken off. -/
theorem Built.exists_marked (h : session.Built called carried) :
    ∃ names : List String, ∀ {plain mark ρ}, (∀ x ∈ names, x ∈ plain) →
      Marking plain carried mark ρ → ∃ marked : Session, marked.rename ρ = session ∧
        marked.table.Portable ρ called ∧ marked.Stable plain := by
  induction h with
  | fresh root =>
      exact ⟨[], fun _ _ => ⟨{ root := root }, rfl, Table.portable_nil _ _, valuesHave_emptyTable⟩⟩
  | @declare _ _ _ name body _ _ hbody hdeclarable hrun ih =>
      obtain ⟨names, ih⟩ := ih
      refine ⟨(Node.declaration name body).names ++ names, fun hnames hmark => ?_⟩
      obtain ⟨hnames, hothers⟩ := List.forall_mem_append.mp hnames
      obtain ⟨marked, rfl, hportable, hstable⟩ := ih hothers hmark
      have hunit := hmark.renamableUnit hbody hdeclarable.toApart hnames
      rw [← hmark.rename_freshen_declaration hbody hdeclarable.toApart hnames,
        evaluate_rename hunit hportable] at hrun
      obtain ⟨⟨result, final⟩, heval, heq⟩ := Option.map_eq_some_iff.mp hrun
      cases result with
      | error => cases heq
      | ok outcome =>
          obtain ⟨-, rfl⟩ := Prod.mk.inj heq
          exact ⟨final, rfl, portable_of_evaluate hunit hportable heval,
            (hstable.declare (hdeclarable.settles hmark hbody hnames) heval).2.1⟩

/-- A program whose declarations succeed is given the value that its root was declared with. -/
theorem compile_root_value {source : String} (h : session.Built called carried)
    (hread : readProgram source = .ok (nodes, []))
    (hnodes : ∀ node ∈ nodes, ∃ name body, node = .declaration name body ∧
      body.Declarable called carried name)
    (hrun : session.declareAll depth (nodes.map .ok) = some (.ok (), after))
    (hroot : after.get? session.root = some value) :
    ∃ bound, ∀ depth ≥ bound, session.compile depth source = some (.ok value, after) := by
  obtain ⟨stream, hstream, hresults, hexpressions⟩ := readAll_declaration hread
    fun node hmem => (hnodes node hmem).imp fun name => Exists.imp fun body => And.left
  have hbodies : ∀ node ∈ nodes, ∃ name body, node = .declaration name body ∧
      body.IsExpression ∧ body.Declarable called carried name := by
    intro node hmem
    obtain ⟨name, body, rfl, hdeclarable⟩ := hnodes node hmem
    obtain ⟨name', body', heq, hbody⟩ := hexpressions _ hmem
    obtain ⟨rfl, rfl⟩ := Node.declaration.inj heq
    exact ⟨name, body, rfl, hbody, hdeclarable⟩
  have hunits : ApartUnits called carried nodes := by
    intro node hmem
    obtain ⟨name, body, rfl, hbody, hdeclarable⟩ := hbodies node hmem
    exact ⟨name, body, rfl, hbody, hdeclarable.toApart⟩
  obtain ⟨names, hmarked⟩ := h.exists_marked
  obtain ⟨mark, ρ, hmark⟩ := exists_marking (Node.namesAll nodes ++ names) carried
  obtain ⟨marked, rfl, hportable, hstable⟩ := hmarked (fun x => List.mem_append_right _) hmark
  have hnames : ∀ x ∈ Node.namesAll nodes, x ∈ Node.namesAll nodes ++ names := fun x =>
    List.mem_append_left names
  obtain ⟨outcome, final, heq, rfl, hdeclare, hportable'⟩ :=
    hmark.exists_declareAll hunits hnames hportable hrun
  cases outcome with
  | error => cases heq
  | ok =>
      obtain ⟨hsame, hfinal, hdeclares⟩ := hstable.declareAll
        (settles_units hmark hbodies hnames) hdeclare
      rw [get?_rename] at hroot
      obtain ⟨value, hvalue, rfl⟩ := Option.map_eq_some_iff.mp hroot
      refine Filter.eventually_atTop.mp
        ((hdeclares.and (hfinal.rootValue (hsame ▸ hvalue))).mono ?_)
      rintro depth ⟨hdeclares, hvalue⟩
      simp only [Session.compile, hstream, hresults]
      rw [hmark.declareAll_eq hunits hnames hportable, hdeclares]
      refine (rootValue_rename hportable').trans ?_
      rw [hvalue]
      rfl

/-- A function that calls itself, a function that waits with a chain of conditions as operand, and
a root whose parameter has the name of the first. -/
theorem compile_root_value_recursive :
    let source :=
      "fact n = if n == 0 then 1 else n * fact (n - 1)\nsafe x = fact (if x < 0 then 0 else x)" ++
        "\nview fact = safe fact"
    let fact : Node := .function "n" (.ifElse [.binary .eq (.var "n") (.integer 0)] [.integer 1,
      .binary .mul (.var "n") (.apply (.var "fact") (.binary .sub (.var "n") (.integer 1)))])
    let safe : Node := .function "x" (.apply (.var "fact")
      (.ifElse [.binary .lt (.var "x") (.integer 0)] [.integer 0, .var "x"]))
    let root : Node := .function "fact" (.apply (.var "safe") (.var "fact"))
    let nodes : List Node :=
      [.declaration "fact" fact, .declaration "safe" safe, .declaration "view" root]
    let after : Session := { table := [("view", root), ("safe", safe), ("fact", fact)] }
    let called := ["fact", "safe", "view"]
    Built called [] {} ∧ readProgram source = .ok (nodes, []) ∧
      fact.Declarable called [] "fact" ∧ safe.Declarable called [] "safe" ∧
      root.Declarable called [] "view" ∧
      Session.declareAll 9 {} (nodes.map .ok) = some (.ok (), after) ∧
      after.get? "view" = some root ∧
      ∃ bound, ∀ depth ≥ bound, Session.compile depth {} source = some (.ok root, after) := by
  intro source fact safe root nodes after called
  have hread : readProgram source = .ok (nodes, []) := readProgram_eq_ok rfl (by decide +kernel)
  have hfact : fact.Declarable called [] "fact" :=
    ⟨⟨by decide, by decide, by decide⟩, by decide, by decide⟩
  have hsafe : safe.Declarable called [] "safe" :=
    ⟨⟨by decide, by decide, by decide⟩, by decide, by decide⟩
  have hroot : root.Declarable called [] "view" :=
    ⟨⟨by decide, by decide, by decide⟩, by decide, by decide⟩
  have hnodes : ∀ node ∈ nodes, ∃ name body, node = .declaration name body ∧
      body.Declarable called [] name :=
    List.forall_mem_cons.mpr ⟨⟨_, _, rfl, hfact⟩, List.forall_mem_cons.mpr ⟨⟨_, _, rfl, hsafe⟩,
      List.forall_mem_singleton.mpr ⟨_, _, rfl, hroot⟩⟩⟩
  have hrun : Session.declareAll 9 {} (nodes.map .ok) = some (.ok (), after) := rfl
  exact ⟨.fresh defaultRoot, hread, hfact, hsafe, hroot, hrun, rfl,
    compile_root_value (.fresh defaultRoot) hread hnodes hrun rfl⟩

/-- A chain of conditions that is decided takes the mention of the parameter with it. The
application is left waiting for nothing, and fails when the root is evaluated again. -/
theorem compile_root_lost_mention :
    let source := "view x = (\\k -> 1 / k) (if True then 0 else x)"
    let body : Node := .function "x" (.apply
      (.function "k" (.binary .div (.integer 1) (.var "k")))
      (.ifElse [.boolean true] [.integer 0, .var "x"]))
    let root : Node := .function "x" (.apply
      (.function "k" (.binary .div (.integer 1) (.var "k"))) (.integer 0))
    let after : Session := { table := [("view", root)] }
    readProgram source = .ok ([.declaration "view" body], []) ∧
      Session.declareAll 9 {} [.ok (.declaration "view" body)] = some (.ok (), after) ∧
      after.get? "view" = some root ∧
      Session.compile 9 {} source = some (.error (.evaluation .divisionByZero), after) := by
  intro source body root after
  have hread : readProgram source = .ok ([.declaration "view" body], []) :=
    readProgram_eq_ok rfl (by decide +kernel)
  obtain ⟨stream, hstream, hresults, -⟩ := readAll_declaration hread (by simp)
  refine ⟨hread, rfl, rfl, ?_⟩
  simp only [Session.compile, hstream, hresults]
  rfl

end Session

end Viewlet
