import Viewlet.Proofs.Reading.ReadNames
import Viewlet.Proofs.Reading.RenderedNames
import Viewlet.Proofs.Reading.Rendering
import Viewlet.Proofs.Typing.AlikeEnvironments
import Viewlet.Proofs.Typing.RunInvariant

namespace Viewlet

namespace Node

/-- Whether the unit is neither a declaration nor a type definition. -/
def isBare : Node → Bool
  | .declaration .. | .typeDefinition .. => false
  | _ => true

/-- The bare expression can be left out of the units: if it is a number written `inf`, this name
occurs in none of them. -/
def Unseen (nodes : List Node) (node : Node) : Prop :=
  node.isBare = true ∧
    ∀ value, node = .float value → node.render = "inf" → ∀ unit ∈ nodes, "inf" ∉ unit.names

theorem entry?_of_isBare {node : Node} (h : node.isBare = true) :
    node.entry? = some node.render := by
  cases node with
  | declaration | typeDefinition => cases h
  | _ => rfl

theorem UnitOf.of_isBare {P : Node → Prop} {node : Node} (h : node.UnitOf P)
    (hbare : node.isBare = true) : P node := by
  cases h with
  | expression h => exact h
  | declaration | typeDefinition => cases hbare

end Node

namespace Infer

variable {env env' : TypeEnv} {next next' : TyVar} {name : String}

theorem exists_get?_of_unit {node : Node} (h : (unit env node).Yields next env' next')
    (hname : (∃ scheme, env.get? name = some scheme) ∨ ∃ body, node = .declaration name body) :
    ∃ scheme, env'.get? name = some scheme := by
  rcases yields_unit.mp h with ⟨hentry, rfl, -⟩ | ⟨entered, s, ty, hentry, -, rfl⟩
  · rcases hname with hold | ⟨body, rfl⟩
    · exact hold
    · cases hentry
  · rw [TypeEnv.get?_insert]
    split
    · exact ⟨_, rfl⟩
    · next hne =>
        rcases hname with hold | ⟨body, rfl⟩
        · exact hold
        · exact absurd (Option.some.inj hentry) hne

theorem exists_get?_of_units {nodes : List Node} (h : (units env nodes).Yields next env' next')
    (hname : (∃ scheme, env.get? name = some scheme) ∨
      ∃ body, .declaration name body ∈ nodes) :
    ∃ scheme, env'.get? name = some scheme := by
  induction nodes generalizing env next with
  | nil =>
      rw [units, yields_pure] at h
      obtain ⟨rfl, rfl⟩ := h
      rcases hname with hold | ⟨body, hmem⟩
      · exact hold
      · exact absurd hmem List.not_mem_nil
  | cons first rest ih =>
      obtain ⟨env₁, next₁, hfirst, hrest⟩ := yields_units_cons.mp h
      rcases hname with hold | ⟨body, hmem⟩
      · exact ih hrest (.inl (exists_get?_of_unit hfirst (.inl hold)))
      · rcases List.mem_cons.mp hmem with rfl | hmem
        · exact ih hrest (.inl (exists_get?_of_unit hfirst (.inr ⟨body, rfl⟩)))
        · exact ih hrest (.inr ⟨body, hmem⟩)

theorem render_eq_of_alikeAt (hclosed : ClosedAt env next) (hclosed' : ClosedAt env' next')
    (h : env.AlikeAt env' name) :
    (env'.get? name).map (·.ty.render) = (env.get? name).map (·.ty.render) := by
  obtain ⟨κ, hfits, -⟩ := hclosed
  obtain ⟨κ', hfits', -⟩ := hclosed'
  rw [TypeEnv.AlikeAt] at h
  cases hscheme : env.get? name with
  | none =>
      rw [hscheme] at h
      generalize env'.get? name = found at h
      cases h
      rfl
  | some scheme =>
      obtain ⟨scheme', hscheme', hsame⟩ := TypeEnv.AlikeAt.exists_get? h hscheme
      rw [hscheme', Option.map_some, Option.map_some]
      exact congrArg some (hsame.render_eq (hfits.kinds (TypeEnv.mem_of_get? hscheme))
        (hfits'.kinds (TypeEnv.mem_of_get? hscheme'))).symm

end Infer

/-- Bare expressions do not matter to the types of the declarations of a program. If it is
accepted, so is what is left of it without some of them, and every name that can be used has a
type with the same text. -/
theorem bare_expressions_unseen {source : String} {nodes kept : List Node}
    {errors : List SyntaxError} {env : TypeEnv} (hread : readProgram source = .ok (nodes, errors))
    (hinfer : inferProgram nodes = .ok env) (hleaves : LeavesOut (Node.Unseen nodes) nodes kept) :
    ∃ env', inferProgram kept = .ok env' ∧
      (∀ name body, .declaration name body ∈ nodes → ∃ scheme scheme',
        env.get? name = some scheme ∧ env'.get? name = some scheme' ∧
          scheme'.ty.render = scheme.ty.render) ∧
      ∀ name, isVariableName name = true → name ≠ "inf" →
        (env'.get? name).map (·.ty.render) = (env.get? name).map (·.ty.render) := by
  -- the names that units use: `inf` is one of them only if some unit has it
  let used (name : String) : Prop :=
    Token.isIdentifier name.toList = true ∧ Token.isCapitalized name = false ∧
      (name = "inf" → ∃ unit ∈ nodes, "inf" ∈ unit.names)
  have hnames : ∀ node ∈ nodes, ∀ x ∈ node.names, used x := by
    intro node hmem x hx
    obtain ⟨hidentifier, hplain⟩ := isIdentifier_of_readProgram hread hmem hx
    exact ⟨hidentifier, hplain, fun hinf => ⟨node, hmem, hinf ▸ hx⟩⟩
  have hhidden : ∀ node ∈ nodes, node.Unseen nodes →
      ∀ name, used name → node.entry? = some name → node = .var name := by
    rintro node hmem ⟨hbare, hinfinite⟩ name ⟨hidentifier, hplain, hinf⟩ hentry
    obtain ⟨tokens, halone, -⟩ := exists_readAlone_of_readProgram hread hmem
    have hrender := Option.some.inj ((Node.entry?_of_isBare hbare).symm.trans hentry)
    rcases (textIsHidden_of_readAlone halone).of_isBare hbare name hidentifier hplain hrender with
      hvar | ⟨rfl, value, hvalue⟩
    · exact hvar
    · obtain ⟨unit, hunit, hnamed⟩ := hinf rfl
      exact absurd hnamed (hinfinite value hvalue hrender unit hunit)
  obtain ⟨next, hunits⟩ := inferTop_eq_ok.mp (Infer.inferProgram_eq_ok.mp hinfer)
  obtain ⟨env', next', hunits', halike⟩ :=
    Infer.exists_units_alike (hleaves.imp hhidden) hnames (Infer.closedAt_empty 0)
      (Infer.closedAt_empty 0) (fun x _ => .refl _ x) hunits
  have htext : ∀ name, used name →
      (env'.get? name).map (·.ty.render) = (env.get? name).map (·.ty.render) := fun name hname =>
    Infer.render_eq_of_alikeAt (Infer.closedAt_of_units (Infer.closedAt_empty 0) hunits)
      (Infer.closedAt_of_units (Infer.closedAt_empty 0) hunits') (halike name hname)
  refine ⟨env', Infer.inferProgram_eq_ok.mpr (inferTop_eq_ok.mpr ⟨next', hunits'⟩),
    fun name body hmem => ?_, fun name hname hinf => ?_⟩
  · have hused : used name := hnames _ hmem name (by simp [Node.names])
    obtain ⟨scheme, hscheme⟩ := Infer.exists_get?_of_units hunits (.inr ⟨body, hmem⟩)
    obtain ⟨scheme', hscheme', -⟩ := (halike name hused).exists_get? hscheme
    have heq := htext name hused
    rw [hscheme, hscheme'] at heq
    exact ⟨scheme, scheme', hscheme, hscheme', Option.some.inj heq⟩
  · simp only [isVariableName, Token.isName, Bool.and_eq_true, Bool.not_eq_true'] at hname
    exact htext name ⟨hname.1.1.1, hname.1.2, fun heq => absurd heq hinf⟩

/-- A general function is entered again as a variable, and a sum stands between declarations. -/
theorem bare_expressions_unseen_reentered :
    let nodes : List Node := [.declaration "id" (.function "x" (.var "x")), .var "id",
      .binary .add (.integer 1) (.integer 2), .declaration "view" (.apply (.var "id") (.integer 1))]
    let kept : List Node := [.declaration "id" (.function "x" (.var "x")),
      .declaration "view" (.apply (.var "id") (.integer 1))]
    readProgram "id x = x\nid\n1 + 2\nview = id 1" = .ok (nodes, []) ∧
    LeavesOut (Node.Unseen nodes) nodes kept ∧
    ∃ env env', inferProgram nodes = .ok env ∧ inferProgram kept = .ok env' ∧
      ∃ scheme scheme', env.get? "view" = some scheme ∧ env'.get? "view" = some scheme' ∧
        scheme'.ty.render = scheme.ty.render := by
  intro nodes kept
  have hread : readProgram "id x = x\nid\n1 + 2\nview = id 1" = .ok (nodes, []) :=
    readProgram_eq_ok rfl (by decide +kernel)
  have hleaves : LeavesOut (Node.Unseen nodes) nodes kept :=
    .keep (.skip ⟨rfl, nofun⟩ (.skip ⟨rfl, nofun⟩ (.keep .nil)))
  have hvar : (Infer.unit ⟨[("id", ⟨[1], .func (.var 1) (.var 1)⟩)]⟩ (.var "id")).Yields 2
      ⟨[("id", ⟨[2], .func (.var 2) (.var 2)⟩)]⟩ 3 :=
    Infer.yields_unit.mpr (.inr ⟨"id", .empty, .func (.var 2) (.var 2), rfl,
      Infer.yields_var.mpr ⟨_, rfl, rfl, rfl, rfl⟩, rfl⟩)
  have hsum : (Infer.unit ⟨[("id", ⟨[2], .func (.var 2) (.var 2)⟩)]⟩
      (.binary .add (.integer 1) (.integer 2))).Yields 3
      (TypeEnv.insert ⟨[("id", ⟨[2], .func (.var 2) (.var 2)⟩)]⟩
        (Node.binary .add (.integer 1) (.integer 2)).render ⟨[5], .number 5⟩) 6 :=
    Infer.yields_unit.mpr (.inr ⟨_, _, .number 5, rfl, (Infer.yields_numeric rfl).mpr
      ⟨.empty, .number 3, 4, .empty, .number 4, 5, .single 3 (.number 4), .single 4 (.number 5),
        Infer.yields_integer.mpr ⟨rfl, rfl, rfl⟩, Infer.yields_integer.mpr ⟨rfl, rfl, rfl⟩,
        (unify_eq_unifyBy _ _).trans rfl, (unify_eq_unifyBy _ _).trans rfl, rfl, rfl, rfl⟩, rfl⟩)
  have hid : (TypeEnv.insert (TypeEnv.insert ⟨[("id", ⟨[2], .func (.var 2) (.var 2)⟩)]⟩
      (Node.binary .add (.integer 1) (.integer 2)).render ⟨[5], .number 5⟩) "view"
      ⟨[], .var 6⟩).get? "id" = some ⟨[2], .func (.var 2) (.var 2)⟩ := by decide
  have hview := Infer.yields_unit.mpr (.inr ⟨"view", _, _, rfl, Infer.yields_declaration.mpr
    ⟨_, _, .single 6 (.number 8), Infer.yields_call_identity hid 1 7,
      (unify_eq_unifyBy _ _).trans rfl, rfl, rfl⟩, rfl⟩)
  have hinfer : ∃ env, inferProgram nodes = .ok env :=
    ⟨_, Infer.inferProgram_eq_ok.mpr (inferTop_eq_ok.mpr ⟨10, Infer.yields_units_cons.mpr ⟨_, _,
      Infer.yields_unit_identity .empty "id" "x" 0, Infer.yields_units_cons.mpr ⟨_, _, hvar,
        Infer.yields_units_cons.mpr ⟨_, _, hsum,
          Infer.yields_units_cons.mpr ⟨_, _, hview, rfl⟩⟩⟩⟩⟩)⟩
  obtain ⟨env, hinfer⟩ := hinfer
  obtain ⟨env', hinfer', hdeclared, -⟩ := bare_expressions_unseen hread hinfer hleaves
  exact ⟨hread, hleaves, env, env', hinfer, hinfer',
    hdeclared "view" (.apply (.var "id") (.integer 1)) (by simp [nodes])⟩

/-- The exception is needed: a number that is written `inf` makes this name known to the units
behind it. -/
theorem infinite_number_seen {value : Float} (hvalue : (Node.float value).render = "inf")
    {name : String} (hname : name ≠ "inf") :
    (∃ env, inferProgram [.float value, .declaration name (.var "inf")] = .ok env) ∧
      ∀ env, inferProgram [.declaration name (.var "inf")] ≠ .ok env := by
  constructor
  · have hfirst : (Infer.unit .empty (.float value)).Yields 0
        (TypeEnv.empty.insert "inf" (TypeEnv.empty.generalize .float)) 0 :=
      Infer.yields_unit.mpr (.inr ⟨"inf", .empty, .float, congrArg some hvalue, rfl, rfl⟩)
    have htyped : HasType (TypeEnv.empty.insert "inf" (TypeEnv.empty.generalize .float))
        (.declaration name (.var "inf")) .float := by
      have hscheme : ((TypeEnv.empty.insert "inf" (TypeEnv.empty.generalize .float)).insert name
          ⟨[], .float⟩).get? "inf" = some (TypeEnv.empty.generalize .float) := by
        rw [TypeEnv.get?_insert, if_neg (Ne.symm hname), TypeEnv.get?_insert, if_pos rfl]
      exact .declaration (.var hscheme (Scheme.hasInstance_self (TypeEnv.empty.generalize .float)))
    have hclosed := (Infer.closedAt_of_unit (Infer.closedAt_empty 0) hfirst).1
    obtain ⟨env, next, hsecond⟩ := Infer.exists_yields_unit hclosed htyped
    refine ⟨env, Infer.inferProgram_eq_ok.mpr (inferTop_eq_ok.mpr ⟨next, ?_⟩)⟩
    refine Infer.yields_units_cons.mpr ⟨_, _, hfirst, Infer.yields_units_cons.mpr ?_⟩
    exact ⟨env, next, hsecond, by simp [Infer.units]⟩
  · intro env hinfer
    obtain ⟨next, hunits⟩ := inferTop_eq_ok.mp (Infer.inferProgram_eq_ok.mp hinfer)
    obtain ⟨env₁, next₁, hunit, -⟩ := Infer.yields_units_cons.mp hunits
    obtain ⟨-, hentry | ⟨entered, scheme, -, -, htyped⟩⟩ :=
      Infer.closedAt_of_unit (Infer.closedAt_empty 0) hunit
    · cases hentry.1
    · cases htyped _ scheme.hasInstance_self with
      | declaration hbody =>
          cases hbody with
          | var hscheme _ =>
              rw [TypeEnv.get?_insert, if_neg (Ne.symm hname)] at hscheme
              cases hscheme

theorem Reader.readAlone_float {token : Token} (h : token.kind = .float) :
    readAlone Parse.item [token] = .ok (.float (Decimal.toFloat token.text.toList)) := by
  have hcallee : Derives .callee [token] (.float (Decimal.toFloat token.text.toList)) := .float h
  exact readUnit_of_derives (sees_ofTokens [token]) (.expression (.plain
    (Derives.plain_of_operation (hcallee.unary_of_callee.operation_of_unary _))))

theorem readProgram_of_literal {c : Char} {tail : List Char} (hblank : Text.isBlank c = false)
    (hfault : Alphabet.fault? (Comment.blankFrom .code (c :: tail ++ "\na = inf".toList)) = none)
    (hblocks : Layout.blocks (Comment.blankFrom .code (c :: tail ++ "\na = inf".toList)) =
      [⟨0, [c :: tail]⟩, ⟨1, ["a = inf".toList]⟩])
    (hlongest : Token.longest? (c :: tail ++ []) = some (.float, (c :: tail).length)) :
    readProgram (String.ofList (c :: tail ++ "\na = inf".toList)) =
      .ok ([.float (Decimal.toFloat (c :: tail)), .declaration "a" (.var "inf")], []) := by
  obtain ⟨_, place, ⟨token, rfl, hkind, htext⟩, hscan⟩ :=
    Token.cuts_lexeme hblank hlongest (String.ofList (c :: tail)) ⟨0, 0, 0⟩
  rw [List.append_nil] at hscan
  have hfirst : Token.scan (String.ofList (c :: tail)) = .ok [token] := by
    rw [Token.scan, String.toList_ofList, hscan]
    rfl
  have hbelow : ∃ tokens, Token.scan (String.ofList ('\n' :: "a = inf".toList)) = .ok tokens ∧
      (!tokens.isEmpty) = true ∧ separate [Reader.readAlone Parse.item tokens] =
        ([.declaration "a" (.var "inf")], []) := by
    have hread : (Token.scan (String.ofList ('\n' :: "a = inf".toList))).toOption.any
        (fun tokens => !tokens.isEmpty && separated [.declaration "a" (.var "inf")] []
          [Reader.readAlone Parse.item tokens]) = true := by
      decide +kernel
    cases hrest : Token.scan (String.ofList ('\n' :: "a = inf".toList)) with
    | error failure =>
        rw [hrest] at hread
        cases hread
    | ok tokens =>
        rw [hrest] at hread
        obtain ⟨hne, hseparated⟩ := Bool.and_eq_true_iff.mp hread
        exact ⟨tokens, rfl, hne, separate_eq rfl hseparated⟩
  obtain ⟨tokens, hrest, hne, hdeclaration⟩ := hbelow
  have hsource : TokenStream.ofSource (String.ofList (c :: tail ++ "\na = inf".toList)) =
      .ok (.ofRuns [[token], tokens]) := by
    have hplace : (⟨0, [c :: tail]⟩ : Layout.Block).inPlace = c :: tail := rfl
    have hplace' : (⟨1, ["a = inf".toList]⟩ : Layout.Block).inPlace =
        '\n' :: "a = inf".toList := rfl
    rw [TokenStream.ofSource_eq_ok, String.toList_ofList, hblocks]
    refine ⟨hfault, [[token], tokens], ?_, rfl⟩
    simp only [TokenStream.scanBlocks, hplace, hplace', hfirst, hrest]
  have hunits : [[token], tokens].filter (fun run => !run.isEmpty) = [[token], tokens] := by
    simp [hne]
  rw [readProgram_of_runs hsource, hunits, List.map_cons, Reader.readAlone_float hkind, htext,
    String.toList_ofList]
  change Except.ok (.float (Decimal.toFloat (c :: tail)) ::
    (separate [Reader.readAlone Parse.item tokens]).1,
    (separate [Reader.readAlone Parse.item tokens]).2) = _
  rw [hdeclaration]

/-- A literal of 310 digits before the point is infinite. -/
theorem infinite_literal_seen :
    let digits := '9' :: (List.replicate 309 '9' ++ ['.', '0'])
    ∃ value, readProgram (String.ofList (digits ++ "\na = inf".toList)) =
        .ok ([.float value, .declaration "a" (.var "inf")], []) ∧
      (∃ env, inferProgram [.float value, .declaration "a" (.var "inf")] = .ok env) ∧
      ∀ env, inferProgram [.declaration "a" (.var "inf")] ≠ .ok env := by
  intro digits
  have hinfinite : (Node.float (Decimal.toFloat digits)).render = "inf" := by decide +kernel
  refine ⟨Decimal.toFloat digits, readProgram_of_literal rfl ?_ ?_ ?_,
    infinite_number_seen hinfinite (by decide)⟩
  all_goals decide +kernel

end Viewlet
