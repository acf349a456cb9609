import Viewlet.Proofs.Reading.Complaints

namespace Viewlet

namespace Parse

open Reader

theorem retries_name : Retries name Clear :=
  retries_nameWhere _ _

theorem retries_capitalized : Retries capitalized Clear :=
  retries_nameWhere _ _

section Expressions

variable {e : Parse Node}

theorem reports_integer (token : Token) :
    Reports (fun reader => reader.Clear ∧ reader.peek? = some token) (integer token) Clear := by
  rw [integer]
  split
  · exact (reports_advance fun _ hreader => hreader.1.advance).bind fun _ => reports_return
  · refine reports_fail fun reader hreader => ?_
    rw [hreader.2]
    rfl

theorem reports_clear_advance : Reports Clear advance Clear :=
  reports_advance fun _ hclear => hclear.advance

theorem reports_clear_expect (kind : Token.Kind) : Reports Clear (expect kind) Clear :=
  reports_expect fun _ hclear _ => hclear

theorem reports_atom (h : Reports Clear e (TurnsBackBefore .pipeRight)) :
    Reports Clear (atom e) Clear := by
  refine reports_peek_bind fun found => ?_
  cases found with
  | none => exact reports_unexpected
  | some token =>
      dsimp only
      split
      · exact reports_integer token
      · exact (reports_clear_advance.bind fun _ => reports_return).weaken
      · exact (reports_clear_advance.bind fun _ => reports_return).weaken
      · exact (reports_clear_advance.bind fun _ => reports_return).weaken
      · refine (reports_clear_advance.bind fun _ => ?_).weaken
        split <;> exact reports_return
      · exact (reports_clear_advance.bind fun _ => h.bind fun _ =>
          (reports_expect_of_ne (by decide)).bind fun _ => reports_return).weaken
      · exact reports_unexpected

theorem reports_argumentsUpTo (h : Reports Clear e (TurnsBackBefore .pipeRight)) (count : Nat) :
    Reports Clear (argumentsUpTo e count) Clear := by
  induction count with
  | zero => exact reports_return
  | succ count ih =>
      refine reports_peek_bind fun found => Reports.weaken ?_
      cases found with
      | none => exact reports_return
      | some token =>
          dsimp only
          split
          · exact (reports_atom h).bind fun _ => ih.bind fun _ => reports_return
          · exact reports_return

theorem reports_arguments (h : Reports Clear e (TurnsBackBefore .pipeRight)) :
    Reports Clear (arguments e) Clear :=
  reports_remaining_bind fun count => (reports_argumentsUpTo h count).weaken

theorem reports_application (h : Reports Clear e (TurnsBackBefore .pipeRight)) :
    Reports Clear (application e) Clear := by
  refine reports_peek_bind fun found => Reports.weaken ?_
  cases found with
  | none => exact reports_unexpected
  | some token =>
      dsimp only
      split
      · exact reports_clear_advance.bind fun _ => (reports_arguments h).bind fun _ => reports_return
      · exact (reports_atom h).bind fun _ => (reports_arguments h).bind fun _ => reports_return

theorem reports_unaryUpTo (h : Reports Clear e (TurnsBackBefore .pipeRight)) (count : Nat) :
    Reports Clear (unaryUpTo e count) Clear := by
  induction count with
  | zero => exact reports_application h
  | succ count ih =>
      refine reports_peek_bind fun found => Reports.weaken ?_
      cases found with
      | none => exact reports_application h
      | some token =>
          dsimp only
          split
          · exact reports_clear_advance.bind fun _ => ih.bind fun _ => reports_return
          · split
            · exact reports_clear_advance.bind fun _ => ih.bind fun _ => reports_return
            · exact reports_application h

theorem reports_chainUpTo {operators : List (Token.Kind × BinOp)} {operand : Parse Node}
    (h : Reports Clear operand Clear) (count : Nat) (left : Node) :
    Reports Clear (chainUpTo operators operand count left) Clear := by
  induction count generalizing left with
  | zero => exact reports_return
  | succ count ih =>
      refine reports_peekKind_bind fun found => Reports.weaken ?_
      split
      · exact reports_clear_advance.bind fun _ => h.bind fun _ => ih _
      · exact reports_return

theorem reports_operation (h : Reports Clear e (TurnsBackBefore .pipeRight))
    (tiers : List (List (Token.Kind × BinOp))) : Reports Clear (operation e tiers) Clear := by
  induction tiers with
  | nil => exact reports_remaining_bind fun count => (reports_unaryUpTo h count).weaken
  | cons operators inner ih =>
      exact ih.bind fun left => reports_remaining_bind fun count =>
        (reports_chainUpTo ih count left).weaken

theorem reports_pipeline (h : Reports Clear e (TurnsBackBefore .pipeRight)) :
    Reports Clear (pipeline e) (TurnsBackBefore .pipeRight) := by
  refine (reports_operation h tiers).bind fun left => reports_peekKind_bind fun found => ?_
  split
  · exact (reports_clear_advance.bind fun _ => h.bind fun _ => reports_return).weaken
  · exact ((retries_expect_bind (reports_operation h tiers)).many.bind fun _ =>
      reports_return).weaken
  · next _ hright =>
      exact reports_pure fun reader hreader =>
        iff_of_true hreader.1 fun hkind => hright (hreader.2.symm.trans hkind)

theorem reports_lambda (h : Reports Clear e (TurnsBackBefore .pipeRight)) :
    Reports Clear (lambda e) (TurnsBackBefore .pipeRight) :=
  (reports_clear_expect _).bind fun _ => retries_name.manyOne.label.bind fun _ =>
    (reports_clear_expect _).bind fun _ => h.bind fun _ => reports_return

theorem reports_armsUpTo (h : Reports Clear e (TurnsBackBefore .pipeRight)) (count : Nat) :
    Reports Clear (armsUpTo e count) (TurnsBackBefore .pipeRight) := by
  induction count with
  | zero => exact reports_unexpected
  | succ count ih =>
      refine h.bind fun _ => (reports_expect_of_ne (by decide)).bind fun _ => h.bind fun _ => ?_
      refine (reports_expect_of_ne (by decide)).bind fun _ =>
        reports_peekKind_bind fun found => Reports.weaken ?_
      split
      · exact reports_clear_advance.bind fun _ => ih.bind fun _ => reports_return
      · exact h.bind fun _ => reports_return

theorem reports_conditional (h : Reports Clear e (TurnsBackBefore .pipeRight)) :
    Reports Clear (conditional e) (TurnsBackBefore .pipeRight) :=
  (reports_clear_expect _).bind fun _ => reports_remaining_bind fun count =>
    ((reports_armsUpTo h (count + 1)).bind fun _ => reports_return).weaken

theorem reports_expressionWithin (depth : Nat) :
    Reports Clear (expressionWithin depth) (TurnsBackBefore .pipeRight) := by
  induction depth with
  | zero => exact reports_unexpected
  | succ depth ih =>
      refine reports_peekKind_bind fun found => Reports.weaken ?_
      split
      · exact reports_lambda ih
      · exact reports_conditional ih
      · exact reports_pipeline ih

theorem reports_expression : Reports Clear expression (TurnsBackBefore .pipeRight) :=
  reports_remaining_bind fun count => (reports_expressionWithin (count + 1)).weaken

end Expressions

section Items

theorem reports_declaration : Reports Clear declaration (TurnsBackBefore .pipeRight) :=
  retries_name.reports.label.bind fun _ => retries_name.many.bind fun _ =>
    (reports_clear_expect _).bind fun _ => reports_expression.bind fun _ => reports_return

theorem reports_constructor (result : String) : Reports Clear (constructor result) Clear :=
  retries_capitalized.reports.label.bind fun _ =>
    (retries_capitalized.either retries_name).many.bind fun _ => reports_return

theorem reports_typeDefinition : Reports Clear typeDefinition (TurnsBackBefore .bar) := by
  have halternative (defined : String) : Retries (alternative defined) (TurnsBackBefore .bar) :=
    retries_expect_bind (reports_constructor defined)
  have hreturn (result : Node) :
      Reports (TurnsBackBefore .bar) (pure result : Parse Node) (TurnsBackBefore .bar) :=
    reports_return
  have hrest := retries_capitalized.reports.bind fun defined =>
    retries_name.many.bind fun parameters => (reports_clear_expect .equals).bind fun _ =>
      (reports_constructor defined).bind fun first => (halternative defined).many.bind fun others =>
        hreturn (.typeDefinition defined parameters (first :: others))
  refine (reports_clear_expect _).bind fun _ => reports_peek_bind fun found => ?_
  cases found with
  | none => exact hrest.weaken
  | some token =>
      dsimp only
      split
      · refine Reports.bind (reports_fail fun reader hreader => ?_) fun _ => hrest
        rw [hreader.2]
        rfl
      · exact hrest.weaken

/-- The kind of the tokens before which the grammar can turn back, in a unit that begins with a
token of the given kind. -/
def turningKind (first : Option Token.Kind) : Token.Kind :=
  if first = some .wordType then .bar else .pipeRight

theorem reports_item (first : Option Token.Kind) :
    Reports (fun reader => reader.Clear ∧ reader.peek?.map (·.kind) = first) item
      (TurnsBackBefore (turningKind first)) := by
  rintro reader horderly ⟨hclear, hfirst⟩
  rw [item, run_bind_ok (run_peekKind reader), hfirst, turningKind]
  split
  · exact reports_typeDefinition reader horderly hclear
  · rw [run_bind_ok (run_get reader)]
    split
    · exact reports_declaration reader horderly hclear
    · exact reports_expression reader horderly hclear

theorem reports_declaration_first (first : Option Token.Kind) :
    Reports (fun reader => reader.Clear ∧ reader.peek?.map (·.kind) = first) declaration
      (TurnsBackBefore (turningKind first)) := by
  rw [turningKind]
  split
  · next hfirst =>
      have hname : Reports (fun reader => reader.Clear ∧ reader.peek?.map (·.kind) = first) name
          fun _ => False := by
        refine reports_nameWhere fun reader token hreader hnext hkind => ?_
        have hword := hreader.2.trans hfirst
        rw [hnext, Option.map_some, hkind] at hword
        cases hword
      exact hname.label.bind fun _ _ _ hfalse => hfalse.elim
  · exact reports_declaration.weaken

end Items

end Parse

namespace Reader

open Parse

variable {reader after last : Reader} {parse : Parse Node} {error : SyntaxError}

/-- A reader is clear exactly if no place of its course is further on. -/
theorem clear_iff_course (hnone : reader.furthest = none) (hpasses : reader.Passes after) :
    (∀ places, reader.Course places after → ∀ recorded ∈ places, recorded ≤ after.index) ↔
      after.Clear := by
  refine ⟨fun hplaces found hfound => ?_, fun hclear places hcourse recorded hmem => ?_⟩
  · obtain ⟨places, hcourse⟩ := hpasses.course
    rcases hcourse.mem_or_furthest hfound with hmem | hbefore
    · exact hplaces places hcourse found.1 hmem
    · cases hnone.symm.trans hbefore
  · exact Nat.le_of_not_lt fun hlt => hclear.not_reaches hlt (hcourse.reaches recorded hmem)

/-- Where the grammar fails, the complaint that is reported is as far as any that was recorded. -/
theorem exists_place_of_reaches {failure : SyntaxError} (hpasses : reader.Passes after)
    (hreaches : after.Reaches after.index) :
    ∃ place, reader.Names (after.furthestError?.getD failure) place ∧
      ∀ places, reader.Course places after → ∀ recorded ∈ places, recorded ≤ place := by
  obtain ⟨found, hfound, -⟩ := hreaches
  have herror : after.furthestError?.getD failure = found.2 := by
    rw [furthestError?, hfound]
    rfl
  rw [herror]
  refine ⟨found.1, (hpasses.orderly.furthest found hfound).inUnit hpasses.unit.symm, ?_⟩
  intro places hcourse recorded hmem
  obtain ⟨further, hfurther, hle⟩ := hcourse.reaches recorded hmem
  obtain rfl := Option.some.inj (hfound.symm.trans hfurther)
  exact hle

theorem names_errorHere (hpasses : reader.Passes after) (reason : Reason) :
    reader.Names (after.errorHere reason) after.index :=
  Names.inUnit ⟨hpasses.orderly.index, span_errorHere after reason⟩ hpasses.unit.symm

/-- The complaint about a unit names a token that is as far as any complaint recorded while the unit
was read, unless the grammar ended in front of a token before which it turned back: the sign of a
pipeline, or the bar between constructors in the definition of a type. -/
theorem readUnit_furthest (hparse : parse = item ∨ parse = declaration)
    (hnext : reader.beginUnit.hasNext = true) (h : reader.readUnit parse = (.error error, last)) :
    let begun := reader.beginUnit
    let after := (parse.run.run begun).2
    ∃ place, begun.Names error place ∧ (∃ places, begun.Course places after) ∧
      ((∀ places, begun.Course places after → ∀ recorded ∈ places, recorded ≤ place) ↔
        ¬((∃ node, (parse.run.run begun).1 = .ok node) ∧
          after.peek?.map (·.kind) = some (turningKind (begun.peek?.map (·.kind))))) := by
  intro begun after
  have hnone : begun.furthest = none := rfl
  have hstart : begun.Clear := fun found hfound => by cases hnone.symm.trans hfound
  have horderly : begun.Orderly :=
    ⟨Nat.le_of_lt (of_decide_eq_true hnext), fun found hfound => by cases hnone.symm.trans hfound⟩
  have hreports : begun.Passes after ∧
      Settles (TurnsBackBefore (turningKind (begun.peek?.map (·.kind)))) (parse.run.run begun) := by
    rcases hparse with rfl | rfl
    · exact reports_item _ begun horderly ⟨hstart, rfl⟩
    · exact reports_declaration_first _ begun horderly ⟨hstart, rfl⟩
  obtain ⟨hpasses, hsettles⟩ := hreports
  have hread : (if begun.hasNext then _ else _) = (Except.error error, last) := h
  rw [if_pos hnext] at hread
  rcases hrun : parse.run.run begun with ⟨failure | node, stopped⟩ <;>
    have hafter : after = stopped := congrArg Prod.snd hrun <;>
    rw [hafter] at hpasses ⊢ <;>
    rw [hrun] at hread hsettles
  · obtain rfl := Except.error.inj (Prod.mk.inj hread).1
    obtain ⟨place, hnames, hplaces⟩ := exists_place_of_reaches hpasses hsettles.2
    refine ⟨place, hnames, hpasses.course, iff_of_true hplaces ?_⟩
    rintro ⟨⟨node, hnode⟩, -⟩
    cases hnode
  · dsimp only at hread
    split at hread
    · obtain rfl := Except.error.inj (Prod.mk.inj hread).1
      refine ⟨stopped.index, names_errorHere hpasses _, hpasses.course, ?_⟩
      have hturns : stopped.Clear ↔ stopped.peek?.map (·.kind) ≠ some _ := hsettles
      rw [clear_iff_course hnone hpasses, hturns, not_and]
      exact ⟨fun hne _ => hne, fun hne => hne ⟨node, rfl⟩⟩
    · cases hread

/-- A pipeline in parentheses that is not closed behind an argument that is not closed either. -/
theorem readUnit_furthest_nested :
    let reader := ofTokens (((TokenStream.ofSource "(x |> (1").toOption.map (·.tokens)).getD []) []
    ∃ error last place, reader.readUnit item = (.error error, last) ∧ error.span = none ∧
      reader.beginUnit.Names error place ∧
      ∀ places, reader.beginUnit.Course places (item.run.run reader.beginUnit).2 →
        ∀ recorded ∈ places, recorded ≤ place := by
  intro reader
  have hclosed : (separate [(reader.readUnit item).1]).2.map (·.span) = [none] ∧
      reader.beginUnit.hasNext = true ∧
      (item.run.run reader.beginUnit).1.isOk = false := by
    decide +kernel
  obtain ⟨hspan, hnext, hfails⟩ := hclosed
  rcases hread : reader.readUnit item with ⟨error | node, last⟩
  · obtain ⟨place, hnames, -, hplaces⟩ := readUnit_furthest (.inl rfl) hnext hread
    rw [hread] at hspan
    refine ⟨error, last, place, rfl, (List.cons.inj hspan).1, hnames, hplaces.mpr ?_⟩
    rintro ⟨⟨node, hnode⟩, -⟩
    rw [hnode] at hfails
    cases hfails
  · rw [hread] at hspan
    cases hspan

/-- The complaint about an argument that is not closed is recorded at the end of the unit, and the
complaint that is reported is about the sign of the pipeline. -/
theorem readUnit_furthest_pipeline :
    let reader := ofTokens (((TokenStream.ofSource "x |> (1").toOption.map (·.tokens)).getD []) []
    (separate [(reader.readUnit item).1]).2.map (·.span) = [reader.tokens[1]?.map (·.span)] ∧
      reader.beginUnit.limit = 4 ∧
      (item.run.run reader.beginUnit).2.furthest.map (·.1) = some 4 := by
  decide +kernel

end Reader

end Viewlet
