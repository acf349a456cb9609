import Viewlet.Proofs.Reading.ParseRun

/-!
Complaints and their places. A course is what a parse does to a reader: it steps on, goes back, and
records complaints. `Parse.Reports pre x post` says that a parse started as `pre` says takes such a
course, and either ends as `post` says or fails with a complaint about the token at which the reader
stands then, which is recorded. A reader is clear if no complaint was recorded further on.
-/

namespace Viewlet

namespace Reader

variable {reader after last : Reader} {error : SyntaxError} {places : List Nat} {place : Nat}

/-- The complaint names the token at the place, or no token at the end of the unit. -/
def Names (reader : Reader) (error : SyntaxError) (place : Nat) : Prop :=
  place ≤ reader.limit ∧ error.span = (reader.moveTo place).peek?.map (·.span)

/-- A complaint was recorded at the place or further on. -/
def Reaches (reader : Reader) (place : Nat) : Prop :=
  ∃ found, reader.furthest = some found ∧ place ≤ found.1

/-- No complaint was recorded further on than where the reader stands. -/
def Clear (reader : Reader) : Prop :=
  ∀ found, reader.furthest = some found → found.1 ≤ reader.index

/-- The reader stands in its unit, and the furthest complaint names the token at its place. -/
structure Orderly (reader : Reader) : Prop where
  index : reader.index ≤ reader.limit
  furthest : ∀ found, reader.furthest = some found → reader.Names found.2 found.1

/-- What a parse does to a reader, with the places at which complaints were recorded. -/
inductive Course (reader : Reader) : List Nat → Reader → Prop
  | refl : Course reader [] reader
  | advance {places : List Nat} {after : Reader} :
      Course reader places after → Course reader places after.advance
  | moveTo {places : List Nat} {after : Reader} (index : Nat) :
      Course reader places after → Course reader places (after.moveTo index)
  | record {places : List Nat} {after : Reader} (error : SyntaxError) :
      Course reader places after → Course reader (after.index :: places) (after.record error)

/-- The second reader comes from the first one by a course that does not end further back. -/
structure Passes (reader after : Reader) : Prop where
  unit : reader.InUnit after
  orderly : after.Orderly
  index : reader.index ≤ after.index
  course : ∃ places, reader.Course places after

section Complaints

theorem Names.inUnit (h : reader.Names error place) (hunit : reader.InUnit after) :
    after.Names error place := by
  obtain ⟨htokens, hlimit⟩ := hunit
  rw [Names, peek?, peekAt?, moveTo, htokens, hlimit]
  exact h

theorem span_mismatch (reader : Reader) (expected : String) :
    (reader.mismatch expected).span = reader.peek?.map (·.span) := by
  rw [mismatch]
  cases reader.peek? <;> rfl

theorem span_errorHere (reader : Reader) (reason : Reason) :
    (reader.errorHere reason).span = reader.peek?.map (·.span) := by
  rw [errorHere]
  cases reader.peek? <;> rfl

theorem index_record (reader : Reader) (error : SyntaxError) :
    (reader.record error).index = reader.index := by
  rw [record]
  split
  · split <;> rfl
  · rfl

theorem furthest_record (reader : Reader) (error : SyntaxError) :
    (reader.record error).furthest = reader.furthest ∧ reader.Reaches (reader.index + 1) ∨
      (reader.record error).furthest = some (reader.index, error) := by
  rw [record]
  split
  · next found complaint hfurthest =>
      split
      · next hlt => exact .inl ⟨rfl, _, hfurthest, hlt⟩
      · exact .inr rfl
  · exact .inr rfl

theorem reaches_record (reader : Reader) (error : SyntaxError) :
    (reader.record error).Reaches reader.index := by
  rcases furthest_record reader error with ⟨hsame, found, hfurthest, hlt⟩ | hnew
  · exact ⟨found, hsame.trans hfurthest, Nat.le_of_succ_le hlt⟩
  · exact ⟨_, hnew, Nat.le_refl _⟩

theorem Reaches.record (h : reader.Reaches place) (error : SyntaxError) :
    (reader.record error).Reaches place := by
  obtain ⟨found, hfurthest, hplace⟩ := h
  rw [Reader.record, hfurthest]
  dsimp only
  split
  · exact ⟨found, hfurthest, hplace⟩
  · next hle => exact ⟨_, rfl, Nat.le_trans hplace (Nat.le_of_not_lt hle)⟩

theorem Clear.record (h : reader.Clear) (error : SyntaxError) : (reader.record error).Clear := by
  intro found hfound
  rw [index_record]
  rcases furthest_record reader error with ⟨hsame, -⟩ | hnew
  · exact h found (hsame.symm.trans hfound)
  · obtain rfl := Option.some.inj (hnew.symm.trans hfound)
    exact Nat.le_refl _

theorem Clear.moveTo_record (h : reader.Clear) (error : SyntaxError) :
    ((reader.record error).moveTo reader.index).Clear := by
  intro found hfound
  exact Nat.le_trans (h.record error found hfound) (Nat.le_of_eq (index_record reader error))

theorem index_le_advance (reader : Reader) : reader.index ≤ reader.advance.index := by
  rw [advance]
  split
  · exact Nat.le_succ _
  · exact Nat.le_refl _

theorem index_advance {token : Token} (h : reader.peek? = some token) :
    reader.advance.index = reader.index + 1 := by
  rw [peek?, peekAt?] at h
  split at h
  · next hindex =>
      have hnext : reader.hasNext = true := decide_eq_true hindex
      rw [advance, if_pos hnext]
  · cases h

theorem peek?_moveTo (h : reader.InUnit after) :
    (after.moveTo reader.index).peek? = reader.peek? := by
  obtain ⟨htokens, hlimit⟩ := h
  rw [peek?, peekAt?, moveTo, htokens, hlimit]
  rfl

theorem furthest_advance (reader : Reader) : reader.advance.furthest = reader.furthest := by
  rw [advance]
  split <;> rfl

theorem Clear.advance (h : reader.Clear) : reader.advance.Clear := by
  intro found hfound
  rw [furthest_advance] at hfound
  exact Nat.le_trans (h found hfound) reader.index_le_advance

theorem Clear.not_reaches (h : reader.Clear) (hlt : reader.index < place) :
    ¬reader.Reaches place := by
  rintro ⟨found, hfound, hplace⟩
  have hle := h found hfound
  omega

end Complaints

namespace Course

variable {others : List Nat}

theorem trans (h : reader.Course places after) (h' : after.Course others last) :
    reader.Course (others ++ places) last := by
  induction h' with
  | refl => exact h
  | advance _ ih => exact ih.advance
  | moveTo index _ ih => exact ih.moveTo index
  | record error _ ih => exact ih.record error

/-- The furthest complaint is as far as any of those that were recorded. -/
theorem reaches (h : reader.Course places after) : ∀ place ∈ places, after.Reaches place := by
  induction h with
  | refl => exact fun _ hmem => absurd hmem List.not_mem_nil
  | @advance places after _ ih =>
      intro place hmem
      rw [Reaches, furthest_advance]
      exact ih place hmem
  | moveTo _ _ ih => exact ih
  | @record places after error _ ih =>
      refine List.forall_mem_cons.mpr ⟨reaches_record after error, fun place hmem => ?_⟩
      exact (ih place hmem).record error

/-- The furthest complaint was recorded on the way or before. -/
theorem mem_or_furthest (h : reader.Course places after) {found : Nat × SyntaxError}
    (hfound : after.furthest = some found) : found.1 ∈ places ∨ reader.furthest = some found := by
  induction h generalizing found with
  | refl => exact .inr hfound
  | advance _ ih =>
      rw [furthest_advance] at hfound
      exact ih hfound
  | moveTo _ _ ih => exact ih hfound
  | @record places after error _ ih =>
      rcases furthest_record after error with ⟨hsame, -⟩ | hnew
      · exact (ih (hsame.symm.trans hfound)).imp_left (List.mem_cons_of_mem _)
      · obtain rfl := Option.some.inj (hnew.symm.trans hfound)
        exact .inl List.mem_cons_self

end Course

namespace Passes

theorem refl (h : reader.Orderly) : reader.Passes reader :=
  ⟨.refl reader, h, Nat.le_refl _, _, .refl⟩

theorem trans (h : reader.Passes after) (h' : after.Passes last) : reader.Passes last := by
  obtain ⟨places, hcourse⟩ := h.course
  obtain ⟨others, hcourse'⟩ := h'.course
  exact ⟨h.unit.trans h'.unit, h'.orderly, Nat.le_trans h.index h'.index, _, hcourse.trans hcourse'⟩

theorem advance (h : reader.Orderly) : reader.Passes reader.advance := by
  refine ⟨inUnit_advance, ⟨?_, fun found hfound => ?_⟩, reader.index_le_advance, _, .advance .refl⟩
  · rw [Reader.advance]
    split
    · next hnext => exact of_decide_eq_true hnext
    · exact h.index
  · rw [furthest_advance] at hfound
    exact (h.furthest found hfound).inUnit inUnit_advance

theorem record (h : reader.Orderly) (hnames : reader.Names error reader.index) :
    reader.Passes (reader.record error) := by
  have hunit : reader.InUnit (reader.record error) := inUnit_record error
  refine ⟨hunit, ⟨?_, fun found hfound => ?_⟩, ?_, _, .record error .refl⟩
  · rw [index_record, hunit.2]
    exact h.index
  · rcases furthest_record reader error with ⟨hsame, -⟩ | hnew
    · exact (h.furthest found (hsame.symm.trans hfound)).inUnit hunit
    · obtain rfl := Option.some.inj (hnew.symm.trans hfound)
      exact hnames.inUnit hunit
  · exact Nat.le_of_eq (index_record reader error).symm

theorem moveBack (h : reader.Orderly) (hpasses : reader.Passes after) :
    reader.Passes (after.moveTo reader.index) := by
  obtain ⟨places, hcourse⟩ := hpasses.course
  refine ⟨hpasses.unit, ⟨?_, hpasses.orderly.furthest⟩, Nat.le_refl _, places, hcourse.moveTo _⟩
  exact Nat.le_trans h.index (Nat.le_of_eq hpasses.unit.2.symm)

end Passes

/-- The reader went back to where it stands from further on exactly if a token of the kind is
next. -/
def TurnsBackBefore (kind : Token.Kind) (reader : Reader) : Prop :=
  reader.Clear ↔ reader.peek?.map (·.kind) ≠ some kind

end Reader

namespace Parse

open Reader

variable {α β : Type} {x first second : Parse α} {f : α → Parse β}
  {pre pre' mid post post' : Reader → Prop} {reader after : Reader} {error : SyntaxError}
  {expected : String} {kind stop : Token.Kind}

/-- A result, with a reader as `post` says, or a failure with a complaint about the next token,
which is recorded. -/
def Settles (post : Reader → Prop) : Except SyntaxError α × Reader → Prop
  | (.ok _, after) => post after
  | (.error error, after) => after.Names error after.index ∧ after.Reaches after.index

/-- What comes of the parse, started as `pre` says. -/
def Reports (pre : Reader → Prop) (x : Parse α) (post : Reader → Prop) : Prop :=
  ∀ reader : Reader, reader.Orderly → pre reader →
    reader.Passes (x.run.run reader).2 ∧ Settles post (x.run.run reader)

theorem Reports.mono (h : Reports pre x post) (hpre : ∀ reader, pre' reader → pre reader)
    (hpost : ∀ reader, post reader → post' reader) : Reports pre' x post' := by
  intro reader horderly hstart
  obtain ⟨hpasses, hsettles⟩ := h reader horderly (hpre reader hstart)
  refine ⟨hpasses, ?_⟩
  rcases hrun : x.run.run reader with ⟨error | result, after⟩
  · rw [hrun] at hsettles
    exact hsettles
  · rw [hrun] at hsettles
    exact hpost after hsettles

theorem Reports.weaken {also : Reader → Prop} (h : Reports pre x post) :
    Reports (fun reader => pre reader ∧ also reader) x post :=
  h.mono (fun _ => And.left) fun _ hpost => hpost

theorem reports_pure {result : α} (h : ∀ reader, pre reader → post reader) :
    Reports pre (pure result : Parse α) post :=
  fun reader horderly hpre => ⟨.refl horderly, h reader hpre⟩

theorem reports_return {result : α} : Reports post (pure result : Parse α) post :=
  reports_pure fun _ hpost => hpost

theorem Reports.bind (hx : Reports pre x mid) (hf : ∀ result, Reports mid (f result) post) :
    Reports pre (x >>= f) post := by
  intro reader horderly hpre
  obtain ⟨hpasses, hsettles⟩ := hx reader horderly hpre
  rcases hrun : x.run.run reader with ⟨error | result, after⟩
  · rw [hrun] at hpasses hsettles
    rw [run_bind_error hrun]
    exact ⟨hpasses, hsettles⟩
  · rw [hrun] at hpasses hsettles
    obtain ⟨hpasses', hsettles'⟩ := hf result after hpasses.orderly hsettles
    rw [run_bind_ok hrun]
    exact ⟨hpasses.trans hpasses', hsettles'⟩

theorem reports_fail (h : ∀ reader, pre reader → error.span = reader.peek?.map (·.span)) :
    Reports pre (fail error : Parse α) post := by
  intro reader horderly hpre
  have hnames : reader.Names error reader.index := ⟨horderly.index, h reader hpre⟩
  have hunit : reader.InUnit (reader.record error) := inUnit_record error
  have hrun : (fail error : Parse α).run.run reader = (.error error, reader.record error) := rfl
  rw [hrun]
  refine ⟨.record horderly hnames, ?_⟩
  rw [Settles, index_record]
  exact ⟨hnames.inUnit hunit, reaches_record reader error⟩

theorem reports_unexpected : Reports pre (unexpected expected : Parse α) post := by
  intro reader horderly _
  have hfail : Reports (· = reader) (fail (reader.mismatch expected) : Parse α) post := by
    refine reports_fail ?_
    rintro _ rfl
    exact span_mismatch _ expected
  exact hfail reader horderly rfl

section Primitives

variable {next : Option Token → Parse β} {kindNext : Option Token.Kind → Parse β}
  {count : Nat → Parse β}

theorem reports_peek_bind
    (h : ∀ found, Reports (fun reader => pre reader ∧ reader.peek? = found) (next found) post) :
    Reports pre (peek >>= next) post := by
  intro reader horderly hpre
  rw [run_bind_ok (run_peek reader)]
  exact h _ reader horderly ⟨hpre, rfl⟩

theorem reports_peekKind_bind
    (h : ∀ found, Reports (fun reader => pre reader ∧ reader.peek?.map (·.kind) = found)
      (kindNext found) post) :
    Reports pre (peekKind >>= kindNext) post := by
  intro reader horderly hpre
  rw [run_bind_ok (run_peekKind reader)]
  exact h _ reader horderly ⟨hpre, rfl⟩

theorem reports_remaining_bind
    (h : ∀ left, Reports (fun reader => pre reader ∧ reader.limit - reader.index = left)
      (count left) post) :
    Reports pre (remaining >>= count) post := by
  intro reader horderly hpre
  rw [run_bind_ok (run_remaining reader)]
  exact h _ reader horderly ⟨hpre, rfl⟩

theorem reports_advance (h : ∀ reader, pre reader → post reader.advance) :
    Reports pre advance post :=
  fun reader horderly hpre => ⟨.advance horderly, h reader hpre⟩

theorem reports_expect (h : ∀ reader, pre reader → reader.peek?.map (·.kind) = some kind →
    reader.Clear) : Reports pre (expect kind) Clear := by
  refine reports_peekKind_bind fun found => ?_
  split
  · next hfound =>
      exact reports_advance fun reader hreader =>
        (h reader hreader.1 (hreader.2.trans hfound)).advance
  · exact reports_unexpected

theorem reports_expect_of_ne (h : kind ≠ stop) :
    Reports (TurnsBackBefore stop) (expect kind) Clear := by
  refine reports_expect fun reader hreader hkind => hreader.mpr fun hstop => h ?_
  exact Option.some.inj (hkind.symm.trans hstop)

theorem reports_nameWhere {admits : String → Bool}
    (h : ∀ reader token, pre reader → reader.peek? = some token → token.kind = .name →
      post reader.advance) : Reports pre (nameWhere admits expected) post := by
  refine reports_peek_bind fun found => ?_
  cases found with
  | none => exact reports_unexpected
  | some token =>
      dsimp only
      split
      · next hadmits =>
          refine Reports.bind (reports_advance fun reader hreader => ?_) fun _ => reports_return
          exact h reader token hreader.1 hreader.2 hadmits.1
      · exact reports_unexpected

end Primitives

theorem Reports.label (h : Reports pre x post) : Reports pre (label expected x) post := by
  intro reader horderly hpre
  obtain ⟨hpasses, hsettles⟩ := h reader horderly hpre
  rcases hrun : x.run.run reader with ⟨error | result, after⟩
  · rw [hrun] at hpasses hsettles
    have hfail : Reports (· = after) (fail { error with expected := [expected] } : Parse α)
        post := by
      refine reports_fail ?_
      rintro _ rfl
      exact hsettles.1.2
    obtain ⟨hpasses', hsettles'⟩ := hfail after hpasses.orderly rfl
    rw [Parse.label, run_tryCatch_error hrun]
    exact ⟨hpasses.trans hpasses', hsettles'⟩
  · rw [hrun] at hpasses hsettles
    rw [Parse.label, run_tryCatch_ok hrun]
    exact ⟨hpasses, hsettles⟩

/-- A parse that can be repeated: it steps on if it succeeds, and if it fails and the reader goes
back it is as `post` says. -/
structure Retries (x : Parse α) (post : Reader → Prop) : Prop where
  reports : Reports Clear x Clear
  moves {reader : Reader} {result : α} {after : Reader} : reader.Orderly → reader.Clear →
    x.run.run reader = (.ok result, after) → reader.index < after.index
  stops {reader : Reader} {error : SyntaxError} {after : Reader} : reader.Orderly → reader.Clear →
    x.run.run reader = (.error error, after) → post (after.moveTo reader.index)

theorem Retries.manyUpTo (h : x.Retries post) (count : Nat) :
    Reports (fun reader => reader.Clear ∧ reader.limit - reader.index < count)
      (manyUpTo x count) post := by
  induction count with
  | zero =>
      rintro reader _ ⟨-, hcount⟩
      exact absurd hcount (Nat.not_lt_zero _)
  | succ count ih =>
      rintro reader horderly ⟨hclear, hcount⟩
      obtain ⟨hpasses, hsettles⟩ := h.reports reader horderly hclear
      rcases cases_manyUpTo x count reader with
        ⟨result, after, hrun, hmany⟩ | ⟨error, after, hrun, hmany⟩
      · rw [hrun] at hpasses hsettles
        have hothers : Reports _ (Parse.manyUpTo x count >>= fun results =>
            pure (result :: results)) post := ih.bind fun _ => reports_return
        have hmoves := h.moves horderly hclear hrun
        have hlimit : after.limit = reader.limit := hpasses.unit.2
        have hindex : after.index ≤ after.limit := hpasses.orderly.index
        obtain ⟨hpasses', hsettles'⟩ := hothers after hpasses.orderly ⟨hsettles, by omega⟩
        rw [hmany]
        exact ⟨hpasses.trans hpasses', hsettles'⟩
      · rw [hrun] at hpasses
        rw [hmany]
        exact ⟨.moveBack horderly hpasses, h.stops horderly hclear hrun⟩

theorem Retries.many (h : x.Retries post) : Reports Clear (many x) post :=
  reports_remaining_bind fun left => (h.manyUpTo (left + 1)).mono
    (fun _ hreader => ⟨hreader.1, Nat.lt_succ_of_le (Nat.le_of_eq hreader.2)⟩) fun _ hpost => hpost

theorem Retries.manyOne (h : x.Retries post) : Reports Clear (manyOne x) post :=
  h.reports.bind fun _ => h.many.bind fun _ => reports_return

theorem cases_nameWhere (admits : String → Bool) (expected : String) (reader : Reader) :
    (∃ token, reader.peek? = some token ∧
      (nameWhere admits expected).run.run reader = (.ok token.text, reader.advance)) ∨
    (nameWhere admits expected).run.run reader =
      (.error (reader.mismatch expected), reader.record (reader.mismatch expected)) := by
  rw [nameWhere, run_bind_ok (run_peek reader)]
  cases reader.peek? with
  | none => exact .inr rfl
  | some token =>
      dsimp only
      split
      · exact .inl ⟨token, rfl, rfl⟩
      · exact .inr rfl

theorem retries_nameWhere (admits : String → Bool) (expected : String) :
    Retries (nameWhere admits expected) Clear where
  reports := reports_nameWhere fun _ _ hclear _ _ => hclear.advance
  moves {reader result after} _ _ hrun := by
    rcases cases_nameWhere admits expected reader with ⟨token, hnext, hname⟩ | hfails
    · obtain ⟨-, rfl⟩ := Prod.mk.inj (hname.symm.trans hrun)
      rw [index_advance hnext]
      exact Nat.lt_succ_self _
    · cases hfails.symm.trans hrun
  stops {reader error after} _ hclear hrun := by
    rcases cases_nameWhere admits expected reader with ⟨token, hnext, hname⟩ | hfails
    · cases hname.symm.trans hrun
    · obtain ⟨-, rfl⟩ := Prod.mk.inj (hfails.symm.trans hrun)
      exact hclear.moveTo_record _

theorem Retries.either (hfirst : Retries first Clear) (hsecond : Retries second post) :
    Retries (either first second) post := by
  have hback {reader after : Reader} {error : SyntaxError} (horderly : reader.Orderly)
      (hclear : reader.Clear) (hrun : first.run.run reader = (.error error, after)) :
      reader.Passes (after.moveTo reader.index) := by
    have hpasses := (hfirst.reports reader horderly hclear).1
    rw [hrun] at hpasses
    exact .moveBack horderly hpasses
  refine ⟨fun reader horderly hclear => ?_, fun {reader result last} horderly hclear hrun => ?_,
    fun {reader error last} horderly hclear hrun => ?_⟩
  · rcases cases_either first second reader with
      ⟨result, after, hresult, hboth⟩ | ⟨error, after, hfails, hboth⟩
    · rw [hboth, ← hresult]
      exact hfirst.reports reader horderly hclear
    · have hpasses := hback horderly hclear hfails
      obtain ⟨hpasses', hsettles⟩ :=
        hsecond.reports _ hpasses.orderly (hfirst.stops horderly hclear hfails)
      rw [hboth]
      exact ⟨hpasses.trans hpasses', hsettles⟩
  · rcases cases_either first second reader with
      ⟨_, after, hresult, hboth⟩ | ⟨_, after, hfails, hboth⟩
    · exact hfirst.moves horderly hclear (hresult.trans (hboth.symm.trans hrun))
    · have hmoves := hsecond.moves (hback horderly hclear hfails).orderly
        (hfirst.stops horderly hclear hfails) (hboth.symm.trans hrun)
      exact hmoves
  · rcases cases_either first second reader with
      ⟨_, after, hresult, hboth⟩ | ⟨_, after, hfails, hboth⟩
    · cases hboth.symm.trans hrun
    · have hstops := hsecond.stops (hback horderly hclear hfails).orderly
        (hfirst.stops horderly hclear hfails) (hboth.symm.trans hrun)
      exact hstops

theorem cases_expect (kind : Token.Kind) (reader : Reader) :
    (∃ token, reader.peek? = some token ∧ token.kind = kind ∧
      (expect kind).run.run reader = (.ok (), reader.advance)) ∨
    ∃ error, reader.peek?.map (·.kind) ≠ some kind ∧
      (expect kind).run.run reader = (.error error, reader.record error) := by
  rw [expect, run_bind_ok (run_peekKind reader)]
  split
  · next hkind =>
      obtain ⟨token, hnext, hkind⟩ := Option.map_eq_some_iff.mp hkind
      exact .inl ⟨token, hnext, hkind, rfl⟩
  · next hkind => exact .inr ⟨_, hkind, rfl⟩

theorem retries_expect_bind {y : Parse α} (hy : Reports Clear y Clear) :
    Retries (expect kind >>= fun _ => y) (TurnsBackBefore kind) := by
  refine ⟨(reports_expect fun _ hclear _ => hclear).bind fun _ => hy,
    fun {reader result last} horderly hclear hrun => ?_,
    fun {reader error last} horderly hclear hrun => ?_⟩
  · rcases cases_expect kind reader with ⟨token, hnext, -, hexpect⟩ | ⟨_, -, hexpect⟩
    · rw [run_bind_ok hexpect] at hrun
      have hpasses := (hy reader.advance (Passes.advance horderly).orderly hclear.advance).1
      rw [hrun] at hpasses
      have hindex := hpasses.index
      rwa [index_advance hnext] at hindex
    · rw [run_bind_error hexpect] at hrun
      cases hrun
  · rcases cases_expect kind reader with ⟨token, hnext, hkind, hexpect⟩ | ⟨_, hkind, hexpect⟩
    · -- The complaint about what follows the token is further on than the token.
      rw [run_bind_ok hexpect] at hrun
      have hadvance := Passes.advance horderly
      obtain ⟨hpasses, hsettles⟩ := hy reader.advance hadvance.orderly hclear.advance
      rw [hrun] at hpasses hsettles
      have hindex := hpasses.index
      rw [index_advance hnext] at hindex
      rw [TurnsBackBefore, peek?_moveTo (hadvance.trans hpasses).unit, hnext, Option.map_some,
        hkind]
      exact iff_of_false (fun hback => hback.not_reaches hindex hsettles.2) (not_not_intro rfl)
    · rw [run_bind_error hexpect] at hrun
      obtain ⟨-, rfl⟩ := Prod.mk.inj hrun
      rw [TurnsBackBefore, peek?_moveTo (inUnit_record _)]
      exact iff_of_true (hclear.moveTo_record _) hkind

end Parse

end Viewlet
