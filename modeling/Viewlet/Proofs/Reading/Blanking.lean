import Viewlet.Proofs.Reading.BlankedText

/-!
Which characters blanking changes. A text is gone through in turns of one or two characters, and
each turn leads from a context to another. The characters of comments become spaces, all others and
the newlines stay, and at every position of the blanked text the context is the one of the text,
except that comments are gone.
-/

namespace Viewlet

namespace Comment

/-- The context at the end of a text that begins in the given context. -/
def contextAfter : Context → List Char → Context
  | context, [] => context
  | .blockComment depth, '{' :: '-' :: rest => contextAfter (.blockComment (depth + 1)) rest
  | .blockComment 0, '-' :: '}' :: rest => contextAfter .code rest
  | .blockComment (depth + 1), '-' :: '}' :: rest => contextAfter (.blockComment depth) rest
  | .blockComment depth, _ :: rest => contextAfter (.blockComment depth) rest
  | .lineComment, c :: rest => contextAfter (if c = '\n' then .code else .lineComment) rest
  | .string, '\\' :: _ :: rest => contextAfter .string rest
  | .string, c :: rest => contextAfter (if c = '"' ∨ c = '\n' then .code else .string) rest
  | .code, '"' :: rest => contextAfter .string rest
  | .code, '{' :: '-' :: rest => contextAfter (.blockComment 0) rest
  | .code, '-' :: '-' :: rest => contextAfter .lineComment rest
  | .code, _ :: rest => contextAfter .code rest

/-- Whether the context is a comment. -/
def Context.isComment : Context → Bool
  | .lineComment | .blockComment _ => true
  | .code | .string => false

/-- Whether the character at a position belongs to a comment. The marks of a comment have two
characters, so that a comment can be open in front of the character or up to two further on. -/
def inComment (context : Context) (text : List Char) (i : Nat) : Bool :=
  (contextAfter context (text.take i)).isComment ||
    (contextAfter context (text.take (i + 1))).isComment ||
    (contextAfter context (text.take (i + 2))).isComment

section Scan

variable {context context' : Context} {text rest : List Char} {c : Char}

theorem contextAfter_cons (hquote : c ≠ '"')
    (hopen : c = '{' ∨ c = '-' → rest.head? ≠ some '-') :
    contextAfter .code (c :: rest) = contextAfter .code rest := by
  rw [contextAfter]
  · exact hquote
  · rintro others rfl rfl
    exact hopen (.inl rfl) rfl
  · rintro others rfl rfl
    exact hopen (.inr rfl) rfl

theorem contextAfter_space (text : List Char) :
    contextAfter .code (' ' :: text) = contextAfter .code text :=
  contextAfter_cons (by decide) (by simp)

theorem contextAfter_newline (text : List Char) :
    contextAfter .code ('\n' :: text) = contextAfter .code text :=
  contextAfter_cons (by decide) (by simp)

end Scan

/-- What is taken in one turn, what becomes of it, and the context behind it. -/
inductive Turn : Context → List Char → List Char → Context → Prop where
  /-- A character outside of comments. -/
  | kept {context context' : Context} {c : Char} : context.isComment = false →
      context'.isComment = false → Turn context [c] [c] context'
  /-- A character inside of a comment. -/
  | blanked {context context' : Context} {c : Char} : context.isComment = true →
      context'.blanked = .code → Turn context [c] [if c = '\n' then '\n' else ' '] context'
  /-- A mark that opens or closes a comment. -/
  | mark {context context' : Context} {first second : Char} : first ≠ '\n' → second ≠ '\n' →
      context.blanked = .code → context'.blanked = .code →
      (context.isComment || context'.isComment) = true → contextAfter context [first] = context →
      Turn context [first, second] [' ', ' '] context'
  /-- A backslash in a string with the character that it shields. -/
  | shield {c : Char} : Turn .string ['\\', c] ['\\', c] .string

/-- A turn at the front of a text. It leads to the same context however much of the rest follows,
and so does what it leaves when the blanked text is gone through again. -/
structure Step (context : Context) (part blanks : List Char) (context' : Context)
    (rest : List Char) : Prop where
  turn : Turn context part blanks context'
  blank : blankFrom context (part ++ rest) = blanks ++ blankFrom context' rest
  leads : ∀ n, contextAfter context (part ++ rest.take n) = contextAfter context' (rest.take n)
  again : ∀ n, contextAfter context.blanked (blanks ++ (blankFrom context' rest).take n) =
    contextAfter context'.blanked ((blankFrom context' rest).take n)

section Steps

variable {context context' : Context} {text rest : List Char} {c : Char}

theorem Context.blanked_eq_code (h : context.isComment = true) : context.blanked = .code := by
  cases context with
  | code | string => cases h
  | lineComment | blockComment => rfl

theorem Context.isComment_blanked (context : Context) : context.blanked.isComment = false := by
  cases context <;> rfl

theorem take_eq_cons {n : Nat} {others : List Char} (h : text.take n = c :: others) :
    ∃ tail, text = c :: tail := by
  obtain ⟨tail, htail⟩ := List.take_prefix n text
  rw [h] at htail
  exact ⟨_, htail.symm⟩

theorem Step.of_blanked (hcomment : context.isComment = true) (hcode : context'.blanked = .code)
    (hblank : blankFrom context (c :: rest) =
      (if c = '\n' then '\n' else ' ') :: blankFrom context' rest)
    (hleads : ∀ n, contextAfter context (c :: rest.take n) = contextAfter context' (rest.take n)) :
    Step context [c] [if c = '\n' then '\n' else ' '] context' rest where
  turn := .blanked hcomment hcode
  blank := hblank
  leads := hleads
  again n := by
    rw [Context.blanked_eq_code hcomment, hcode]
    split
    · exact contextAfter_newline _
    · exact contextAfter_space _

theorem Step.of_mark {first second : Char} (hfirst : first ≠ '\n') (hsecond : second ≠ '\n')
    (hcode : context.blanked = .code) (hcode' : context'.blanked = .code)
    (hcomment : (context.isComment || context'.isComment) = true)
    (hhalf : contextAfter context [first] = context)
    (hblank : blankFrom context (first :: second :: rest) = ' ' :: ' ' :: blankFrom context' rest)
    (hleads : ∀ rest, contextAfter context (first :: second :: rest) = contextAfter context' rest) :
    Step context [first, second] [' ', ' '] context' rest where
  turn := .mark hfirst hsecond hcode hcode' hcomment hhalf
  blank := hblank
  leads n := hleads _
  again n := by
    rw [hcode, hcode']
    exact (contextAfter_space _).trans (contextAfter_space _)

theorem Step.of_code (hquote : c ≠ '"') (hopen : c = '{' ∨ c = '-' → rest.head? ≠ some '-') :
    Step .code [c] [c] .code rest where
  turn := .kept rfl rfl
  blank := blankFrom_cons hquote hopen
  leads n := by
    rw [List.singleton_append]
    refine contextAfter_cons hquote fun hc hhead => hopen hc ?_
    rw [List.head?_take, Option.ite_none_left_eq_some] at hhead
    exact hhead.2
  again n := by
    rw [List.singleton_append]
    refine contextAfter_cons hquote fun hc hhead => hopen hc ?_
    rw [List.head?_take, Option.ite_none_left_eq_some] at hhead
    exact head?_of_blankFrom hhead.2

theorem Step.of_string (hshield : c = '\\' → rest = []) :
    Step .string [c] [c] (if c = '"' ∨ c = '\n' then .code else .string) rest where
  turn := .kept rfl (by split <;> rfl)
  blank := by
    rw [List.singleton_append, blankFrom]
    · rfl
    · rintro d others hc rfl
      cases hshield hc
  leads n := by
    rw [List.singleton_append, contextAfter]
    rintro d others hc hrest
    rw [hshield hc, List.take_nil] at hrest
    cases hrest
  again n := by
    have hsame : (if c = '"' ∨ c = '\n' then Context.code else Context.string).blanked =
        if c = '"' ∨ c = '\n' then Context.code else Context.string := by split <;> rfl
    rw [List.singleton_append, Context.blanked, contextAfter, hsame]
    rintro d others hc hrest
    rw [hshield hc, blankFrom, List.take_nil] at hrest
    cases hrest

theorem Step.of_shield (c : Char) (rest : List Char) :
    Step .string ['\\', c] ['\\', c] .string rest where
  turn := .shield
  blank := by simp [blankFrom]
  leads n := by simp [contextAfter]
  again n := by simp [contextAfter, Context.blanked]

theorem Step.of_quote (rest : List Char) : Step .code ['"'] ['"'] .string rest where
  turn := .kept rfl rfl
  blank := by simp [blankFrom]
  leads n := by simp [contextAfter]
  again n := by simp [contextAfter, Context.blanked]

@[elab_as_elim] theorem step_induction {motive : Context → List Char → Prop}
    (nil : ∀ context, motive context [])
    (step : ∀ {context part blanks context' rest}, Step context part blanks context' rest →
      motive context' rest → motive context (part ++ rest))
    (context : Context) (text : List Char) : motive context text := by
  fun_induction blankFrom context text with
  | case1 context => exact nil context
  | case2 _ rest ih | case4 _ rest ih =>
      exact step (.of_mark (by decide) (by decide) rfl rfl rfl (by simp [contextAfter])
        (by rw [blankFrom]) fun rest => by rw [contextAfter]) ih
  | case3 rest ih | case11 rest ih | case12 rest ih =>
      exact step (.of_mark (by decide) (by decide) rfl rfl rfl (by simp [contextAfter])
        (by rw [blankFrom]) fun rest => by rw [contextAfter]) ih
  | case5 depth c rest hopen hclose hclose' ih =>
      refine step (Step.of_blanked rfl rfl (c := c) ?_ fun n => ?_) ih
      · rw [blankFrom]
        · exact hopen
        · exact hclose
        · exact hclose'
      · rw [contextAfter]
        · intro others hc hrest
          obtain ⟨tail, htail⟩ := take_eq_cons hrest
          exact hopen tail hc htail
        · intro others hdepth hc hrest
          obtain ⟨tail, htail⟩ := take_eq_cons hrest
          exact hclose tail hdepth hc htail
        · intro inner others hdepth hc hrest
          obtain ⟨tail, htail⟩ := take_eq_cons hrest
          exact hclose' inner tail hdepth hc htail
  | case6 rest ih =>
      exact step (Step.of_blanked rfl rfl (c := '\n') (by simp [blankFrom])
        fun n => by simp [contextAfter]) ih
  | case7 c rest hnewline ih =>
      exact step (Step.of_blanked rfl rfl (c := c) (by simp [blankFrom, hnewline])
        fun n => by simp [contextAfter, hnewline]) ih
  | case8 c rest ih => exact step (.of_shield c rest) ih
  | case9 c rest hescape ih =>
      refine step (Step.of_string (c := c) fun hc => ?_) ih
      cases rest with
      | nil => rfl
      | cons d others => exact absurd rfl (hescape d others hc)
  | case10 rest ih => exact step (.of_quote rest) ih
  | case13 c rest hquote hbrace hdash ih =>
      refine step (Step.of_code hquote fun hc hhead => ?_) ih
      obtain ⟨others, hrest⟩ := List.head?_eq_some_iff.mp hhead
      exact hc.elim (fun hc => hbrace others hc hrest) fun hc => hdash others hc hrest

end Steps

section Positions

variable {context context' : Context} {part blanks rest : List Char} {n : Nat}

theorem Turn.length_eq (h : Turn context part blanks context') : blanks.length = part.length := by
  cases h <;> rfl

theorem Turn.length_cases (h : Turn context part blanks context') :
    part.length = 1 ∨ part.length = 2 := by
  cases h <;> simp

theorem Turn.contextAfter_take (h : Turn context part blanks context') (hn : n < part.length) :
    contextAfter context (part.take n) = context ∧
      contextAfter context.blanked (blanks.take n) = context.blanked := by
  rcases n with _ | n
  · simp [contextAfter]
  · cases h with
    | kept | blanked => simp at hn
    | mark hfirst hsecond hcode hcode' hcomment hhalf =>
        obtain rfl : n = 0 := Nat.lt_one_iff.mp (Nat.lt_of_succ_lt_succ hn)
        rw [hcode]
        exact ⟨hhalf, contextAfter_space []⟩
    | shield =>
        obtain rfl : n = 0 := Nat.lt_one_iff.mp (Nat.lt_of_succ_lt_succ hn)
        exact ⟨rfl, rfl⟩

theorem Step.contextAfter_take (h : Step context part blanks context' rest) (n : Nat) :
    contextAfter context ((part ++ rest).take (n + part.length)) =
      contextAfter context' (rest.take n) := by
  rw [Nat.add_comm, List.take_length_add_append, h.leads]

/-- At every position the blanked text has the context of the text, except that comments are
gone. -/
theorem contextAfter_take_blankFrom (context : Context) (text : List Char) (n : Nat) :
    contextAfter context.blanked ((blankFrom context text).take n) =
      (contextAfter context (text.take n)).blanked := by
  induction context, text using step_induction generalizing n with
  | nil context => rw [blankFrom, List.take_nil, contextAfter, contextAfter]
  | @step context part blanks context' rest hstep ih =>
      have hlength := hstep.turn.length_eq
      rw [hstep.blank]
      by_cases hn : part.length ≤ n
      · obtain ⟨n, rfl⟩ := Nat.exists_eq_add_of_le' hn
        rw [hstep.contextAfter_take, ← ih n, ← hstep.again, ← hlength, Nat.add_comm,
          List.take_length_add_append]
      · have hinside := hstep.turn.contextAfter_take (Nat.lt_of_not_le hn)
        rw [List.take_append_of_le_length (by omega), List.take_append_of_le_length (by omega),
          hinside.1, hinside.2]

theorem isComment_of_take_one
    (h : (contextAfter context (rest.take 1)).isComment = true) : context.isComment = true := by
  cases context with
  | lineComment | blockComment => rfl
  | code =>
      cases rest with
      | nil => exact h
      | cons c rest =>
          by_cases hquote : c = '"'
          · rw [hquote] at h
            exact h
          · rw [List.take_succ_cons, List.take_zero, contextAfter_cons hquote (by simp)] at h
            exact h
  | string =>
      cases rest with
      | nil => exact h
      | cons c rest =>
          rw [List.take_succ_cons, List.take_zero, contextAfter, contextAfter] at h
          · split at h <;> cases h
          · intro d others _ hnil
            cases hnil

theorem Step.inComment_add (h : Step context part blanks context' rest) (i : Nat) :
    inComment context (part ++ rest) (i + part.length) = inComment context' rest i := by
  rw [inComment, inComment, h.contextAfter_take, Nat.add_right_comm,
    h.contextAfter_take, Nat.add_right_comm, h.contextAfter_take]

theorem Step.inComment_inside {i : Nat} (h : Step context part blanks context' rest)
    (hi : i < part.length) :
    inComment context (part ++ rest) i = (context.isComment || context'.isComment) := by
  have hinside : ∀ j < part.length, contextAfter context ((part ++ rest).take j) = context := by
    intro j hj
    rw [List.take_append_of_le_length (Nat.le_of_lt hj)]
    exact (h.turn.contextAfter_take hj).1
  have hbehind : contextAfter context ((part ++ rest).take part.length) = context' := by
    have hzero := h.contextAfter_take 0
    rwa [Nat.zero_add, List.take_zero, contextAfter] at hzero
  have hfurther := h.contextAfter_take 1
  have hopens := @isComment_of_take_one context' rest
  rw [inComment, hinside i hi]
  rcases h.turn.length_cases with hlength | hlength
  · obtain rfl : i = 0 := by omega
    rw [hlength] at hbehind hfurther
    rw [hbehind, hfurther]
    grind
  · rcases i with _ | _ | i
    · rw [hlength] at hbehind
      rw [hinside 1 (by omega), hbehind]
      grind
    · rw [hlength] at hbehind hfurther
      rw [hbehind, hfurther]
      grind
    · omega

theorem Turn.blanks_eq (h : Turn context part blanks context') :
    blanks = part.map fun c =>
      if (context.isComment || context'.isComment) = true ∧ c ≠ '\n' then ' ' else c := by
  cases h with
  | kept hcontext hcontext' => simp [hcontext, hcontext']
  | @blanked _ _ c hcomment hcode => by_cases hc : c = '\n' <;> simp [hcomment, hc]
  | mark hfirst hsecond hcode hcode' hcomment hhalf => simp [hcomment, hfirst, hsecond]
  | shield => rfl

theorem Step.blanks_eq (h : Step context part blanks context' rest) :
    blanks = part.mapIdx fun i c =>
      if inComment context (part ++ rest) i = true ∧ c ≠ '\n' then ' ' else c := by
  refine h.turn.blanks_eq.trans (List.ext_getElem (by simp) fun i hi hi' => ?_)
  rw [List.length_map] at hi
  rw [List.getElem_map, List.getElem_mapIdx, h.inComment_inside hi]

theorem blankFrom_eq_mapIdx (context : Context) (text : List Char) :
    blankFrom context text = text.mapIdx fun i c =>
      if inComment context text i = true ∧ c ≠ '\n' then ' ' else c := by
  induction context, text using step_induction with
  | nil context =>
      rw [blankFrom]
      rfl
  | @step context part blanks context' rest hstep ih =>
      rw [hstep.blank, List.mapIdx_append, ← hstep.blanks_eq, ih]
      simp only [hstep.inComment_add]

theorem length_blankFrom (context : Context) (text : List Char) :
    (blankFrom context text).length = text.length := by
  rw [blankFrom_eq_mapIdx, List.length_mapIdx]

theorem contextAfter_blankFrom (context : Context) (text : List Char) :
    contextAfter context.blanked (blankFrom context text) =
      (contextAfter context text).blanked := by
  have hwhole := contextAfter_take_blankFrom context text text.length
  rwa [List.take_length, ← length_blankFrom context text, List.take_length] at hwhole

/-- No character of a blanked text belongs to a comment. -/
theorem inComment_blankFrom (context : Context) (text : List Char) (i : Nat) :
    inComment context.blanked (blankFrom context text) i = false := by
  simp only [inComment, contextAfter_take_blankFrom, Context.isComment_blanked, Bool.or_self]

/-- Blanking the comments a second time changes nothing. -/
theorem blankFrom_blankFrom (context : Context) (text : List Char) :
    blankFrom context.blanked (blankFrom context text) = blankFrom context text := by
  rw [blankFrom_eq_mapIdx context.blanked]
  refine List.ext_getElem List.length_mapIdx fun i hi hi' => ?_
  rw [List.getElem_mapIdx, inComment_blankFrom, if_neg fun h => Bool.false_ne_true h.1]

end Positions

theorem toList_blank (text : String) : (blank text).toList = blankFrom .code text.toList :=
  String.toList_ofList

theorem blank_blank (text : String) : blank (blank text) = blank text :=
  congrArg String.ofList ((congrArg (blankFrom .code) (toList_blank text)).trans
    (blankFrom_blankFrom .code text.toList))

/-- Blanking keeps the number of characters and the places of newlines, and leaves each character or
puts a space in its place. Blanking a second time changes nothing. What it replaces is what belongs
to a comment, and at every position of the result a string is open where one is open in the text,
and no comment. -/
theorem blank_only_blanks (text : String) :
    (blank text).length = text.length ∧
    (∀ i : Nat, (blank text).toList[i]? = some '\n' ↔ text.toList[i]? = some '\n') ∧
    (∀ i : Nat, (blank text).toList[i]? = text.toList[i]? ∨ (blank text).toList[i]? = some ' ') ∧
    blank (blank text) = blank text ∧
    (blank text).toList = (text.toList.mapIdx fun i c =>
      if inComment .code text.toList i = true ∧ c ≠ '\n' then ' ' else c) ∧
    ∀ n, contextAfter .code ((blank text).toList.take n) =
      (contextAfter .code (text.toList.take n)).blanked := by
  have hchars := (toList_blank text).trans (blankFrom_eq_mapIdx .code text.toList)
  refine ⟨?_, fun i => ?_, fun i => ?_, blank_blank text, hchars, fun n => ?_⟩
  · rw [← String.length_toList, hchars, List.length_mapIdx, String.length_toList]
  · rw [hchars, List.getElem?_mapIdx]
    cases text.toList[i]? with
    | none => simp
    | some c => by_cases hc : c = '\n' <;> grind
  · rw [hchars, List.getElem?_mapIdx]
    cases text.toList[i]? with
    | none => exact .inl rfl
    | some c => grind
  · rw [toList_blank]
    exact contextAfter_take_blankFrom .code text.toList n

end Comment

end Viewlet
