import Viewlet.Token.Scan

namespace Viewlet.Token

/-- The place in the order of preference. -/
def Kind.rank (kind : Kind) : Nat :=
  all.idxOf kind

/-- The characters of the only spelling, or none. -/
def Kind.letters (kind : Kind) : List Char :=
  (kind.spelling?.getD "").toList

/-- Whether the characters have the form of a name. -/
def isIdentifier : List Char → Bool
  | [] => false
  | c :: rest => startsName c && rest.all continuesName

/-- Whether the kind is that of a symbol. -/
def Kind.isSymbol (kind : Kind) : Bool :=
  kind.letters.head?.any fun c => !startsName c

/-- Whether every spelling that goes on with the given one does so with a character that `follow`
does not allow. -/
def Kind.endsBefore (kind : Kind) (follow : Char → Bool) : Bool :=
  all.all fun longer =>
    !kind.letters.isPrefixOf longer.letters ||
      !(longer.letters.drop kind.letters.length).head?.any follow

section Kinds

variable {kind kind' : Kind}

theorem Kind.mem_all (kind : Kind) : kind ∈ all := by
  cases kind <;> decide

theorem Kind.pairwise_rank : all.Pairwise fun first second => first.rank < second.rank := by
  decide +kernel

theorem Kind.rank_le_name (h : isIdentifier kind.letters = true) : kind.rank ≤ name.rank := by
  have hall : all.all fun kind => !isIdentifier kind.letters || kind.rank ≤ name.rank := by
    decide +kernel
  simpa [h] using List.all_eq_true.mp hall kind kind.mem_all

theorem Kind.letters_injective (h : kind.letters ≠ []) (hsame : kind.letters = kind'.letters) :
    kind = kind' := by
  have hall : all.all fun kind => all.all fun kind' =>
      kind.letters = [] || kind.letters ≠ kind'.letters || kind = kind' := by decide +kernel
  have hkind := List.all_eq_true.mp (List.all_eq_true.mp hall kind kind.mem_all) kind' kind'.mem_all
  simpa [← hsame, h] using hkind

theorem Kind.letters_head {c : Char} {rest : List Char} (h : kind.letters = c :: rest) :
    c.isDigit = false ∧ c ≠ '"' ∧ c ≠ '\'' ∧
      (startsName c = true → rest.all continuesName = true) := by
  have hall : all.all fun kind => kind.letters.head?.all fun c =>
      c.isDigit = false ∧ c ≠ '"' ∧ c ≠ '\'' ∧
        (startsName c = true → kind.letters.tail.all continuesName = true) := by decide +kernel
  have hkind := List.all_eq_true.mp hall kind kind.mem_all
  rw [h] at hkind
  exact of_decide_eq_true hkind

theorem Kind.matchLength?_eq_some {text : List Char} (h : kind.letters ≠ []) {n : Nat} :
    kind.matchLength? text = some n ↔ kind.letters <+: text ∧ n = kind.letters.length := by
  have hmatch : kind.matchLength? text =
      if kind.letters.isPrefixOf text then some kind.letters.length else none := by
    cases kind <;> first | rfl | exact absurd rfl h
  rw [hmatch, ← List.isPrefixOf_iff_prefix]
  by_cases hbegins : kind.letters.isPrefixOf text = true
  · simp only [hbegins, if_true, Option.some_inj, true_and, eq_comm]
  · simp only [hbegins, if_false, reduceCtorEq, false_and]

end Kinds

section Furthest

variable {candidates : List (Kind × Nat)} {best : Kind × Nat}

theorem mem_of_furthest (h : furthest candidates = some best) : best ∈ candidates := by
  induction candidates with
  | nil => cases h
  | cons candidate rest ih =>
      rw [furthest] at h
      split at h
      · cases h
        exact List.mem_cons_self
      · next later hlater =>
          split at h
          · cases h
            exact List.mem_cons_of_mem candidate (ih hlater)
          · cases h
            exact List.mem_cons_self

theorem furthest_eq_some
    (hordered : candidates.Pairwise fun first second => first.1.rank < second.1.rank)
    (hmem : best ∈ candidates)
    (hbest : ∀ candidate ∈ candidates,
      candidate.2 < best.2 ∨ candidate.2 = best.2 ∧ best.1.rank ≤ candidate.1.rank) :
    furthest candidates = some best := by
  induction candidates with
  | nil => cases hmem
  | cons candidate rest ih =>
      obtain ⟨hfirst, hordered⟩ := List.pairwise_cons.mp hordered
      obtain ⟨hcandidate, hrest⟩ := List.forall_mem_cons.mp hbest
      rw [furthest]
      rcases List.mem_cons.mp hmem with rfl | hmem
      · split
        · rfl
        · next later hlater =>
            have hle := hrest later (mem_of_furthest hlater)
            rw [if_neg (by omega)]
      · have hrank := hfirst best hmem
        rw [ih hordered hmem hrest]
        exact if_pos (by omega)

end Furthest

section Longest

attribute [local simp] Kind.matchLength? nameLength? floatLength? integerLength? stringLength?
  charLength?

variable {kind : Kind} {text rest : List Char} {n : Nat}

theorem longest?_eq_some (h : kind.matchLength? text = some n)
    (hbest : ∀ (kind' : Kind) (n' : Nat), kind'.matchLength? text = some n' →
      n' < n ∨ n' = n ∧ kind.rank ≤ kind'.rank) :
    longest? text = some (kind, n) := by
  refine furthest_eq_some (Kind.pairwise_rank.filterMap _ ?_)
    (List.mem_filterMap.mpr ⟨kind, kind.mem_all, by rw [h, Option.map_some]⟩) ?_
  · intro first second hrank a ha b hb
    obtain ⟨-, -, rfl⟩ := Option.map_eq_some_iff.mp ha
    obtain ⟨-, -, rfl⟩ := Option.map_eq_some_iff.mp hb
    exact hrank
  · intro candidate hmem
    obtain ⟨kind', -, hcandidate⟩ := List.mem_filterMap.mp hmem
    obtain ⟨n', hmatch, rfl⟩ := Option.map_eq_some_iff.mp hcandidate
    exact hbest kind' n' hmatch

theorem matchLength?_of_longest? (h : longest? text = some (kind, n)) :
    kind.matchLength? text = some n := by
  obtain ⟨found, -, hfound⟩ := List.mem_filterMap.mp (mem_of_furthest h)
  obtain ⟨reach, hreach, heq⟩ := Option.map_eq_some_iff.mp hfound
  obtain ⟨rfl, rfl⟩ := Prod.mk.inj heq
  exact hreach

theorem Kind.letters_ne_nil_of_matchLength? {c : Char}
    (h : kind.matchLength? (c :: rest) = some n) :
    kind.letters ≠ [] ∨ startsName c = true ∧ kind = .name ∨
      c.isDigit = true ∧ (kind = .integer ∨ kind = .float) ∨ c = '"' ∨ c = '\'' := by
  cases kind
  case name =>
    by_cases hname : startsName c = true
    · exact .inr (.inl ⟨hname, rfl⟩)
    · simp [hname] at h
  case float | integer =>
    by_cases hdigit : c.isDigit = true
    · simp [hdigit]
    · simp [digitCount, hdigit] at h
  case string =>
    by_cases hquote : c = '"'
    · simp [hquote]
    · simp [hquote] at h
  case char =>
    by_cases hquote : c = '\''
    · simp [hquote]
    · simp [hquote] at h
  all_goals exact .inl (List.cons_ne_nil _ _)

theorem takeWhile_append {p : Char → Bool} (htext : text.all p = true)
    (hrest : ∀ c ∈ rest.head?, p c = false) : (text ++ rest).takeWhile p = text := by
  rw [List.takeWhile_append_of_pos (List.all_eq_true.mp htext)]
  cases rest with
  | nil => simp
  | cons c rest => simp [hrest c rfl]

theorem startsName_of_isDigit {c : Char} (h : c.isDigit = true) : startsName c = false := by
  obtain ⟨hlow, hhigh⟩ := Char.isDigit_iff_toNat.mp h
  have hall : (List.range 58).all fun n => n < 48 || !startsName (Char.ofNat n) := by decide
  have hc := List.all_eq_true.mp hall c.toNat (List.mem_range.mpr (Nat.lt_succ_of_le hhigh))
  have hnot : ¬c.toNat < 48 := Nat.not_lt.mpr hlow
  simpa [hnot] using hc

theorem ne_nil_of_isIdentifier (h : isIdentifier text = true) : text ≠ [] := by
  rintro rfl
  cases h

section Identifiers

variable (htext : isIdentifier text = true) (hrest : ∀ c ∈ rest.head?, continuesName c = false)
include htext hrest

theorem nameLength?_identifier : nameLength? (text ++ rest) = some text.length := by
  cases text with
  | nil => cases htext
  | cons c tail =>
      obtain ⟨hc, htail⟩ := Bool.and_eq_true_iff.mp htext
      rw [List.cons_append, nameLength?, if_pos hc, takeWhile_append htail hrest, List.length_cons,
        Nat.add_comm]

/-- At an identifier no kind matches further, and only the kind of names and that of a word match
as far. -/
theorem matchLength?_identifier (h : kind.matchLength? (text ++ rest) = some n) :
    n < text.length ∨ n = text.length ∧ (kind = .name ∨ kind.letters = text) := by
  have hlength := nameLength?_identifier htext hrest
  cases text with
  | nil => cases htext
  | cons c tail =>
      obtain ⟨hc, -⟩ := Bool.and_eq_true_iff.mp htext
      rcases Kind.letters_ne_nil_of_matchLength? h with hspelled | ⟨-, rfl⟩ | ⟨hdigit, -⟩ | rfl |
        rfl
      · obtain ⟨hbegins, rfl⟩ := (Kind.matchLength?_eq_some hspelled).mp h
        by_cases hlt : kind.letters.length < (c :: tail).length
        · exact .inl hlt
        · obtain ⟨more, hmore⟩ : c :: tail <+: kind.letters :=
            List.prefix_of_prefix_length_le (List.prefix_append _ rest) hbegins (by omega)
          rw [← hmore, List.prefix_append_right_inj] at hbegins
          have hcontinues := (Kind.letters_head hmore.symm).2.2.2 hc
          -- a longer word would go on with a character of a name, and none follows
          cases more with
          | nil => exact .inr (by simp [← hmore])
          | cons d more =>
              obtain ⟨others, rfl⟩ := hbegins
              have hd := hrest d rfl
              simp [hd] at hcontinues
      · rw [Kind.matchLength?, hlength] at h
        exact .inr ⟨(Option.some.inj h).symm, .inl rfl⟩
      · rw [startsName_of_isDigit hdigit] at hc
        cases hc
      · cases hc
      · cases hc

theorem longest?_name (hfree : ∀ kind : Kind, kind.letters ≠ text) :
    longest? (text ++ rest) = some (.name, text.length) := by
  refine longest?_eq_some (nameLength?_identifier htext hrest) fun kind n h => ?_
  rcases matchLength?_identifier htext hrest h with hlt | ⟨rfl, rfl | hsame⟩
  · exact .inl hlt
  · exact .inr ⟨rfl, Nat.le_refl _⟩
  · exact absurd hsame (hfree kind)

end Identifiers

theorem longest?_word (hword : isIdentifier kind.letters = true)
    (hrest : ∀ c ∈ rest.head?, continuesName c = false) :
    longest? (kind.letters ++ rest) = some (kind, kind.letters.length) := by
  have hne := ne_nil_of_isIdentifier hword
  refine longest?_eq_some
    ((Kind.matchLength?_eq_some hne).mpr ⟨List.prefix_append _ rest, rfl⟩) fun kind' n h => ?_
  rcases matchLength?_identifier hword hrest h with hlt | ⟨rfl, rfl | hsame⟩
  · exact .inl hlt
  · exact .inr ⟨rfl, Kind.rank_le_name hword⟩
  · obtain rfl := Kind.letters_injective hne hsame.symm
    exact .inr ⟨rfl, Nat.le_refl _⟩

theorem longest?_digits (hne : text ≠ []) (htext : text.all Char.isDigit = true)
    (hrest : ∀ c ∈ rest.head?, c.isDigit = false ∧ c ≠ '.') :
    longest? (text ++ rest) = some (.integer, text.length) := by
  have hcount : digitCount (text ++ rest) = text.length := by
    rw [digitCount, takeWhile_append htext fun c hc => (hrest c hc).1]
  have hinteger : Kind.matchLength? .integer (text ++ rest) = some text.length := by
    rw [Kind.matchLength?, integerLength?, hcount, if_neg (by simpa using hne)]
  have hfloat : Kind.matchLength? .float (text ++ rest) = none := by
    rw [Kind.matchLength?, floatLength?, hcount, List.drop_left]
    split
    · exact absurd rfl (hrest _ rfl).2
    · rfl
  refine longest?_eq_some hinteger fun kind n h => ?_
  cases text with
  | nil => exact absurd rfl hne
  | cons c tail =>
      obtain ⟨hc, -⟩ := Bool.and_eq_true_iff.mp htext
      rcases Kind.letters_ne_nil_of_matchLength? h with hspelled | ⟨hname, -⟩ | ⟨-, rfl | rfl⟩ |
        rfl | rfl
      · obtain ⟨⟨others, hbegins⟩, -⟩ := (Kind.matchLength?_eq_some hspelled).mp h
        obtain ⟨d, more, hletters⟩ := List.exists_cons_of_ne_nil hspelled
        rw [hletters] at hbegins
        obtain ⟨rfl, -⟩ := List.cons.inj hbegins
        rw [(Kind.letters_head hletters).1] at hc
        cases hc
      · rw [startsName_of_isDigit hc] at hname
        cases hname
      · rw [hinteger] at h
        exact .inr ⟨(Option.some.inj h).symm, Nat.le_refl _⟩
      · rw [hfloat] at h
        cases h
      · cases hc
      · cases hc

theorem longest?_symbol {follow : Char → Bool} (hsymbol : kind.isSymbol = true)
    (hends : kind.endsBefore follow = true) (hrest : ∀ c ∈ rest.head?, follow c = true) :
    longest? (kind.letters ++ rest) = some (kind, kind.letters.length) := by
  obtain ⟨c, hhead, hc⟩ := (Option.any_eq_true _ _).mp hsymbol
  obtain ⟨tail, hletters⟩ := List.head?_eq_some_iff.mp hhead
  have hne : kind.letters ≠ [] := by simp [hletters]
  refine longest?_eq_some
    ((Kind.matchLength?_eq_some hne).mpr ⟨List.prefix_append _ rest, rfl⟩) fun kind' n h => ?_
  have hspelled : kind'.letters ≠ [] := by
    obtain ⟨hdigit, hdouble, hsingle, -⟩ := Kind.letters_head hletters
    rw [hletters, List.cons_append] at h
    rcases Kind.letters_ne_nil_of_matchLength? h with hspelled | ⟨hname, -⟩ | ⟨hdigit', -⟩ |
      hquote | hquote
    · exact hspelled
    · simp [hname] at hc
    · simp [hdigit] at hdigit'
    · exact absurd hquote hdouble
    · exact absurd hquote hsingle
  obtain ⟨hbegins, rfl⟩ := (Kind.matchLength?_eq_some hspelled).mp h
  by_cases hlt : kind'.letters.length < kind.letters.length
  · exact .inl hlt
  · obtain ⟨more, hmore⟩ : kind.letters <+: kind'.letters :=
      List.prefix_of_prefix_length_le (List.prefix_append _ rest) hbegins (by omega)
    rw [← hmore, List.prefix_append_right_inj] at hbegins
    cases more with
    | nil =>
        rw [List.append_nil] at hmore
        obtain rfl := Kind.letters_injective hne hmore
        exact .inr ⟨rfl, Nat.le_refl _⟩
    | cons d more =>
        obtain ⟨others, rfl⟩ := hbegins
        have hfollow := List.all_eq_true.mp hends kind' kind'.mem_all
        have hgoes : kind.letters.isPrefixOf (kind.letters ++ d :: more) = true :=
          List.isPrefixOf_iff_prefix.mpr (List.prefix_append _ _)
        have hd := hrest d rfl
        simp [← hmore, hgoes, hd] at hfollow

end Longest

end Viewlet.Token
