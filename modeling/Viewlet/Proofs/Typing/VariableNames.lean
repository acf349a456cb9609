import Viewlet.Proofs.Typing.Kinds

namespace Viewlet

namespace Ty

section Names

variable {c : Char} {m n : Nat}

/-- Whether a character can stand in a name. -/
def inName (c : Char) : Bool :=
  c != ' ' && c != '(' && c != ')'

/-- The number behind a name, which the first of its kind does not have. -/
def ordinal (n : Nat) : List Char :=
  if n = 0 then [] else Nat.toDigits 10 n

theorem isDigit_of_mem_ordinal (h : c ∈ ordinal n) : c.isDigit = true := by
  rw [ordinal] at h
  split at h
  · cases h
  · exact Nat.isDigit_of_mem_toDigits (by decide) (by decide) h

theorem ordinal_inj (h : ordinal m = ordinal n) : m = n := by
  have hvalue (k : Nat) : Nat.ofDigitChars 10 (ordinal k) 0 = k := by
    rw [ordinal]
    split
    · next hk => exact hk.symm
    · exact Nat.ofDigitChars_toDigits (by decide) (by decide)
  rw [← hvalue m, h, hvalue n]

theorem toList_plainName (n : Nat) :
    (plainName n).toList = Char.ofNat ('a'.toNat + n % 26) :: ordinal (n / 26) := by
  rw [plainName, ordinal]
  by_cases h : n < 26
  · simp [h, Nat.div_eq_of_lt h]
  · have hround : n / 26 ≠ 0 := by omega
    simp [h, hround, Nat.repr_eq_ofList_toDigits]

theorem toList_numericName (n : Nat) :
    (numericName n).toList = "number".toList ++ ordinal n := by
  rw [numericName, ordinal]
  by_cases h : n = 0
  · simp [h]
  · simp [h, Nat.repr_eq_ofList_toDigits]

theorem letter_inj (h : Char.ofNat ('a'.toNat + m % 26) = Char.ofNat ('a'.toNat + n % 26)) :
    m % 26 = n % 26 := by
  have hletters : ∀ i < 26, ∀ j < 26,
      Char.ofNat ('a'.toNat + i) = Char.ofNat ('a'.toNat + j) → i = j := by decide
  exact hletters _ (Nat.mod_lt m (by decide)) _ (Nat.mod_lt n (by decide)) h

theorem plainName_inj (h : plainName m = plainName n) : m = n := by
  have hchars := congrArg String.toList h
  rw [toList_plainName, toList_plainName] at hchars
  obtain ⟨hletter, hround⟩ := List.cons.inj hchars
  rw [← Nat.div_add_mod m 26, ← Nat.div_add_mod n 26, letter_inj hletter, ordinal_inj hround]

theorem numericName_inj (h : numericName m = numericName n) : m = n := by
  have hchars := congrArg String.toList h
  rw [toList_numericName, toList_numericName] at hchars
  exact ordinal_inj (List.append_cancel_left hchars)

theorem plainName_ne_numericName (m n : Nat) : plainName m ≠ numericName n := by
  intro h
  have hchars := congrArg String.toList h
  rw [toList_plainName, toList_numericName] at hchars
  have hsecond : 'u' ∈ ordinal (m / 26) := by
    rw [(List.cons.inj hchars).2]
    exact List.mem_cons_self
  cases isDigit_of_mem_ordinal hsecond

/-- The name of a variable of either kind that appears after `n` others of its kind. -/
def nameAt (numeric : Bool) (n : Nat) : String :=
  if numeric then numericName n else plainName n

theorem nameAt_inj {numeric numeric' : Bool} (h : nameAt numeric m = nameAt numeric' n) :
    numeric = numeric' ∧ m = n := by
  cases numeric <;> cases numeric'
  · exact ⟨rfl, plainName_inj h⟩
  · exact absurd h (plainName_ne_numericName m n)
  · exact absurd h.symm (plainName_ne_numericName n m)
  · exact ⟨rfl, numericName_inj h⟩

theorem exists_toList_nameAt (numeric : Bool) (n : Nat) :
    ∃ letter rest, (nameAt numeric n).toList = letter :: rest ∧ letter ≠ 'B' ∧ letter ≠ 'F' ∧
      ∀ c ∈ letter :: rest, inName c = true := by
  have hordinal {k : Nat} : ∀ c ∈ ordinal k, inName c = true := by
    intro c hc
    have hdigit := isDigit_of_mem_ordinal hc
    simp only [inName, Bool.and_eq_true, bne_iff_ne]
    refine ⟨⟨?_, ?_⟩, ?_⟩ <;> rintro rfl <;> cases hdigit
  cases numeric with
  | false =>
      have hletters : ∀ i < 26, Char.ofNat ('a'.toNat + i) ≠ 'B' ∧
          Char.ofNat ('a'.toNat + i) ≠ 'F' ∧ inName (Char.ofNat ('a'.toNat + i)) = true := by decide
      obtain ⟨hB, hF, hletter⟩ := hletters (n % 26) (Nat.mod_lt n (by decide))
      exact ⟨_, _, toList_plainName n, hB, hF, List.forall_mem_cons.mpr ⟨hletter, hordinal⟩⟩
  | true =>
      have hword : ∀ c ∈ "number".toList, inName c = true := List.all_eq_true.mp rfl
      exact ⟨_, _, toList_numericName n, by decide, by decide,
        List.forall_mem_append.mpr ⟨hword, hordinal⟩⟩

end Names

/-- How many variables of a kind have a name. -/
def Naming.count (naming : Naming) (numeric : Bool) : Nat :=
  if numeric then naming.numericCount else naming.plainCount

/-- The names go to one variable each, and are those of the first variables of its kind. -/
structure Naming.Proper (κ : Kinding) (naming : Naming) : Prop where
  counted : ∀ {v name}, naming.assigned.lookup v = some name →
    ∃ n < naming.count (κ v), name = nameAt (κ v) n
  injective : ∀ {v w name}, naming.assigned.lookup v = some name →
    naming.assigned.lookup w = some name → v = w

/-- Variables that have a name keep it. -/
def Naming.Continues (naming later : Naming) : Prop :=
  ∀ v name, naming.assigned.lookup v = some name → later.assigned.lookup v = some name

/-- The outcome is the name of a variable, with a naming that continues the given one. -/
structure Naming.Names (κ : Kinding) (naming : Naming) (v : TyVar) (outcome : String × Naming) :
    Prop where
  proper : outcome.2.Proper κ
  continues : naming.Continues outcome.2
  assigned : outcome.2.assigned.lookup v = some outcome.1

section Naming

variable {κ : Kinding} {naming later : Naming} {v : TyVar} {name : String} {ty : Ty}

theorem Naming.Continues.trans {first second third : Naming} (h : first.Continues second)
    (h' : second.Continues third) : first.Continues third :=
  fun v name hv => h' v name (h v name hv)

theorem Naming.Continues.refl (naming : Naming) : naming.Continues naming :=
  fun _ _ hv => hv

theorem Naming.Proper.names_again (h : naming.Proper κ)
    (hv : naming.assigned.lookup v = some name) : naming.Names κ v (name, naming) :=
  ⟨h, .refl naming, hv⟩

theorem Naming.Proper.names_new {numeric : Bool} (h : naming.Proper κ) (hkind : κ v = numeric)
    (hv : naming.assigned.lookup v = none)
    (hassigned : later.assigned = (v, nameAt numeric (naming.count numeric)) :: naming.assigned)
    (hcount : ∀ other, later.count other =
      naming.count other + if other = numeric then 1 else 0) :
    naming.Names κ v (nameAt numeric (naming.count numeric), later) := by
  subst hkind
  have hlookup (w : TyVar) : later.assigned.lookup w =
      if w = v then some (nameAt (κ v) (naming.count (κ v))) else naming.assigned.lookup w := by
    rw [hassigned, List.lookup_cons]
    by_cases hw : w = v
    · simp [hw]
    · have hbeq : (w == v) = false := by simpa using hw
      simp [hbeq, hw]
  -- The names that there are have smaller numbers.
  have hfresh {w : TyVar} :
      naming.assigned.lookup w ≠ some (nameAt (κ v) (naming.count (κ v))) := by
    intro hw
    obtain ⟨n, hn, heq⟩ := h.counted hw
    obtain ⟨hkind, hnumber⟩ := nameAt_inj heq
    rw [← hkind, ← hnumber] at hn
    exact Nat.lt_irrefl _ hn
  refine ⟨⟨?_, ?_⟩, ?_, ?_⟩
  · intro w name hw
    rw [hlookup] at hw
    split at hw
    · next hwv =>
        obtain rfl := Option.some.inj hw
        rw [hwv, hcount, if_pos rfl]
        exact ⟨_, Nat.lt_succ_self _, rfl⟩
    · obtain ⟨n, hn, heq⟩ := h.counted hw
      rw [hcount]
      exact ⟨n, Nat.lt_add_right _ hn, heq⟩
  · intro w w' name hw hw'
    rw [hlookup] at hw hw'
    split at hw <;> split at hw'
    · next hwv hwv' => rw [hwv, hwv']
    · obtain rfl := Option.some.inj hw
      exact absurd hw' hfresh
    · obtain rfl := Option.some.inj hw'
      exact absurd hw hfresh
    · exact h.injective hw hw'
  · intro w name hw
    rw [hlookup, if_neg fun hwv => ?_]
    · exact hw
    · rw [hwv, hv] at hw
      cases hw
  · rw [hlookup, if_pos rfl]

theorem Naming.Proper.plain (h : naming.Proper κ) (hv : κ v = false) :
    naming.Names κ v (naming.plain v) := by
  rw [Naming.plain]
  split
  · next name hname => exact h.names_again hname
  · next hnone => exact h.names_new hv hnone rfl fun numeric => by cases numeric <;> rfl

theorem Naming.Proper.numeric (h : naming.Proper κ) (hv : κ v = true) :
    naming.Names κ v (naming.numeric v) := by
  rw [Naming.numeric]
  split
  · next name hname => exact h.names_again hname
  · next hnone => exact h.names_new hv hnone rfl fun numeric => by cases numeric <;> rfl

/-- The text of a type under given names of its variables. -/
def textBy (name : TyVar → String) : Ty → List Char
  | .bool => "Bool".toList
  | .float => "Float".toList
  | .var v => (name v).toList
  | .number v => (name v).toList
  | .func parameter result =>
      (if parameter.isFunc then '(' :: (parameter.textBy name ++ [')'])
        else parameter.textBy name) ++ " -> ".toList ++ result.textBy name

/-- The name of a variable in a naming. -/
def Naming.nameOf (naming : Naming) (v : TyVar) : String :=
  (naming.assigned.lookup v).getD ""

theorem Naming.nameOf_eq (h : naming.assigned.lookup v = some name) : naming.nameOf v = name := by
  rw [nameOf, h, Option.getD_some]

/-- The outcome is the text of a type, which is the same under the names of every later naming. -/
structure Naming.Writes (κ : Kinding) (naming : Naming) (ty : Ty) (outcome : String × Naming) :
    Prop where
  proper : outcome.2.Proper κ
  continues : naming.Continues outcome.2
  assigned : ∀ v ∈ ty.vars, ∃ name, outcome.2.assigned.lookup v = some name
  text : ∀ later, outcome.2.Continues later → outcome.1.toList = ty.textBy later.nameOf

theorem Naming.Names.writes {outcome : String × Naming} (h : naming.Names κ v outcome)
    (hvars : ty.vars = [v]) (htext : ∀ name, ty.textBy name = (name v).toList) :
    naming.Writes κ ty outcome where
  proper := h.proper
  continues := h.continues
  assigned w hw := by
    rw [hvars, List.mem_singleton] at hw
    exact ⟨_, hw ▸ h.assigned⟩
  text later hlater := by
    rw [htext, nameOf_eq (hlater _ _ h.assigned)]

theorem writes_renderWith (hty : ty.HasKinds κ) (h : naming.Proper κ) :
    naming.Writes κ ty (ty.renderWith naming) := by
  induction ty generalizing naming with
  | var v => exact (h.plain hty).writes rfl fun _ => rfl
  | number v => exact (h.numeric hty).writes rfl fun _ => rfl
  | bool => exact ⟨h, .refl naming, fun _ hv => absurd hv List.not_mem_nil, fun _ _ => rfl⟩
  | float => exact ⟨h, .refl naming, fun _ hv => absurd hv List.not_mem_nil, fun _ _ => rfl⟩
  | func parameter result ihp ihr =>
      have hparameter := ihp hty.1 h
      have hresult := ihr hty.2 hparameter.proper
      refine ⟨hresult.proper, hparameter.continues.trans hresult.continues, fun v hv => ?_,
        fun later hlater => ?_⟩
      · rcases List.mem_append.mp hv with hv | hv
        · obtain ⟨name, hname⟩ := hparameter.assigned v hv
          exact ⟨name, hresult.continues v name hname⟩
        · exact hresult.assigned v hv
      · have hleft := hparameter.text later (hresult.continues.trans hlater)
        have hright := hresult.text later hlater
        rw [renderWith, textBy, ← hleft, ← hright]
        dsimp only
        rw [String.toList_append, String.toList_append]
        split
        · rw [String.toList_append, String.toList_append]
          rfl
        · rfl

/-- A type is written with a name for each of its variables, which is one of the names of its kind,
and no two variables have the same. -/
theorem exists_names (hty : ty.HasKinds κ) :
    ∃ name : TyVar → String, ty.render.toList = ty.textBy name ∧
      (∀ v ∈ ty.vars, ∃ n, name v = nameAt (κ v) n) ∧
      ∀ v ∈ ty.vars, ∀ w ∈ ty.vars, name v = name w → v = w := by
  have hstart : Naming.Proper κ {} := ⟨fun h => by simp at h, fun h _ => by simp at h⟩
  have hwrites := writes_renderWith hty hstart
  refine ⟨_, hwrites.text _ (.refl _), fun v hv => ?_, fun v hv w hw heq => ?_⟩
  · obtain ⟨name, hname⟩ := hwrites.assigned v hv
    obtain ⟨n, -, hn⟩ := hwrites.proper.counted hname
    exact ⟨n, (Naming.nameOf_eq hname).trans hn⟩
  · obtain ⟨name, hname⟩ := hwrites.assigned v hv
    obtain ⟨name', hname'⟩ := hwrites.assigned w hw
    rw [Naming.nameOf_eq hname, Naming.nameOf_eq hname'] at heq
    exact hwrites.proper.injective hname (heq ▸ hname')

end Naming

end Ty

end Viewlet
