namespace Viewlet

theorem lookup_filter {α β : Type} [BEq α] [LawfulBEq α] (keep : α → Bool) (key : α)
    (entries : List (α × β)) :
    (entries.filter fun entry => keep entry.1).lookup key =
      if keep key then entries.lookup key else none := by
  induction entries with
  | nil => simp
  | cons entry rest ih =>
      obtain ⟨other, value⟩ := entry
      by_cases hother : key = other
      · subst hother
        by_cases hkeep : keep key = true
        · simp [hkeep]
        · simp only [hkeep] at ih ⊢
          simpa [List.filter, hkeep] using ih
      · have hne : (key == other) = false := by simpa using hother
        by_cases hkeep : keep other = true
        · simp [List.lookup_cons, hkeep, hne, ih]
        · simp [List.lookup_cons, hkeep, hne, ih]

theorem lookup_map {α β γ : Type} [BEq α] (f : β → γ) (key : α) (entries : List (α × β)) :
    (entries.map fun entry => (entry.1, f entry.2)).lookup key = (entries.lookup key).map f := by
  induction entries with
  | nil => rfl
  | cons entry rest ih =>
      obtain ⟨other, value⟩ := entry
      cases hother : key == other <;> simp [List.lookup_cons, hother, ih]

theorem lookup_replace {α β : Type} [BEq α] [LawfulBEq α] [DecidableEq α] (key other : α)
    (value : β) (entries : List (α × β)) :
    ((key, value) :: entries.filter fun entry => entry.1 != key).lookup other =
      if other = key then some value else entries.lookup other := by
  by_cases hother : other = key
  · simp [hother]
  · have hne : (other == key) = false := by simpa using hother
    simp only [List.lookup_cons, hne]
    rw [ lookup_filter (fun entry => entry != key)]
    simp [hother]

theorem lookup_zipIdx {α β : Type} (f : α → β) (values : List α) (start index : Nat) :
    ((values.zipIdx start).map fun (value, index) => (index, f value)).lookup index =
      if start ≤ index then values[index - start]?.map f else none := by
  induction values generalizing start with
  | nil => simp
  | cons value rest ih =>
      rw [List.zipIdx_cons, List.map_cons, List.lookup_cons]
      rcases Nat.lt_trichotomy index start with hlt | rfl | hgt
      · have hne : (index == start) = false := by simpa using Nat.ne_of_lt hlt
        simp only [hne]
        rw [ih, if_neg (by omega), if_neg (by omega)]
      · simp
      · have hne : (index == start) = false := by simpa using Nat.ne_of_gt hgt
        have hsub : index - start = index - (start + 1) + 1 := by omega
        simp only [hne]
        rw [ih, if_pos (by omega), if_pos (by omega), hsub, List.getElem?_cons_succ]

theorem mem_of_lookup {α β : Type} [BEq α] [LawfulBEq α] {key : α} {value : β}
    {entries : List (α × β)} (h : entries.lookup key = some value) : (key, value) ∈ entries := by
  obtain ⟨before, after, rfl, -⟩ := List.lookup_eq_some_iff.mp h
  exact List.mem_append_right before List.mem_cons_self

end Viewlet
