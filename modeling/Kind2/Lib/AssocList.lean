import Mathlib.Data.List.Basic

/-!
# Association lists with shadowing

An association list used as a stack of scopes: `List.lookup` finds the first binding of a key,
so a binding pushed in front shadows the older ones, and `setFirst` changes the value of that
first binding only. The lemmas say how the two interact and how they distribute over a list
pushed in front of another.
-/

namespace AssocList

variable {κ β : Type} [BEq κ]

/-- Replace the value of the first binding of `k`; a list without `k` is unchanged. -/
def setFirst (k : κ) (b : β) : List (κ × β) → List (κ × β)
  | [] => []
  | (k', b') :: l => if k' == k then (k', b) :: l else (k', b') :: setFirst k b l

variable {k k' : κ} {b : β}

@[simp] theorem map_fst_setFirst (l : List (κ × β)) :
    (setFirst k b l).map Prod.fst = l.map Prod.fst := by
  induction l with
  | nil => rfl
  | cons p l ih =>
    obtain ⟨k', b'⟩ := p
    by_cases h : k' == k <;> simp [setFirst, h, ih]

@[simp] theorem length_setFirst (l : List (κ × β)) : (setFirst k b l).length = l.length := by
  rw [← List.length_map Prod.fst, map_fst_setFirst, List.length_map]

variable [LawfulBEq κ]

theorem lookup_setFirst_self {l : List (κ × β)} (h : (l.lookup k).isSome) :
    (setFirst k b l).lookup k = some b := by
  induction l with
  | nil => simp at h
  | cons p l ih =>
    obtain ⟨k', b'⟩ := p
    by_cases hk : k' = k
    · subst hk
      simp [setFirst]
    · have hk' : (k == k') = false := beq_false_of_ne (Ne.symm hk)
      simp only [List.lookup_cons, hk'] at h
      simp [setFirst, beq_false_of_ne hk, List.lookup_cons, hk', ih h]

theorem lookup_setFirst_of_ne (hne : k' ≠ k) (l : List (κ × β)) :
    (setFirst k b l).lookup k' = l.lookup k' := by
  induction l with
  | nil => rfl
  | cons p l ih =>
    obtain ⟨k'', b'⟩ := p
    by_cases hk : k'' = k
    · subst hk
      simp [setFirst, List.lookup_cons, beq_false_of_ne hne]
    · simp [setFirst, beq_false_of_ne hk, List.lookup_cons, ih]

theorem setFirst_append_of_mem {s : List (κ × β)} (h : k ∈ s.map Prod.fst) (l : List (κ × β)) :
    setFirst k b (s ++ l) = setFirst k b s ++ l := by
  induction s with
  | nil => simp at h
  | cons p s ih =>
    obtain ⟨k', b'⟩ := p
    by_cases hk : k' = k
    · subst hk
      simp [setFirst]
    · have hs : k ∈ s.map Prod.fst := by
        simp only [List.map_cons, List.mem_cons] at h
        exact h.resolve_left (Ne.symm hk)
      simp [setFirst, beq_false_of_ne hk, ih hs]

theorem setFirst_append_of_not_mem {s : List (κ × β)} (h : k ∉ s.map Prod.fst)
    (l : List (κ × β)) : setFirst k b (s ++ l) = s ++ setFirst k b l := by
  induction s with
  | nil => rfl
  | cons p s ih =>
    obtain ⟨k', b'⟩ := p
    simp only [List.map_cons, List.mem_cons, not_or] at h
    simp [setFirst, beq_false_of_ne (Ne.symm h.1), ih h.2]

theorem lookup_append_of_not_mem {s : List (κ × β)} (h : k ∉ s.map Prod.fst)
    (l : List (κ × β)) : (s ++ l).lookup k = l.lookup k := by
  have hs : s.lookup k = none := by
    rw [List.lookup_eq_none_iff]
    intro p hp
    have : p.1 ≠ k := fun he => h (List.mem_map.2 ⟨p, hp, he⟩)
    simpa [bne] using Ne.symm this
  rw [List.lookup_append, hs, Option.none_or]

/-- In a list whose keys are distinct, the binding of a key is its only one. -/
theorem lookup_eq_some_of_mem {l : List (κ × β)} (hnd : (l.map Prod.fst).Nodup)
    (h : (k, b) ∈ l) : l.lookup k = some b := by
  induction l with
  | nil => simp at h
  | cons p l ih =>
    obtain ⟨k', b'⟩ := p
    rw [List.map_cons, List.nodup_cons] at hnd
    rcases List.mem_cons.1 h with hp | hl
    · rw [Prod.mk.injEq] at hp
      obtain ⟨rfl, rfl⟩ := hp
      simp
    · have hne : k ≠ k' := by
        rintro rfl
        exact hnd.1 (List.mem_map.2 ⟨(k, b), hl, rfl⟩)
      simp [List.lookup_cons, beq_false_of_ne hne, ih hnd.2 hl]

end AssocList
