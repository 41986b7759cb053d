import Mathlib

/-!
# Sparse linear forms as sorted lists of summands

A linear form `Σ cᵢ·kᵢ` over a commutative ring `R` and a linearly ordered type of keys `κ` is
the list of its summands `(cᵢ, kᵢ)`; it is `Sorted` when the keys strictly increase, so that each
key occurs at most once. `eval val p` is the value of the form when each key `k` stands for
`val k`. `add` is the merge of two sorted forms that adds the coefficients of equal keys and drops
the summands that cancel, `coeff k` reads the coefficient of `k` (its first summand), `dropKey k`
removes the summands of `k`, and `ZeroAt k` says that every summand of `k` has coefficient zero.

The lemmas are what a client needs to reason about substitution in such forms: how `eval` reads
`add`, scaled, negated and filtered forms; that a sorted form is its `k`-summand plus the rest
(`eval_eq_coeff_add_dropKey`), so that changing the value of one key changes the value of the form
by the coefficient times the change (`eval_update_of_sorted`); and that `add` keeps forms sorted
and keeps the keys with zero coefficients.
-/

namespace LinearForm

variable {R κ : Type}

section Eval

variable [CommRing R]

/-- The value of a form when each key `k` stands for `val k`. -/
def eval (val : κ → R) (p : List (R × κ)) : R := (p.map fun s => s.1 * val s.2).sum

@[simp] theorem eval_nil (val : κ → R) : eval val [] = 0 := rfl

@[simp] theorem eval_cons (val : κ → R) (s : R × κ) (p : List (R × κ)) :
    eval val (s :: p) = s.1 * val s.2 + eval val p := List.sum_cons

/-- Multiplying every coefficient by `a` multiplies the value by `a`. -/
theorem eval_map_mul (val : κ → R) (a : R) (p : List (R × κ)) :
    eval val (p.map fun s => (s.1 * a, s.2)) = eval val p * a := by
  induction p with
  | nil => simp
  | cons s p ih =>
    rw [List.map_cons, eval_cons, eval_cons, ih]
    ring

theorem eval_map_neg (val : κ → R) (p : List (R × κ)) :
    eval val (p.map fun s => (-s.1, s.2)) = -eval val p := by
  induction p with
  | nil => simp
  | cons s p ih =>
    rw [List.map_cons, eval_cons, eval_cons, ih]
    ring

/-- The summands of `k` have coefficient zero. -/
def ZeroAt (k : κ) (p : List (R × κ)) : Prop := ∀ s ∈ p, s.2 = k → s.1 = 0

/-- A form whose `k`-summands vanish has the same value under two valuations that differ at `k`
only. -/
theorem eval_congr_of_zeroAt {k : κ} {val val' : κ → R} (hv : ∀ k', k' ≠ k → val' k' = val k') :
    ∀ {p : List (R × κ)}, ZeroAt k p → eval val' p = eval val p
  | [], _ => rfl
  | s :: p, hz => by
    have ih := eval_congr_of_zeroAt hv (p := p) fun t ht => hz t (List.mem_cons_of_mem _ ht)
    rw [eval_cons, eval_cons, ih]
    by_cases hk : s.2 = k
    · rw [hz s (List.mem_cons_self ..) hk, zero_mul, zero_mul]
    · rw [hv _ hk]

theorem ZeroAt.map_mul {k : κ} {p : List (R × κ)} (h : ZeroAt k p) (a : R) :
    ZeroAt k (p.map fun s => (s.1 * a, s.2)) := by
  intro s hs hk
  obtain ⟨t, ht, rfl⟩ := List.mem_map.1 hs
  simp [h t ht hk]

theorem ZeroAt.map_neg {k : κ} {p : List (R × κ)} (h : ZeroAt k p) :
    ZeroAt k (p.map fun s => (-s.1, s.2)) := by
  intro s hs hk
  obtain ⟨t, ht, rfl⟩ := List.mem_map.1 hs
  simp [h t ht hk]

theorem ZeroAt.filter {k : κ} {p : List (R × κ)} (h : ZeroAt k p) (f : R × κ → Bool) :
    ZeroAt k (p.filter f) :=
  fun s hs => h s (List.mem_of_mem_filter hs)

theorem zeroAt_of_ne {k : κ} {p : List (R × κ)} (h : ∀ s ∈ p, s.2 ≠ k) : ZeroAt k p :=
  fun s hs hk => absurd hk (h s hs)

/-- The summands whose key satisfies `P` have non-zero coefficients. -/
def NonzeroOn (P : κ → Prop) (p : List (R × κ)) : Prop := ∀ s ∈ p, P s.2 → s.1 ≠ 0

theorem NonzeroOn.map_coeff {P : κ → Prop} {p : List (R × κ)} (h : NonzeroOn P p) {f : R → R}
    (hf : ∀ c, c ≠ 0 → f c ≠ 0) : NonzeroOn P (p.map fun s => (f s.1, s.2)) := by
  intro s hs hP
  obtain ⟨t, ht, rfl⟩ := List.mem_map.1 hs
  exact hf _ (h t ht hP)

end Eval

section Keys

variable [DecidableEq κ]

/-- The form without its summands of `k`. -/
def dropKey (k : κ) (p : List (R × κ)) : List (R × κ) := p.filter fun s => !decide (s.2 = k)

theorem not_mem_dropKey {k : κ} {p : List (R × κ)} : ∀ s ∈ dropKey k p, s.2 ≠ k := by
  intro s hs
  simpa [dropKey] using (List.mem_filter.1 hs).2

theorem dropKey_cons (k : κ) (s : R × κ) (p : List (R × κ)) :
    dropKey k (s :: p) = if s.2 = k then dropKey k p else s :: dropKey k p := by
  by_cases h : s.2 = k <;> simp [dropKey, h]

theorem dropKey_of_forall_ne {k : κ} {p : List (R × κ)} (h : ∀ s ∈ p, s.2 ≠ k) :
    dropKey k p = p :=
  List.filter_eq_self.2 fun s hs => by simpa using h s hs

variable [CommRing R]

/-- The coefficient of `k`: that of its first summand, zero if it has none. -/
def coeff (k : κ) (p : List (R × κ)) : R :=
  match p.find? fun s => decide (s.2 = k) with
  | some s => s.1
  | none => 0

@[simp] theorem coeff_nil (k : κ) : coeff k ([] : List (R × κ)) = 0 := rfl

theorem coeff_cons (k : κ) (s : R × κ) (p : List (R × κ)) :
    coeff k (s :: p) = if s.2 = k then s.1 else coeff k p := by
  by_cases h : s.2 = k <;> simp [coeff, h]

theorem zeroAt_dropKey (k : κ) (p : List (R × κ)) : ZeroAt k (dropKey k p) :=
  zeroAt_of_ne not_mem_dropKey

theorem ZeroAt.dropKey {k : κ} {p : List (R × κ)} (h : ZeroAt k p) (k' : κ) :
    ZeroAt k (LinearForm.dropKey k' p) :=
  h.filter _

/-- A key whose summands vanish has coefficient zero. -/
theorem ZeroAt.coeff_eq_zero {k : κ} {p : List (R × κ)} (h : ZeroAt k p) : coeff k p = 0 := by
  unfold coeff
  split
  · rename_i s hs
    exact h s (List.mem_of_find?_eq_some hs) (by simpa using List.find?_some hs)
  · rfl

theorem coeff_map_mul (k : κ) (a : R) (p : List (R × κ)) :
    coeff k (p.map fun s => (s.1 * a, s.2)) = coeff k p * a := by
  induction p with
  | nil => simp
  | cons s p ih =>
    rw [List.map_cons, coeff_cons, coeff_cons, ih]
    split_ifs <;> simp

end Keys

section Order

variable [LinearOrder κ]

/-- The keys strictly increase. -/
def Sorted (p : List (R × κ)) : Prop := p.Pairwise fun a b => a.2 < b.2

theorem Sorted.map_coeff {p : List (R × κ)} (h : Sorted p) (f : R → R) :
    Sorted (p.map fun s => (f s.1, s.2)) :=
  List.pairwise_map.2 h

theorem Sorted.filter {p : List (R × κ)} (h : Sorted p) (f : R × κ → Bool) :
    Sorted (p.filter f) :=
  List.Pairwise.filter f h

theorem sorted_singleton (s : R × κ) : Sorted [s] := List.pairwise_singleton _ _

theorem Sorted.dropKey [DecidableEq κ] {p : List (R × κ)} (h : Sorted p) (k : κ) :
    Sorted (dropKey k p) :=
  h.filter _

variable [CommRing R]

/-- A sorted form is its summand of `k` plus the rest. -/
theorem eval_eq_coeff_add_dropKey (val : κ → R) (k : κ) :
    ∀ {p : List (R × κ)}, Sorted p → eval val p = coeff k p * val k + eval val (dropKey k p)
  | [], _ => by simp [dropKey]
  | s :: p, hs => by
    have ih := eval_eq_coeff_add_dropKey val k (List.Pairwise.of_cons hs)
    rw [eval_cons, coeff_cons, dropKey_cons]
    by_cases hk : s.2 = k
    · -- the later keys are above `k`, so the head is the only summand of `k`
      have hne : ∀ t ∈ p, t.2 ≠ k := fun t ht => hk ▸ ne_of_gt (List.rel_of_pairwise_cons hs ht)
      rw [if_pos hk, if_pos hk, dropKey_of_forall_ne hne, hk]
    · rw [if_neg hk, if_neg hk, eval_cons, ih]
      ring

/-- Changing the value of one key changes the value of a sorted form by its coefficient times the
change. -/
theorem eval_update_of_sorted {k : κ} {val val' : κ → R} (hv : ∀ k', k' ≠ k → val' k' = val k')
    {p : List (R × κ)} (hs : Sorted p) :
    eval val' p = eval val p + coeff k p * (val' k - val k) := by
  rw [eval_eq_coeff_add_dropKey val' k hs, eval_eq_coeff_add_dropKey val k hs,
    eval_congr_of_zeroAt hv (zeroAt_dropKey k p)]
  ring

/-- In a sorted form, a zero coefficient means that every summand of the key vanishes. -/
theorem zeroAt_of_coeff_eq_zero {k : κ} :
    ∀ {p : List (R × κ)}, Sorted p → coeff k p = 0 → ZeroAt k p
  | [], _, _ => fun _ h => by cases h
  | s :: p, hs, hc => by
    rw [coeff_cons] at hc
    intro t ht htk
    rcases List.mem_cons.1 ht with rfl | ht
    · rwa [if_pos htk] at hc
    · by_cases hk : s.2 = k
      · exact absurd (hk ▸ htk) (ne_of_gt (List.rel_of_pairwise_cons hs ht))
      · rw [if_neg hk] at hc
        exact zeroAt_of_coeff_eq_zero (List.Pairwise.of_cons hs) hc t ht htk

section Add

variable [DecidableEq R]

/-- The sum of two forms: the merge of their summands in key order, adding the coefficients of
equal keys and dropping the summands that cancel. -/
def add : List (R × κ) → List (R × κ) → List (R × κ)
  | [], q => q
  | s :: p, [] => s :: p
  | (c₁, k₁) :: p, (c₂, k₂) :: q =>
    match compare k₁ k₂ with
    | .eq => if c₁ + c₂ = 0 then add p q else (c₁ + c₂, k₁) :: add p q
    | .lt => (c₁, k₁) :: add p ((c₂, k₂) :: q)
    | .gt => (c₂, k₂) :: add ((c₁, k₁) :: p) q
termination_by p q => p.length + q.length

@[simp] theorem add_nil (p : List (R × κ)) : add p [] = p := by
  cases p <;> simp [add]

theorem eval_add (val : κ → R) (p q : List (R × κ)) :
    eval val (add p q) = eval val p + eval val q := by
  fun_induction add p q with
  | case1 q => simp
  | case2 s p => simp
  | case3 c₁ k₁ p c₂ k₂ q hc h0 ih =>
    -- equal keys whose coefficients cancel
    have hk : k₁ = k₂ := compare_eq_iff_eq.1 hc
    rw [ih, eval_cons, eval_cons, ← hk]
    linear_combination -(val k₁) * h0
  | case4 c₁ k₁ p c₂ k₂ q hc h0 ih =>
    have hk : k₁ = k₂ := compare_eq_iff_eq.1 hc
    rw [eval_cons, ih, eval_cons, eval_cons, ← hk]
    ring
  | case5 c₁ k₁ p c₂ k₂ q _ ih | case6 c₁ k₁ p c₂ k₂ q _ ih =>
    simp only [eval_cons, ih]
    ring

/-- Every summand of a sum has the key of a summand of an argument. -/
theorem exists_key_of_mem_add {s : R × κ} {p q : List (R × κ)} (hs : s ∈ add p q) :
    ∃ t ∈ p ++ q, t.2 = s.2 := by
  fun_induction add p q with
  | case1 q => exact ⟨s, by simpa using hs, rfl⟩
  | case2 s' p => exact ⟨s, by simpa using hs, rfl⟩
  | case3 c₁ k₁ p c₂ k₂ q _ _ ih =>
    obtain ⟨t, ht, hk⟩ := ih hs
    exact ⟨t, List.mem_append.2 ((List.mem_append.1 ht).imp (List.mem_cons_of_mem _)
      (List.mem_cons_of_mem _)), hk⟩
  | case4 c₁ k₁ p c₂ k₂ q _ _ ih =>
    rcases List.mem_cons.1 hs with rfl | hs
    · exact ⟨(c₁, k₁), by simp, rfl⟩
    · obtain ⟨t, ht, hk⟩ := ih hs
      exact ⟨t, List.mem_append.2 ((List.mem_append.1 ht).imp (List.mem_cons_of_mem _)
        (List.mem_cons_of_mem _)), hk⟩
  | case5 c₁ k₁ p c₂ k₂ q _ ih =>
    rcases List.mem_cons.1 hs with rfl | hs
    · exact ⟨_, by simp, rfl⟩
    · obtain ⟨t, ht, hk⟩ := ih hs
      exact ⟨t, List.mem_append.2 ((List.mem_append.1 ht).imp_left (List.mem_cons_of_mem _)), hk⟩
  | case6 c₁ k₁ p c₂ k₂ q _ ih =>
    rcases List.mem_cons.1 hs with rfl | hs
    · exact ⟨_, by simp, rfl⟩
    · obtain ⟨t, ht, hk⟩ := ih hs
      exact ⟨t, List.mem_append.2 ((List.mem_append.1 ht).imp_right (List.mem_cons_of_mem _)), hk⟩

/-- A key below every key of both arguments is below every key of the sum. -/
theorem lt_key_of_mem_add {k : κ} {p q : List (R × κ)} (hp : ∀ t ∈ p, k < t.2)
    (hq : ∀ t ∈ q, k < t.2) : ∀ s ∈ add p q, k < s.2 := by
  intro s hs
  obtain ⟨t, ht, htk⟩ := exists_key_of_mem_add hs
  rw [← htk]
  rcases List.mem_append.1 ht with ht | ht
  · exact hp t ht
  · exact hq t ht

/-- The sum of two sorted forms is sorted. -/
theorem sorted_add {p q : List (R × κ)} (hp : Sorted p) (hq : Sorted q) : Sorted (add p q) := by
  fun_induction add p q with
  | case1 q => exact hq
  | case2 s p => exact hp
  | case3 c₁ k₁ p c₂ k₂ q _ _ ih => exact ih (List.Pairwise.of_cons hp) (List.Pairwise.of_cons hq)
  | case4 c₁ k₁ p c₂ k₂ q hc _ ih =>
    have hk : k₁ = k₂ := compare_eq_iff_eq.1 hc
    refine List.Pairwise.cons (lt_key_of_mem_add (fun t ht => ?_) (fun t ht => ?_))
      (ih (List.Pairwise.of_cons hp) (List.Pairwise.of_cons hq))
    · exact List.rel_of_pairwise_cons hp ht
    · exact hk ▸ List.rel_of_pairwise_cons hq ht
  | case5 c₁ k₁ p c₂ k₂ q hc ih =>
    -- the head of `p` is below every key of `p` and of `(c₂, k₂) :: q`
    have hlt : k₁ < k₂ := compare_lt_iff_lt.1 hc
    refine List.Pairwise.cons (lt_key_of_mem_add (fun t ht => ?_) (fun t ht => ?_))
      (ih (List.Pairwise.of_cons hp) hq)
    · exact List.rel_of_pairwise_cons hp ht
    · rcases List.mem_cons.1 ht with rfl | ht
      · exact hlt
      · exact lt_trans hlt (List.rel_of_pairwise_cons hq ht)
  | case6 c₁ k₁ p c₂ k₂ q hc ih =>
    have hlt : k₂ < k₁ := compare_gt_iff_gt.1 hc
    refine List.Pairwise.cons (lt_key_of_mem_add (fun t ht => ?_) (fun t ht => ?_))
      (ih hp (List.Pairwise.of_cons hq))
    · rcases List.mem_cons.1 ht with rfl | ht
      · exact hlt
      · exact lt_trans hlt (List.rel_of_pairwise_cons hp ht)
    · exact List.rel_of_pairwise_cons hq ht

/-- A key whose summands vanish in both arguments has vanishing summands in the sum. -/
theorem ZeroAt.add {k : κ} {p q : List (R × κ)} (hp : ZeroAt k p) (hq : ZeroAt k q) :
    ZeroAt k (LinearForm.add p q) := by
  fun_induction LinearForm.add p q with
  | case1 q => exact hq
  | case2 s p => exact hp
  | case3 c₁ k₁ p c₂ k₂ q _ _ ih =>
    exact ih (fun s hs => hp s (List.mem_cons_of_mem _ hs)) (fun s hs => hq s (List.mem_cons_of_mem _ hs))
  | case4 c₁ k₁ p c₂ k₂ q hc _ ih =>
    have hk : k₁ = k₂ := compare_eq_iff_eq.1 hc
    intro s hs hsk
    rcases List.mem_cons.1 hs with rfl | hs
    · have h1 := hp _ (List.mem_cons_self ..) hsk
      have h2 := hq _ (List.mem_cons_self ..) (hk ▸ hsk)
      simp only at h1 h2 ⊢
      rw [h1, h2, add_zero]
    · exact ih (fun s hs => hp s (List.mem_cons_of_mem _ hs))
        (fun s hs => hq s (List.mem_cons_of_mem _ hs)) s hs hsk
  | case5 c₁ k₁ p c₂ k₂ q _ ih =>
    intro s hs hsk
    rcases List.mem_cons.1 hs with rfl | hs
    · exact hp _ (List.mem_cons_self ..) hsk
    · exact ih (fun s hs => hp s (List.mem_cons_of_mem _ hs)) hq s hs hsk
  | case6 c₁ k₁ p c₂ k₂ q _ ih =>
    intro s hs hsk
    rcases List.mem_cons.1 hs with rfl | hs
    · exact hq _ (List.mem_cons_self ..) hsk
    · exact ih hp (fun s hs => hq s (List.mem_cons_of_mem _ hs)) s hs hsk

/-- Every summand of a sum is a summand of an argument or has a coefficient that did not cancel. -/
theorem mem_add_cases {s : R × κ} {p q : List (R × κ)} (hs : s ∈ add p q) :
    s ∈ p ∨ s ∈ q ∨ s.1 ≠ 0 := by
  fun_induction add p q with
  | case1 q => exact .inr (.inl hs)
  | case2 s' p => exact .inl hs
  | case3 c₁ k₁ p c₂ k₂ q _ _ ih =>
    exact (ih hs).imp (List.mem_cons_of_mem _) (Or.imp_left (List.mem_cons_of_mem _))
  | case4 c₁ k₁ p c₂ k₂ q _ h0 ih =>
    rcases List.mem_cons.1 hs with rfl | hs
    · exact .inr (.inr h0)
    · exact (ih hs).imp (List.mem_cons_of_mem _) (Or.imp_left (List.mem_cons_of_mem _))
  | case5 c₁ k₁ p c₂ k₂ q _ ih =>
    rcases List.mem_cons.1 hs with rfl | hs
    · exact .inl (List.mem_cons_self ..)
    · exact (ih hs).imp_left (List.mem_cons_of_mem _)
  | case6 c₁ k₁ p c₂ k₂ q _ ih =>
    rcases List.mem_cons.1 hs with rfl | hs
    · exact .inr (.inl (List.mem_cons_self ..))
    · exact (ih hs).imp_right (Or.imp_left (List.mem_cons_of_mem _))

theorem NonzeroOn.add {P : κ → Prop} {p q : List (R × κ)} (hp : NonzeroOn P p)
    (hq : NonzeroOn P q) : NonzeroOn P (LinearForm.add p q) := by
  intro s hs hP
  rcases mem_add_cases hs with hs | hs | h0
  · exact hp s hs hP
  · exact hq s hs hP
  · exact h0

end Add

end Order

end LinearForm
