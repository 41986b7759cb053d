import Mathlib

/-!
# Ordered finite maps as sorted association lists

A finite map over a linearly ordered key type, in the interface of OCaml's `Map.Make`
(`find`, `add`, `remove`, `split`, `fold` in increasing key order), represented by the
list of its bindings sorted by strictly increasing keys. The balanced trees of `Map.Make`
are not modelled: every operation is stated on the sorted list of bindings that
`Map.bindings` returns.

The lemmas are the ones a client of such maps needs: how `find?` reads `add`, `remove`
and the three parts of `split`; that the operations keep the bindings sorted; which
bindings each part of `split` holds; and what `merge` binds. For `merge` with a function that
raises (`mergeM`), folds and maps in `Except` succeed or fail as their steps do
(`foldlM_except_ok`, `foldlM_except_error`, `foldlM_except_prepend`, `mapM_except_forall₂`).
-/

namespace OrdMap

variable {κ β : Type} [LinearOrder κ]

/-- The keys of the bindings are strictly increasing. -/
def Sorted (m : List (κ × β)) : Prop := m.Pairwise fun a b => a.1 < b.1

/-- `Map.find`, with `none` for `Not_found`. -/
def find? (k : κ) : List (κ × β) → Option β
  | [] => none
  | (k', v) :: m => if k = k' then some v else find? k m

/-- `Map.add`: bind `k` to `v`, replacing an existing binding. -/
def add (k : κ) (v : β) : List (κ × β) → List (κ × β)
  | [] => [(k, v)]
  | (k', v') :: m =>
    if k < k' then (k, v) :: (k', v') :: m
    else if k = k' then (k, v) :: m
    else (k', v') :: add k v m

/-- `Map.remove`. -/
def remove (k : κ) : List (κ × β) → List (κ × β)
  | [] => []
  | (k', v') :: m => if k = k' then m else (k', v') :: remove k m

/-- `Map.split k m`: the bindings below `k`, the binding of `k`, the bindings above `k`. -/
def split (k : κ) (m : List (κ × β)) : List (κ × β) × Option β × List (κ × β) :=
  (m.filter fun b => b.1 < k, find? k m, m.filter fun b => k < b.1)

/-- `Map.fold f m acc`, which applies `f` in increasing key order. -/
def fold {γ : Type} (f : κ → β → γ → γ) (m : List (κ × β)) (acc : γ) : γ :=
  m.foldl (fun a b => f b.1 b.2 a) acc

@[simp] theorem find?_nil (k : κ) : find? k ([] : List (κ × β)) = none := rfl

theorem find?_cons (k k' : κ) (v : β) (m : List (κ × β)) :
    find? k ((k', v) :: m) = if k = k' then some v else find? k m := rfl

theorem mem_of_find? {k : κ} {v : β} : ∀ {m : List (κ × β)}, find? k m = some v → (k, v) ∈ m
  | [], h => by cases h
  | (k', v') :: m, h => by
    rw [find?_cons] at h
    split_ifs at h with hk
    · cases h; subst hk; exact List.mem_cons_self ..
    · exact List.mem_cons_of_mem _ (mem_of_find? h)

/-- In sorted bindings, a binding is what `find?` returns for its key. -/
theorem find?_of_mem {k : κ} {v : β} : ∀ {m : List (κ × β)}, Sorted m → (k, v) ∈ m →
    find? k m = some v
  | [], _, h => by cases h
  | (k', v') :: m, hs, h => by
    rw [find?_cons]
    rcases List.mem_cons.mp h with h | h
    · cases h; simp
    · have hlt : k' < k := List.rel_of_pairwise_cons hs h
      rw [if_neg (ne_of_gt hlt)]
      exact find?_of_mem (List.Pairwise.of_cons hs) h

theorem find?_eq_none {k : κ} : ∀ {m : List (κ × β)}, (∀ b ∈ m, b.1 ≠ k) → find? k m = none
  | [], _ => rfl
  | (k', v') :: m, h => by
    rw [find?_cons, if_neg (Ne.symm (h _ (List.mem_cons_self ..))),
      find?_eq_none fun b hb => h b (List.mem_cons_of_mem _ hb)]

/-- `find?` finds a binding exactly for the keys of the map. -/
theorem find?_eq_none_iff {k : κ} : ∀ {m : List (κ × β)}, find? k m = none ↔ k ∉ m.map Prod.fst
  | [] => by simp
  | (k', v') :: m => by
    simp only [find?_cons, List.map_cons, List.mem_cons, not_or]
    by_cases hk : k = k'
    · simp [hk]
    · rw [if_neg hk, find?_eq_none_iff]
      exact ⟨fun h => ⟨hk, h⟩, fun h => h.2⟩

/-- Two sorted maps with the same keys list them in the same order. -/
theorem map_fst_eq_of_mem_iff {γ : Type} {m₁ : List (κ × β)} {m₂ : List (κ × γ)}
    (h₁ : Sorted m₁) (h₂ : Sorted m₂) (h : ∀ k, k ∈ m₁.map Prod.fst ↔ k ∈ m₂.map Prod.fst) :
    m₁.map Prod.fst = m₂.map Prod.fst := by
  have hp₁ : (m₁.map Prod.fst).Pairwise (· < ·) := List.pairwise_map.2 h₁
  have hp₂ : (m₂.map Prod.fst).Pairwise (· < ·) := List.pairwise_map.2 h₂
  refine List.Perm.eq_of_pairwise (fun a _ _ _ hab hba => absurd (hab.trans hba) (lt_irrefl a))
    hp₁ hp₂ ?_
  exact (List.perm_ext_iff_of_nodup (hp₁.imp ne_of_lt) (hp₂.imp ne_of_lt)).2 h

theorem find?_add (k k' : κ) (v : β) : ∀ m : List (κ × β),
    find? k (add k' v m) = if k = k' then some v else find? k m
  | [] => rfl
  | (k'', v'') :: m => by
    have ih := find?_add k k' v m
    unfold add
    by_cases hlt : k' < k''
    · rw [if_pos hlt, find?_cons, find?_cons]
    · rw [if_neg hlt]
      by_cases heq : k' = k''
      · subst heq
        rw [if_pos rfl, find?_cons, find?_cons]
        by_cases hk : k = k' <;> simp [hk]
      · rw [if_neg heq, find?_cons, ih, find?_cons]
        by_cases hk : k = k'
        · subst hk; simp [heq]
        · simp [hk]

theorem find?_remove (k k' : κ) : ∀ {m : List (κ × β)}, Sorted m →
    find? k (remove k' m) = if k = k' then none else find? k m
  | [], _ => by simp [remove]
  | (k'', v'') :: m, hs => by
    have ih := find?_remove k k' (List.Pairwise.of_cons hs)
    unfold remove
    by_cases heq : k' = k''
    · subst heq
      rw [if_pos rfl, find?_cons]
      by_cases hk : k = k'
      · subst hk
        simp only [if_true]
        exact find?_eq_none fun b hb => ne_of_gt (List.rel_of_pairwise_cons hs hb)
      · simp [hk]
    · rw [if_neg heq, find?_cons, ih, find?_cons]
      by_cases hk : k = k'
      · subst hk; simp [heq]
      · simp [hk]

/-- The keys of `add k v m` are `k` and the keys of `m`. -/
theorem mem_add {k : κ} {v : β} {b : κ × β} : ∀ {m : List (κ × β)},
    b ∈ add k v m → b = (k, v) ∨ b ∈ m
  | [], h => by simpa [add] using h
  | (k', v') :: m, h => by
    unfold add at h
    split_ifs at h
    · simpa using h
    · simp only [List.mem_cons] at h
      rcases h with h | h
      · exact .inl h
      · exact .inr (List.mem_cons_of_mem _ h)
    · simp only [List.mem_cons] at h
      rcases h with h | h
      · exact .inr (h ▸ List.mem_cons_self ..)
      · rcases mem_add h with h | h
        · exact .inl h
        · exact .inr (List.mem_cons_of_mem _ h)

theorem sorted_add (k : κ) (v : β) : ∀ {m : List (κ × β)}, Sorted m → Sorted (add k v m)
  | [], _ => List.pairwise_singleton _ _
  | (k', v') :: m, hs => by
    unfold add
    split_ifs with h1 h2
    · exact List.Pairwise.cons (fun b hb => by
        rcases List.mem_cons.mp hb with rfl | hb
        · exact h1
        · exact lt_trans h1 (List.rel_of_pairwise_cons hs hb)) hs
    · subst h2; exact List.Pairwise.cons (fun b hb => List.rel_of_pairwise_cons hs hb)
        (List.Pairwise.of_cons hs)
    · refine List.Pairwise.cons (fun b hb => ?_) (sorted_add k v (List.Pairwise.of_cons hs))
      rcases mem_add hb with rfl | hb
      · exact lt_of_le_of_ne (not_lt.mp h1) (Ne.symm h2)
      · exact List.rel_of_pairwise_cons hs hb

theorem mem_remove {k : κ} {b : κ × β} : ∀ {m : List (κ × β)}, b ∈ remove k m → b ∈ m
  | [], h => h
  | (k', v') :: m, h => by
    unfold remove at h
    split_ifs at h
    · exact List.mem_cons_of_mem _ h
    · rcases List.mem_cons.mp h with rfl | h
      · exact List.mem_cons_self ..
      · exact List.mem_cons_of_mem _ (mem_remove h)

theorem sorted_remove (k : κ) : ∀ {m : List (κ × β)}, Sorted m → Sorted (remove k m)
  | [], _ => List.Pairwise.nil
  | (k', v') :: m, hs => by
    unfold remove
    split_ifs
    · exact List.Pairwise.of_cons hs
    · exact List.Pairwise.cons (fun b hb => List.rel_of_pairwise_cons hs (mem_remove hb))
        (sorted_remove k (List.Pairwise.of_cons hs))

/-- In sorted bindings, membership is what `find?` says. -/
theorem mem_iff_find? {k : κ} {v : β} {m : List (κ × β)} (hs : Sorted m) :
    (k, v) ∈ m ↔ find? k m = some v :=
  ⟨find?_of_mem hs, mem_of_find?⟩

theorem mem_add_iff {k k' : κ} {v v' : β} {m : List (κ × β)} (hs : Sorted m) :
    (k', v') ∈ add k v m ↔ (k' = k ∧ v' = v) ∨ ((k', v') ∈ m ∧ k' ≠ k) := by
  rw [mem_iff_find? (sorted_add k v hs), find?_add, mem_iff_find? hs]
  by_cases hk : k' = k
  · simp [hk, eq_comm]
  · simp [hk]

/-- `find?` in the bindings whose keys pass a test, the parts that `split` returns. -/
theorem find?_filter (p : κ → Bool) (k : κ) : ∀ m : List (κ × β),
    find? k (m.filter fun b => p b.1) = if p k then find? k m else none
  | [] => by simp
  | (k', v') :: m => by
    have ih := find?_filter p k m
    rw [List.filter_cons, find?_cons]
    by_cases hk : k = k'
    · subst hk
      by_cases hp : p k <;> simp [hp, find?_cons, ih]
    · split <;> simp [find?_cons, hk, ih]

theorem Sorted.filter {m : List (κ × β)} (hs : Sorted m) (p : κ × β → Bool) :
    Sorted (m.filter p) :=
  List.Pairwise.filter p hs

/-- Adding bindings of other keys leaves the binding of `k`. -/
theorem find?_foldl_add_of_forall_ne {γ : Type} (f : γ → κ) (v : γ → β) (k : κ) :
    ∀ (l : List γ) (m : List (κ × β)), (∀ b ∈ l, f b ≠ k) →
      find? k (l.foldl (fun m b => add (f b) (v b) m) m) = find? k m
  | [], _, _ => rfl
  | b :: l, m, h => by
    rw [List.foldl_cons, find?_foldl_add_of_forall_ne f v k l _
      fun b' hb' => h b' (List.mem_cons_of_mem _ hb'), find?_add,
      if_neg (Ne.symm (h b List.mem_cons_self))]

/-- Adding bindings of distinct keys binds each of them. -/
theorem find?_foldl_add_of_mem {γ : Type} (f : γ → κ) (v : γ → β) :
    ∀ (l : List γ) (m : List (κ × β)), (l.map f).Nodup → ∀ b ∈ l,
      find? (f b) (l.foldl (fun m b => add (f b) (v b) m) m) = some (v b)
  | b' :: l, m, hnd, b, hb => by
    obtain ⟨hnot, hnd'⟩ := List.nodup_cons.1 hnd
    rw [List.foldl_cons]
    rcases List.mem_cons.1 hb with rfl | hb
    · rw [find?_foldl_add_of_forall_ne f v _ l _
        fun c hc he => hnot (by rw [← he]; exact List.mem_map_of_mem hc), find?_add, if_pos rfl]
    · exact find?_foldl_add_of_mem f v l _ hnd' b hb

theorem Sorted.foldl_add {γ : Type} (f : γ → κ) (v : γ → β) :
    ∀ (l : List γ) {m : List (κ × β)}, Sorted m →
      Sorted (l.foldl (fun m b => add (f b) (v b) m) m)
  | [], _, hs => hs
  | _ :: l, _, hs => Sorted.foldl_add f v l (sorted_add _ _ hs)

/-! ## `merge` -/

section Merge

variable {γ δ : Type} (f : κ → Option β → Option γ → Option δ) (m₁ : List (κ × β))
  (m₂ : List (κ × γ))

/-- One key of `merge`: bind it to what `f` says, or leave it out. -/
def mergeKey (acc : List (κ × δ)) (k : κ) : List (κ × δ) :=
  match f k (find? k m₁) (find? k m₂) with
  | some d => add k d acc
  | none => acc

/-- `Map.merge f m₁ m₂`: each key of `m₁` or `m₂` bound to `f k (find? k m₁) (find? k m₂)`
where that is `some`. -/
def merge : List (κ × δ) := (m₁.map Prod.fst ++ m₂.map Prod.fst).foldl (mergeKey f m₁ m₂) []

theorem find?_foldl_mergeKey (k : κ) : ∀ (ks : List κ) (acc : List (κ × δ)),
    find? k (ks.foldl (mergeKey f m₁ m₂) acc) =
      (if k ∈ ks then f k (find? k m₁) (find? k m₂) else none).or (find? k acc)
  | [], acc => by simp
  | k' :: ks, acc => by
    rw [List.foldl_cons, find?_foldl_mergeKey k ks]
    -- the key `k'` changes the binding of `k` only when they are equal
    have hstep : find? k (mergeKey f m₁ m₂ acc k') =
        (if k = k' then f k (find? k m₁) (find? k m₂) else none).or (find? k acc) := by
      unfold mergeKey
      split <;> rename_i h
      · rw [find?_add]
        by_cases hk : k = k' <;> simp [hk, h]
      · by_cases hk : k = k' <;> simp [hk, h]
    rw [hstep]
    by_cases hk : k = k'
    · subst hk
      by_cases hks : k ∈ ks
      · simp only [hks, if_true, List.mem_cons, true_or]
        cases f k (find? k m₁) (find? k m₂) <;> rfl
      · simp [hks]
    · simp [hk]

theorem sorted_foldl_mergeKey : ∀ (ks : List κ) {acc : List (κ × δ)}, Sorted acc →
    Sorted (ks.foldl (mergeKey f m₁ m₂) acc)
  | [], _, hs => hs
  | k' :: ks, acc, hs => by
    rw [List.foldl_cons]
    refine sorted_foldl_mergeKey ks ?_
    unfold mergeKey
    split
    · exact sorted_add _ _ hs
    · exact hs

/-- When `f` makes nothing of two absent bindings, `merge` binds each key as `f` says. -/
theorem find?_merge (hf : ∀ k, f k none none = none) (k : κ) :
    find? k (merge f m₁ m₂) = f k (find? k m₁) (find? k m₂) := by
  rw [merge, find?_foldl_mergeKey, find?_nil, Option.or_none]
  split_ifs with hk
  · rfl
  · -- a key of neither map is bound in neither
    have h₁ : find? k m₁ = none :=
      find?_eq_none fun b hb hbk => hk (List.mem_append_left _ (List.mem_map.2 ⟨b, hb, hbk⟩))
    have h₂ : find? k m₂ = none :=
      find?_eq_none fun b hb hbk => hk (List.mem_append_right _ (List.mem_map.2 ⟨b, hb, hbk⟩))
    rw [h₁, h₂, hf]

/-- When `f` keeps a key of either map, `merge` has the keys of both maps. -/
theorem mem_map_fst_merge (hf : ∀ k o₁ o₂, f k o₁ o₂ = none ↔ o₁ = none ∧ o₂ = none) (k : κ) :
    k ∈ (merge f m₁ m₂).map Prod.fst ↔ k ∈ m₁.map Prod.fst ∨ k ∈ m₂.map Prod.fst := by
  have h := find?_merge f m₁ m₂ (fun k => (hf k none none).2 ⟨rfl, rfl⟩) k
  rw [← not_iff_not, not_or, ← find?_eq_none_iff, ← find?_eq_none_iff, ← find?_eq_none_iff, h, hf]

end Merge

/-! ## `merge` with a function that raises -/

section MergeM

variable {γ δ ε : Type} (f : κ → Option β → Option γ → Except ε (Option δ)) (m₁ : List (κ × β))
  (m₂ : List (κ × γ))

/-- One key of `merge` with a function that may raise an exception. -/
def mergeKeyM (acc : List (κ × δ)) (k : κ) : Except ε (List (κ × δ)) :=
  match f k (find? k m₁) (find? k m₂) with
  | .ok (some d) => .ok (add k d acc)
  | .ok none => .ok acc
  | .error e => .error e

/-- `Map.merge f m₁ m₂` with an `f` that may raise an exception. The balanced trees of the source
call `f` in an order of their own; this model calls it on the keys of `m₁`, then on those of
`m₂`, which decides the exception raised only when `f` raises more than one. -/
def mergeM : Except ε (List (κ × δ)) :=
  (m₁.map Prod.fst ++ m₂.map Prod.fst).foldlM (mergeKeyM f m₁ m₂) []

variable {f m₁ m₂}

omit [LinearOrder κ] in
/-- A fold in `Except` whose steps all succeed succeeds. -/
theorem foldlM_except_ok {α : Type} {ks : List κ} {g : α → κ → Except ε α} (hg : ∀ a, ∀ k ∈ ks, ∃ a', g a k = .ok a') :
    ∀ a, ∃ r, ks.foldlM g a = .ok r := by
  induction ks with
  | nil => exact fun a => ⟨a, rfl⟩
  | cons k ks ih =>
    intro a
    obtain ⟨a', ha'⟩ := hg a k List.mem_cons_self
    obtain ⟨r, hr⟩ := ih (fun a k hk => hg a k (List.mem_cons_of_mem _ hk)) a'
    exact ⟨r, by rw [List.foldlM_cons, ha']; exact hr⟩

omit [LinearOrder κ] in
/-- A fold in `Except` with a step that fails from every accumulator fails, with the one
exception its steps raise. -/
theorem foldlM_except_error {α : Type} {ks : List κ} {g : α → κ → Except ε α} {e : ε}
    (hall : ∀ a k e', g a k = .error e' → e' = e) (hk : ∃ k ∈ ks, ∀ a, ∃ e', g a k = .error e') :
    ∀ a, ks.foldlM g a = .error e := by
  induction ks with
  | nil => simp at hk
  | cons k ks ih =>
    intro a
    rw [List.foldlM_cons]
    cases hg : g a k with
    | error e' =>
      rw [hall a k e' hg]
      rfl
    | ok a' =>
      obtain ⟨k', hk', hfail⟩ := hk
      rcases List.mem_cons.1 hk' with rfl | hk'
      · obtain ⟨e', he'⟩ := hfail a
        rw [hg] at he'
        cases he'
      · exact ih ⟨k', hk', hfail⟩ a'

omit [LinearOrder κ] in
/-- A fold in `Except` whose steps put a list in front of the accumulator. -/
theorem foldlM_except_prepend {α : Type} {ks : List κ} {g : List α → κ → Except ε (List α)}
    (p : κ → List α) (hg : ∀ a, ∀ k ∈ ks, g a k = .ok (p k ++ a)) :
    ∀ a, ks.foldlM g a = .ok (ks.reverse.flatMap p ++ a) := by
  induction ks with
  | nil => exact fun a => rfl
  | cons k ks ih =>
    intro a
    rw [List.foldlM_cons, hg a k List.mem_cons_self]
    refine (ih (fun a k hk => hg a k (List.mem_cons_of_mem _ hk)) _).trans ?_
    simp

omit [LinearOrder κ] in
/-- A map in `Except` whose calls all succeed succeeds, with each result related to its
argument as the calls say. -/
theorem mapM_except_forall₂ {α γ : Type} {R : α → γ → Prop} {g : α → Except ε γ} :
    ∀ {l : List α}, (∀ a ∈ l, ∃ c, g a = .ok c ∧ R a c) →
      ∃ cs, l.mapM g = .ok cs ∧ List.Forall₂ R l cs
  | [], _ => ⟨[], rfl, .nil⟩
  | a :: l, h => by
    obtain ⟨c, hc, hR⟩ := h a List.mem_cons_self
    obtain ⟨cs, hcs, hRs⟩ := mapM_except_forall₂ fun a' ha' => h a' (List.mem_cons_of_mem _ ha')
    refine ⟨c :: cs, ?_, .cons hR hRs⟩
    rw [List.mapM_cons, hc, hcs]
    rfl

/-- `mergeM` succeeds when `f` succeeds on every key of either map. -/
theorem mergeM_ok (h : ∀ k ∈ m₁.map Prod.fst ++ m₂.map Prod.fst,
    ∃ o, f k (find? k m₁) (find? k m₂) = .ok o) : ∃ r, mergeM f m₁ m₂ = .ok r := by
  refine foldlM_except_ok (fun acc k hk => ?_) []
  obtain ⟨o, ho⟩ := h k hk
  unfold mergeKeyM
  rw [ho]
  cases o with
  | some d => exact ⟨_, rfl⟩
  | none => exact ⟨_, rfl⟩

/-- `mergeM` raises `e` when `f` raises on some key of either map and raises nothing but `e`. -/
theorem mergeM_error {e : ε} (hall : ∀ k o₁ o₂ e', f k o₁ o₂ = .error e' → e' = e)
    (h : ∃ k ∈ m₁.map Prod.fst ++ m₂.map Prod.fst, ∃ e', f k (find? k m₁) (find? k m₂) = .error e') :
    mergeM f m₁ m₂ = .error e := by
  refine foldlM_except_error (fun acc k e' hk => ?_) ?_ []
  · unfold mergeKeyM at hk
    split at hk
    · cases hk
    · cases hk
    · rename_i e'' he''
      cases hk
      exact hall _ _ _ _ he''
  · obtain ⟨k, hk, e', he'⟩ := h
    refine ⟨k, hk, fun acc => ⟨e', ?_⟩⟩
    unfold mergeKeyM
    rw [he']

end MergeM

end OrdMap
