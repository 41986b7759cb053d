import Kind2.Utils.Trie

/-!
# Folds and tests over two tries at once

`fold2`, `for_all2` and `exists2` of `src/utils/trie.ml` walk two tries together and pair up the
values at the same key. The Lustre frontend keeps structured expressions in tries of indexes
(`LustreIndex`, a `Trie.Make`) and combines two expressions of the same structure with them:
`LustreTransSys` folds over pairs of them, and `LustreContext` compares the inputs and the
defaults of two node calls with `for_all2`.

Each function raises `Invalid_argument` when the tries differ in shape. `fold2` checks the keys
of two nodes with `M.merge` before it folds over their children, and raises at a leaf against a
node or an empty trie. `for_all2` and `exists2` raise when the keys of two children compare
unequal, or, through `List.for_all2` and `List.exists2`, when one node has more children than the
other; they stop at the first pair that decides the answer, so on tries of different shapes they
may answer instead of raising. They are one function, `scan2'`, with the answer `b` that lets the
scan go on and the messages of their exceptions.

`sameShape` says that two tries have nodes, leaves and empty tries at the same paths, and
`zipEntries` pairs up their bindings. For tries of the same shape `fold2` folds over the pairs
(`fold2'_of_sameShape`); over well-formed tries of different shapes it raises
(`fold2'_of_not_sameShape`). `scan2'` ends with `b` exactly for tries of the same shape whose
pairs all give `b` (`scan2'_eq_ok_iff`). Clean tries, those `add` and `remove` build, have the
same shape exactly when they have the same keys (`sameShape_iff_keys`), and then their pairs are
the bindings of the two tries zipped in order (`zipEntries_eq_zip`).
-/

namespace Kind2
namespace Trie

variable {κ α β γ : Type} [LinearOrder κ]

/-! ## Operations -/

/-- The function `fold2` merges the maps of two nodes with: it raises
`Invalid_argument "Trie.fold2"` on a key of one map only, and keeps nothing. -/
def fold2MergeKey (_ : κ) : Option (Trie κ α) → Option (Trie κ β) → Except String (Option Unit)
  | none, none => .ok none
  | some _, some _ => .ok none
  | none, some _ | some _, none => .error "Trie.fold2"

mutual
/-- `fold2'` of `fold2` (`src/utils/trie.ml:490`): the path to the current subtries is kept
reversed in `revp`. At two nodes the merge checks the keys, then the children are folded in
order. -/
def fold2' (f : List κ → α → β → γ → γ) (revp : List κ) :
    Trie κ α → Trie κ β → γ → Except String γ
  | .node m₁, .node m₂, acc => do
    let _ ← OrdMap.mergeM fold2MergeKey m₁ m₂
    fold2Children f revp acc m₁ m₂
  | .leaf v₁, .leaf v₂, acc => .ok (f revp.reverse v₁ v₂ acc)
  | .empty, .empty, acc => .ok acc
  | .node _, .leaf _, _ | .node _, .empty, _ | .leaf _, .node _, _ | .leaf _, .empty, _
  | .empty, .node _, _ | .empty, .leaf _, _ => .error "Trie.fold2"

/-- `List.fold_left2 (fun acc (k, t1) (_, t2) -> fold2' (k :: revp) t1 t2 acc) acc
(M.bindings m1) (M.bindings m2)`, which raises `Invalid_argument "List.fold_left2"` on lists of
different lengths. -/
def fold2Children (f : List κ → α → β → γ → γ) (revp : List κ) :
    γ → List (κ × Trie κ α) → List (κ × Trie κ β) → Except String γ
  | acc, [], [] => .ok acc
  | acc, (k, t₁) :: r₁, (_, t₂) :: r₂ => do
    let acc' ← fold2' f (k :: revp) t₁ t₂ acc
    fold2Children f revp acc' r₁ r₂
  | _, [], _ :: _ | _, _ :: _, [] => .error "List.fold_left2"
end

/-- `fold2` (`src/utils/trie.ml:490`). -/
def fold2 (f : List κ → α → β → γ → γ) (t₁ : Trie κ α) (t₂ : Trie κ β) (acc : γ) :
    Except String γ :=
  fold2' f [] t₁ t₂ acc

mutual
/-- `for_all2'` of `for_all2` (`src/utils/trie.ml:573`) for `b = true`, and `exists2'` of
`exists2` (line 601) for `b = false`: `b` is the answer that lets the scan go on, and
`trieErr`, `listErr` are the messages of the `Invalid_argument` they raise. -/
def scan2' (b : Bool) (trieErr listErr : String) (p : List κ → α → β → Bool) (revp : List κ) :
    Trie κ α → Trie κ β → Except String Bool
  | .empty, .empty => .ok b
  | .leaf v₁, .leaf v₂ => .ok (p revp.reverse v₁ v₂)
  | .node m₁, .node m₂ => scan2Children b trieErr listErr p revp m₁ m₂
  | .node _, .leaf _ | .node _, .empty | .leaf _, .node _ | .leaf _, .empty
  | .empty, .node _ | .empty, .leaf _ => .error trieErr

/-- `List.for_all2` (`List.exists2`) over the bindings of two nodes, each pair checked to have
keys that compare equal: `&&` (`||`) stops at the first pair whose answer is not `b`. -/
def scan2Children (b : Bool) (trieErr listErr : String) (p : List κ → α → β → Bool)
    (revp : List κ) : List (κ × Trie κ α) → List (κ × Trie κ β) → Except String Bool
  | [], [] => .ok b
  | (k₁, t₁) :: r₁, (k₂, t₂) :: r₂ =>
    (if compare k₁ k₂ = .eq then scan2' b trieErr listErr p (k₁ :: revp) t₁ t₂
      else .error trieErr) >>= fun r =>
    if r = b then scan2Children b trieErr listErr p revp r₁ r₂ else .ok r
  | [], _ :: _ | _ :: _, [] => .error listErr
end

/-- `for_all2` (`src/utils/trie.ml:573`). -/
def forAll2 (p : List κ → α → β → Bool) (t₁ : Trie κ α) (t₂ : Trie κ β) : Except String Bool :=
  scan2' true "Trie.for_all2" "List.for_all2" p [] t₁ t₂

/-- `exists2` (`src/utils/trie.ml:601`). -/
def exists2 (p : List κ → α → β → Bool) (t₁ : Trie κ α) (t₂ : Trie κ β) : Except String Bool :=
  scan2' false "Trie.exists2" "List.exists2" p [] t₁ t₂

/-! ## Tries of the same shape -/

mutual
/-- The two tries have nodes, leaves and empty tries at the same paths. -/
def sameShape : Trie κ α → Trie κ β → Bool
  | .node m₁, .node m₂ => sameShapeChildren m₁ m₂
  | .leaf _, .leaf _ => true
  | .empty, .empty => true
  | .node _, .leaf _ | .node _, .empty | .leaf _, .node _ | .leaf _, .empty
  | .empty, .node _ | .empty, .leaf _ => false

/-- The children of two nodes have the same keys in the same order, and pairwise the same
shape. -/
def sameShapeChildren : List (κ × Trie κ α) → List (κ × Trie κ β) → Bool
  | [], [] => true
  | (k₁, c₁) :: r₁, (k₂, c₂) :: r₂ =>
    decide (k₁ = k₂) && sameShape c₁ c₂ && sameShapeChildren r₁ r₂
  | [], _ :: _ | _ :: _, [] => false
end

mutual
/-- The values of two tries of the same shape, paired at their keys in the order of the
bindings. -/
def zipEntries : Trie κ α → Trie κ β → List (List κ × α × β)
  | .node m₁, .node m₂ => zipEntriesChildren m₁ m₂
  | .leaf v₁, .leaf v₂ => [([], v₁, v₂)]
  | .empty, .empty => []
  | .node _, .leaf _ | .node _, .empty | .leaf _, .node _ | .leaf _, .empty
  | .empty, .node _ | .empty, .leaf _ => []

/-- The pairs below the children of two nodes. -/
def zipEntriesChildren : List (κ × Trie κ α) → List (κ × Trie κ β) → List (List κ × α × β)
  | (k, c₁) :: r₁, (_, c₂) :: r₂ =>
    (zipEntries c₁ c₂).map (fun e => (k :: e.1, e.2)) ++ zipEntriesChildren r₁ r₂
  | [], [] | [], _ :: _ | _ :: _, [] => []
end

theorem map_fst_of_sameShapeChildren : ∀ {m₁ : List (κ × Trie κ α)} {m₂ : List (κ × Trie κ β)},
    sameShapeChildren m₁ m₂ = true → m₁.map Prod.fst = m₂.map Prod.fst
  | [], [], _ => rfl
  | (k₁, c₁) :: r₁, (k₂, c₂) :: r₂, h => by
    simp only [sameShapeChildren, Bool.and_eq_true, decide_eq_true_eq] at h
    obtain ⟨⟨rfl, -⟩, hr⟩ := h
    simp [map_fst_of_sameShapeChildren hr]
  | [], _ :: _, h | _ :: _, [], h => by simp [sameShapeChildren] at h

omit [LinearOrder κ] in
/-- The keys below a child are the child's own keys behind the key of the child. -/
theorem map_fst_map_cons {δ : Type} (k : κ) (l : List (List κ × δ)) :
    (l.map fun e => (k :: e.1, e.2)).map Prod.fst = (l.map Prod.fst).map (List.cons k) := by
  simp

mutual
/-- Tries of the same shape have the same keys. -/
theorem map_fst_entries_of_sameShape : ∀ {t₁ : Trie κ α} {t₂ : Trie κ β},
    sameShape t₁ t₂ = true → (entries t₁).map Prod.fst = (entries t₂).map Prod.fst
  | .node _, .node _, h => by
    rw [entries_node, entries_node]
    exact map_fst_entriesChildren_of_sameShape h
  | .leaf _, .leaf _, _ | .empty, .empty, _ => rfl
  | .node _, .leaf _, h | .node _, .empty, h | .leaf _, .node _, h | .leaf _, .empty, h
  | .empty, .node _, h | .empty, .leaf _, h => by simp [sameShape] at h

theorem map_fst_entriesChildren_of_sameShape :
    ∀ {m₁ : List (κ × Trie κ α)} {m₂ : List (κ × Trie κ β)}, sameShapeChildren m₁ m₂ = true →
      (entriesChildren m₁).map Prod.fst = (entriesChildren m₂).map Prod.fst
  | [], [], _ => rfl
  | (k₁, c₁) :: r₁, (k₂, c₂) :: r₂, h => by
    simp only [sameShapeChildren, Bool.and_eq_true, decide_eq_true_eq] at h
    obtain ⟨⟨rfl, hc⟩, hr⟩ := h
    rw [entriesChildren, entriesChildren, List.map_append, List.map_append, map_fst_map_cons,
      map_fst_map_cons, map_fst_entries_of_sameShape hc, map_fst_entriesChildren_of_sameShape hr]
  | [], _ :: _, h | _ :: _, [], h => by simp [sameShapeChildren] at h
end

mutual
/-- The pairs of two tries of the same shape are their bindings zipped in order. -/
theorem zipEntries_eq_zip : ∀ {t₁ : Trie κ α} {t₂ : Trie κ β}, sameShape t₁ t₂ = true →
    zipEntries t₁ t₂ = ((entries t₁).zip (entries t₂)).map fun e => (e.1.1, e.1.2, e.2.2)
  | .node _, .node _, h => by
    rw [zipEntries, entries_node, entries_node]
    exact zipEntriesChildren_eq_zip h
  | .leaf _, .leaf _, _ | .empty, .empty, _ => rfl
  | .node _, .leaf _, h | .node _, .empty, h | .leaf _, .node _, h | .leaf _, .empty, h
  | .empty, .node _, h | .empty, .leaf _, h => by simp [sameShape] at h

theorem zipEntriesChildren_eq_zip :
    ∀ {m₁ : List (κ × Trie κ α)} {m₂ : List (κ × Trie κ β)}, sameShapeChildren m₁ m₂ = true →
      zipEntriesChildren m₁ m₂ =
        ((entriesChildren m₁).zip (entriesChildren m₂)).map fun e => (e.1.1, e.1.2, e.2.2)
  | [], [], _ => rfl
  | (k₁, c₁) :: r₁, (k₂, c₂) :: r₂, h => by
    simp only [sameShapeChildren, Bool.and_eq_true, decide_eq_true_eq] at h
    obtain ⟨⟨rfl, hc⟩, hr⟩ := h
    -- the bindings below the first children are as many on both sides
    have hlen : ((entries c₁).map fun e => (k₁ :: e.1, e.2)).length =
        ((entries c₂).map fun e => (k₁ :: e.1, e.2)).length := by
      simpa using congrArg List.length (map_fst_entries_of_sameShape hc)
    rw [zipEntriesChildren, entriesChildren, entriesChildren, List.zip_append hlen, List.zip_map,
      List.map_append, List.map_map, zipEntries_eq_zip hc,
      zipEntriesChildren_eq_zip hr, List.map_map]
    rfl
  | [], _ :: _, h | _ :: _, [], h => by simp [sameShapeChildren] at h
end

/-! ## `fold2` -/

section Fold2

variable {m₁ : List (κ × Trie κ α)} {m₂ : List (κ × Trie κ β)}

/-- The value `fold2MergeKey` gives a key: it raises exactly when one map only has the key. -/
theorem fold2MergeKey_find? (k : κ) :
    (fold2MergeKey k (OrdMap.find? k m₁) (OrdMap.find? k m₂) = .ok none ↔
      (k ∈ m₁.map Prod.fst ↔ k ∈ m₂.map Prod.fst)) ∧
    (fold2MergeKey k (OrdMap.find? k m₁) (OrdMap.find? k m₂) = .error "Trie.fold2" ↔
      ¬(k ∈ m₁.map Prod.fst ↔ k ∈ m₂.map Prod.fst)) := by
  have h₁ : OrdMap.find? k m₁ = none ↔ k ∉ m₁.map Prod.fst := OrdMap.find?_eq_none_iff
  have h₂ : OrdMap.find? k m₂ = none ↔ k ∉ m₂.map Prod.fst := OrdMap.find?_eq_none_iff
  cases hf₁ : OrdMap.find? k m₁ <;> cases hf₂ : OrdMap.find? k m₂ <;>
    simp_all [fold2MergeKey]

/-- The merge of `fold2` passes when the two maps have the same keys. -/
theorem mergeM_fold2MergeKey_ok (h : ∀ k, k ∈ m₁.map Prod.fst ↔ k ∈ m₂.map Prod.fst) :
    ∃ r, OrdMap.mergeM fold2MergeKey m₁ m₂ = .ok r :=
  OrdMap.mergeM_ok fun k _ => ⟨none, (fold2MergeKey_find? k).1.2 (h k)⟩

/-- The merge of `fold2` raises when a key is in one map only. -/
theorem mergeM_fold2MergeKey_error (h : ¬∀ k, k ∈ m₁.map Prod.fst ↔ k ∈ m₂.map Prod.fst) :
    OrdMap.mergeM fold2MergeKey m₁ m₂ = .error "Trie.fold2" := by
  obtain ⟨k, hk⟩ := not_forall.1 h
  refine OrdMap.mergeM_error (fun k o₁ o₂ e' he' => ?_) ⟨k, ?_, _, (fold2MergeKey_find? k).2.2 hk⟩
  · cases o₁ <;> cases o₂ <;> simp_all [fold2MergeKey]
  · -- the key is in one of the maps
    rw [List.mem_append]
    tauto

variable (f : List κ → α → β → γ → γ)

mutual
/-- On tries of the same shape `fold2'` folds `f` over the pairs of bindings in order. -/
theorem fold2'_of_sameShape : ∀ (revp : List κ) {t₁ : Trie κ α} {t₂ : Trie κ β} (acc : γ),
    sameShape t₁ t₂ = true → fold2' f revp t₁ t₂ acc =
      .ok ((zipEntries t₁ t₂).foldl (fun a e => f (revp.reverse ++ e.1) e.2.1 e.2.2 a) acc)
  | revp, .node m₁, .node m₂, acc, h => by
    have hk : m₁.map Prod.fst = m₂.map Prod.fst := map_fst_of_sameShapeChildren h
    have hmem : ∀ k, k ∈ m₁.map Prod.fst ↔ k ∈ m₂.map Prod.fst := fun k => by rw [hk]
    obtain ⟨r, hr⟩ := mergeM_fold2MergeKey_ok hmem
    rw [fold2', hr, zipEntries]
    exact fold2Children_of_sameShape revp acc h
  | _, .leaf _, .leaf _, _, _ => by simp [fold2', zipEntries]
  | _, .empty, .empty, _, _ => by simp [fold2', zipEntries]
  | _, .node _, .leaf _, _, h | _, .node _, .empty, _, h | _, .leaf _, .node _, _, h
  | _, .leaf _, .empty, _, h | _, .empty, .node _, _, h | _, .empty, .leaf _, _, h => by
    simp [sameShape] at h

theorem fold2Children_of_sameShape : ∀ (revp : List κ) {m₁ : List (κ × Trie κ α)}
    {m₂ : List (κ × Trie κ β)} (acc : γ), sameShapeChildren m₁ m₂ = true →
      fold2Children f revp acc m₁ m₂ =
        .ok ((zipEntriesChildren m₁ m₂).foldl
          (fun a e => f (revp.reverse ++ e.1) e.2.1 e.2.2 a) acc)
  | _, [], [], _, _ => rfl
  | revp, (k₁, c₁) :: r₁, (k₂, c₂) :: r₂, acc, h => by
    simp only [sameShapeChildren, Bool.and_eq_true, decide_eq_true_eq] at h
    obtain ⟨⟨rfl, hc⟩, hr⟩ := h
    rw [fold2Children, fold2'_of_sameShape (k₁ :: revp) acc hc]
    refine (fold2Children_of_sameShape revp _ hr).trans ?_
    rw [zipEntriesChildren, List.foldl_append, List.foldl_map]
    simp
  | _, [], _ :: _, _, h | _, _ :: _, [], _, h => by simp [sameShapeChildren] at h

/-- On well-formed tries of different shapes `fold2'` raises `Invalid_argument "Trie.fold2"`:
at the first node whose maps differ in their keys, or at a leaf against another kind of trie. -/
theorem fold2'_of_not_sameShape : ∀ (revp : List κ) {t₁ : Trie κ α} {t₂ : Trie κ β} (acc : γ),
    WF t₁ → WF t₂ → sameShape t₁ t₂ = false → fold2' f revp t₁ t₂ acc = .error "Trie.fold2"
  | revp, .node m₁, .node m₂, acc, .node _ hs₁ hc₁, .node _ hs₂ hc₂, h => by
    rw [fold2']
    by_cases hk : ∀ k, k ∈ m₁.map Prod.fst ↔ k ∈ m₂.map Prod.fst
    · obtain ⟨r, hr⟩ := mergeM_fold2MergeKey_ok hk
      rw [hr]
      exact fold2Children_of_not_sameShape revp acc (OrdMap.map_fst_eq_of_mem_iff hs₁ hs₂ hk)
        hc₁ hc₂ h
    · rw [mergeM_fold2MergeKey_error hk]
      rfl
  | _, .leaf _, .leaf _, _, _, _, h | _, .empty, .empty, _, _, _, h => by simp [sameShape] at h
  | _, .node _, .leaf _, _, _, _, _ | _, .node _, .empty, _, _, _, _
  | _, .leaf _, .node _, _, _, _, _ | _, .leaf _, .empty, _, _, _, _
  | _, .empty, .node _, _, _, _, _ | _, .empty, .leaf _, _, _, _, _ => rfl

theorem fold2Children_of_not_sameShape : ∀ (revp : List κ) (acc : γ)
    {m₁ : List (κ × Trie κ α)} {m₂ : List (κ × Trie κ β)}, m₁.map Prod.fst = m₂.map Prod.fst →
      (∀ p ∈ m₁, WF p.2) → (∀ p ∈ m₂, WF p.2) → sameShapeChildren m₁ m₂ = false →
        fold2Children f revp acc m₁ m₂ = .error "Trie.fold2"
  | _, _, [], [], _, _, _, h => by simp [sameShapeChildren] at h
  | revp, acc, (k₁, c₁) :: r₁, (k₂, c₂) :: r₂, hk, hc₁, hc₂, h => by
    simp only [List.map_cons, List.cons.injEq] at hk
    obtain ⟨rfl, hk⟩ := hk
    have hw₁ := hc₁ _ List.mem_cons_self
    have hw₂ := hc₂ _ List.mem_cons_self
    rw [fold2Children]
    -- the first pair of children raises, or folds and the rest raises
    cases hc : sameShape c₁ c₂ with
    | false =>
      rw [fold2'_of_not_sameShape (k₁ :: revp) acc hw₁ hw₂ hc]
      rfl
    | true =>
      have hr : sameShapeChildren r₁ r₂ = false := by simpa [sameShapeChildren, hc] using h
      rw [fold2'_of_sameShape (k₁ :: revp) acc hc]
      exact fold2Children_of_not_sameShape revp _ hk (fun p hp => hc₁ p (List.mem_cons_of_mem _ hp))
        (fun p hp => hc₂ p (List.mem_cons_of_mem _ hp)) hr
  | _, _, [], _ :: _, hk, _, _, _ | _, _, _ :: _, [], hk, _, _, _ => by simp at hk
end

end Fold2

/-! ## `for_all2` and `exists2` -/

section Scan2

variable {b : Bool} {trieErr listErr : String} {p : List κ → α → β → Bool}

omit [LinearOrder κ] in
/-- A scan goes on after a pair that answers `b`, so it ends with `b` exactly when the pair and
the rest both do. -/
theorem bind_scan_eq_ok {x y : Except String Bool} :
    (x >>= fun r => if r = b then y else .ok r) = .ok b ↔ x = .ok b ∧ y = .ok b := by
  cases x with
  | error e => simp [bind, Except.bind]
  | ok r =>
    by_cases hr : r = b
    · subst hr
      simp [bind, Except.bind]
    · simp [bind, Except.bind, hr]

mutual
/-- `scan2'` ends with `b` exactly on tries of the same shape whose pairs all answer `b`. -/
theorem scan2'_eq_ok_iff : ∀ (revp : List κ) (t₁ : Trie κ α) (t₂ : Trie κ β),
    scan2' b trieErr listErr p revp t₁ t₂ = .ok b ↔
      sameShape t₁ t₂ = true ∧ ∀ e ∈ zipEntries t₁ t₂, p (revp.reverse ++ e.1) e.2.1 e.2.2 = b
  | revp, .node m₁, .node m₂ => by
    rw [scan2', sameShape, zipEntries]
    exact scan2Children_eq_ok_iff revp m₁ m₂
  | _, .leaf _, .leaf _ | _, .empty, .empty => by simp [scan2', sameShape, zipEntries]
  | _, .node _, .leaf _ | _, .node _, .empty | _, .leaf _, .node _ | _, .leaf _, .empty
  | _, .empty, .node _ | _, .empty, .leaf _ => by simp [scan2', sameShape]

theorem scan2Children_eq_ok_iff : ∀ (revp : List κ) (m₁ : List (κ × Trie κ α))
    (m₂ : List (κ × Trie κ β)), scan2Children b trieErr listErr p revp m₁ m₂ = .ok b ↔
      sameShapeChildren m₁ m₂ = true ∧
        ∀ e ∈ zipEntriesChildren m₁ m₂, p (revp.reverse ++ e.1) e.2.1 e.2.2 = b
  | _, [], [] => by simp [scan2Children, sameShapeChildren, zipEntriesChildren]
  | revp, (k₁, c₁) :: r₁, (k₂, c₂) :: r₂ => by
    rw [scan2Children, bind_scan_eq_ok, scan2Children_eq_ok_iff revp r₁ r₂]
    by_cases hk : k₁ = k₂
    · subst hk
      rw [if_pos (compare_eq_iff_eq.2 rfl), scan2'_eq_ok_iff (k₁ :: revp) c₁ c₂]
      simp only [sameShapeChildren, zipEntriesChildren, decide_true, Bool.true_and,
        Bool.and_eq_true, List.forall_mem_append, List.forall_mem_map, List.reverse_cons,
        List.append_assoc, List.singleton_append]
      exact and_and_and_comm
    · -- keys that compare unequal raise
      rw [if_neg (mt compare_eq_iff_eq.1 hk)]
      simp [sameShapeChildren, hk]
  | _, [], _ :: _ | _, _ :: _, [] => by simp [scan2Children, sameShapeChildren]
end

end Scan2

/-! ## Clean tries -/

section Clean

omit [LinearOrder κ] in
/-- No key below a node is empty. -/
theorem nil_not_mem_keys_node (m : List (κ × Trie κ α)) :
    [] ∉ (entriesChildren m).map Prod.fst := by
  intro h
  obtain ⟨⟨k, v⟩, hkv, hk⟩ := List.mem_map.1 h
  obtain ⟨_, _, _, rfl, -⟩ := mem_entriesChildren.1 hkv
  cases hk

/-- In a sorted node, the keys below the children after the first start with keys above the
first child's. -/
theorem head_ne_of_mem_keys_tail {k : κ} {c : Trie κ α} {r : List (κ × Trie κ α)}
    (hs : OrdMap.Sorted ((k, c) :: r)) :
    ∀ x ∈ (entriesChildren r).map Prod.fst, x.head? ≠ some k := by
  intro x hx
  obtain ⟨⟨y, v⟩, hyv, rfl⟩ := List.mem_map.1 hx
  obtain ⟨h, t, c', rfl, hc', -⟩ := mem_entriesChildren.1 hyv
  have hlt : k < h := List.rel_of_pairwise_cons hs hc'
  simpa using ne_of_gt hlt

/-- Keys behind `k` followed by keys with other heads determine both parts. -/
theorem map_cons_append_inj {k : κ} {A₁ A₂ B₁ B₂ : List (List κ)}
    (hB₁ : ∀ x ∈ B₁, x.head? ≠ some k) (hB₂ : ∀ x ∈ B₂, x.head? ≠ some k)
    (h : A₁.map (List.cons k) ++ B₁ = A₂.map (List.cons k) ++ B₂) : A₁ = A₂ ∧ B₁ = B₂ := by
  -- the keys with head `k` are the first parts
  have hfilter : ∀ A B : List (List κ), (∀ x ∈ B, x.head? ≠ some k) →
      (A.map (List.cons k) ++ B).filter (fun x => decide (x.head? = some k)) =
        A.map (List.cons k) := by
    intro A B hB
    rw [List.filter_append, List.filter_eq_self.2 (by simp),
      List.filter_eq_nil_iff.2 fun x hx => by simpa using hB x hx, List.append_nil]
  have hA : A₁.map (List.cons k) = A₂.map (List.cons k) := by
    rw [← hfilter A₁ B₁ hB₁, ← hfilter A₂ B₂ hB₂, h]
  refine ⟨List.map_injective_iff.2 List.cons_injective hA, ?_⟩
  rw [hA] at h
  exact List.append_cancel_left h

mutual
/-- Clean tries with the same keys have the same shape. -/
theorem sameShape_of_keys_eq : ∀ {t₁ : Trie κ α} {t₂ : Trie κ β}, Clean t₁ → Clean t₂ →
    (entries t₁).map Prod.fst = (entries t₂).map Prod.fst → sameShape t₁ t₂ = true
  | .node _, .node _, .node _ _ hs₁ hne₁ hc₁, .node _ _ hs₂ hne₂ hc₂, h => by
    rw [entries_node, entries_node] at h
    rw [sameShape]
    exact sameShapeChildren_of_keys_eq hs₁ hs₂ hne₁ hne₂ hc₁ hc₂ h
  | .leaf _, .leaf _, _, _, _ | .empty, .empty, _, _, _ => rfl
  | .empty, .leaf _, _, _, h | .leaf _, .empty, _, _, h => by simp at h
  | .leaf _, .node m₂, _, _, h => by
    have hmem : ([] : List κ) ∈ (entriesChildren m₂).map Prod.fst := by
      rw [← entries_node, ← h]
      simp
    exact absurd hmem (nil_not_mem_keys_node m₂)
  | .node m₁, .leaf _, _, _, h => by
    have hmem : ([] : List κ) ∈ (entriesChildren m₁).map Prod.fst := by
      rw [← entries_node, h]
      simp
    exact absurd hmem (nil_not_mem_keys_node m₁)
  | .empty, .node _, _, h₂, h => by
    simp only [entries_empty, List.map_nil] at h
    exact absurd (List.map_eq_nil_iff.1 h.symm) (h₂.entries_ne_nil nofun)
  | .node _, .empty, h₁, _, h => by
    simp only [entries_empty, List.map_nil] at h
    exact absurd (List.map_eq_nil_iff.1 h) (h₁.entries_ne_nil nofun)

theorem sameShapeChildren_of_keys_eq :
    ∀ {m₁ : List (κ × Trie κ α)} {m₂ : List (κ × Trie κ β)}, OrdMap.Sorted m₁ → OrdMap.Sorted m₂ →
      (∀ p ∈ m₁, p.2 ≠ Trie.empty) → (∀ p ∈ m₂, p.2 ≠ Trie.empty) → (∀ p ∈ m₁, Clean p.2) →
      (∀ p ∈ m₂, Clean p.2) → (entriesChildren m₁).map Prod.fst = (entriesChildren m₂).map Prod.fst →
        sameShapeChildren m₁ m₂ = true
  | [], [], _, _, _, _, _, _, _ => rfl
  | [], _ :: _, _, _, _, hne₂, _, hc₂, h => by
    obtain ⟨y, ys, hy⟩ := List.exists_cons_of_ne_nil
      ((hc₂ _ List.mem_cons_self).entries_ne_nil (hne₂ _ List.mem_cons_self))
    simp [entriesChildren, hy] at h
  | _ :: _, [], _, _, hne₁, _, hc₁, _, h => by
    obtain ⟨x, xs, hx⟩ := List.exists_cons_of_ne_nil
      ((hc₁ _ List.mem_cons_self).entries_ne_nil (hne₁ _ List.mem_cons_self))
    simp [entriesChildren, hx] at h
  | (k₁, c₁) :: r₁, (k₂, c₂) :: r₂, hs₁, hs₂, hne₁, hne₂, hc₁, hc₂, h => by
    -- the first children have bindings, so the first keys start with `k₁` and `k₂`
    obtain ⟨x, xs, hx⟩ := List.exists_cons_of_ne_nil
      ((hc₁ _ List.mem_cons_self).entries_ne_nil (hne₁ _ List.mem_cons_self))
    obtain ⟨y, ys, hy⟩ := List.exists_cons_of_ne_nil
      ((hc₂ _ List.mem_cons_self).entries_ne_nil (hne₂ _ List.mem_cons_self))
    have hk : k₁ = k₂ := by
      have h' := congrArg List.head? h
      simp only [entriesChildren, hx, hy, List.map_cons, List.cons_append, List.head?_cons,
        Option.some.injEq, List.cons.injEq] at h'
      exact h'.1
    subst hk
    -- the keys with head `k₁` are those below the first children
    rw [entriesChildren, entriesChildren, List.map_append, List.map_append, map_fst_map_cons,
      map_fst_map_cons] at h
    obtain ⟨hc, hr⟩ :=
      map_cons_append_inj (head_ne_of_mem_keys_tail hs₁) (head_ne_of_mem_keys_tail hs₂) h
    simp only [sameShapeChildren, decide_true, Bool.true_and, Bool.and_eq_true]
    exact ⟨sameShape_of_keys_eq (hc₁ _ List.mem_cons_self) (hc₂ _ List.mem_cons_self) hc,
      sameShapeChildren_of_keys_eq (List.Pairwise.of_cons hs₁) (List.Pairwise.of_cons hs₂)
        (fun q hq => hne₁ q (List.mem_cons_of_mem _ hq)) (fun q hq => hne₂ q (List.mem_cons_of_mem _ hq))
        (fun q hq => hc₁ q (List.mem_cons_of_mem _ hq)) (fun q hq => hc₂ q (List.mem_cons_of_mem _ hq))
        hr⟩
end

/-- Clean tries have the same shape exactly when they have the same keys. -/
theorem sameShape_iff_keys {t₁ : Trie κ α} {t₂ : Trie κ β} (h₁ : Clean t₁) (h₂ : Clean t₂) :
    sameShape t₁ t₂ = true ↔ keys t₁ = keys t₂ := by
  rw [keys_eq_map_entries, keys_eq_map_entries]
  exact ⟨map_fst_entries_of_sameShape, sameShape_of_keys_eq h₁ h₂⟩

/-- On clean tries `fold2 f` folds `f` over the pairs of bindings at the same keys, in key order,
when the tries have the same keys, and raises `Invalid_argument "Trie.fold2"` otherwise. -/
theorem fold2_clean (f : List κ → α → β → γ → γ) {t₁ : Trie κ α} {t₂ : Trie κ β}
    (h₁ : Clean t₁) (h₂ : Clean t₂) (acc : γ) :
    fold2 f t₁ t₂ acc =
      if keys t₁ = keys t₂ then
        .ok (((entries t₁).zip (entries t₂)).foldl (fun a e => f e.1.1 e.1.2 e.2.2 a) acc)
      else .error "Trie.fold2" := by
  split_ifs with hk
  · have hs := (sameShape_iff_keys h₁ h₂).2 hk
    rw [fold2, fold2'_of_sameShape f [] acc hs, zipEntries_eq_zip hs, List.foldl_map]
    simp
  · have hs : sameShape t₁ t₂ = false := Bool.eq_false_iff.2 (mt (sameShape_iff_keys h₁ h₂).1 hk)
    exact fold2'_of_not_sameShape f [] acc h₁.wf h₂.wf hs

/-- `fold2` on two clean tries with the keys `[1]` and `[2]`: the sum of the products of the
values at the same key. -/
theorem fold2_clean_products :
    fold2 (fun _ a b acc => acc + a * b) (.node [(1, .leaf 2), (2, .leaf 3)] : Trie Nat Nat)
      (.node [(1, .leaf 5), (2, .leaf 7)]) 0 = .ok 31 := by
  have hc : ∀ x y : Nat, Clean (.node [(1, .leaf x), (2, .leaf y)] : Trie Nat Nat) :=
    fun x y => .node _ (by simp) (by simp [OrdMap.Sorted]) (by simp) (by simp [Clean.leaf])
  rw [fold2_clean _ (hc 2 3) (hc 5 7)]
  rfl

variable {b : Bool} {trieErr listErr : String} {p : List κ → α → β → Bool}

/-- `scan2'` from the root of two clean tries. -/
theorem scan2'_clean {t₁ : Trie κ α} {t₂ : Trie κ β} (h₁ : Clean t₁) (h₂ : Clean t₂) :
    scan2' b trieErr listErr p [] t₁ t₂ = .ok b ↔ keys t₁ = keys t₂ ∧
      ∀ e ∈ (entries t₁).zip (entries t₂), p e.1.1 e.1.2 e.2.2 = b := by
  rw [scan2'_eq_ok_iff, sameShape_iff_keys h₁ h₂]
  refine and_congr_right fun hk => ?_
  rw [zipEntries_eq_zip ((sameShape_iff_keys h₁ h₂).2 hk), List.forall_mem_map]
  simp

/-- On clean tries `for_all2 p` is true exactly when the tries have the same keys and `p` holds
of every pair of bindings at the same key, and `exists2 p` is false exactly when they have the
same keys and `p` holds of no such pair. -/
theorem forAll2_exists2_clean (p : List κ → α → β → Bool) {t₁ : Trie κ α} {t₂ : Trie κ β}
    (h₁ : Clean t₁) (h₂ : Clean t₂) :
    (forAll2 p t₁ t₂ = .ok true ↔ keys t₁ = keys t₂ ∧
      ∀ e ∈ (entries t₁).zip (entries t₂), p e.1.1 e.1.2 e.2.2 = true) ∧
    (exists2 p t₁ t₂ = .ok false ↔ keys t₁ = keys t₂ ∧
      ∀ e ∈ (entries t₁).zip (entries t₂), p e.1.1 e.1.2 e.2.2 = false) :=
  ⟨scan2'_clean h₁ h₂, scan2'_clean h₁ h₂⟩

/-- `for_all2` and `exists2` on two clean tries with the keys `[1]` and `[2]`, whose values at
each key are in increasing order. -/
theorem forAll2_exists2_clean_lt :
    forAll2 (fun _ a b => decide (a < b)) (.node [(1, .leaf 2), (2, .leaf 3)] : Trie Nat Nat)
        (.node [(1, .leaf 5), (2, .leaf 7)]) = .ok true ∧
      exists2 (fun _ a b => decide (b < a)) (.node [(1, .leaf 2), (2, .leaf 3)] : Trie Nat Nat)
        (.node [(1, .leaf 5), (2, .leaf 7)]) = .ok false := by
  have hc : ∀ x y : Nat, Clean (.node [(1, .leaf x), (2, .leaf y)] : Trie Nat Nat) :=
    fun x y => .node _ (by simp) (by simp [OrdMap.Sorted]) (by simp) (by simp [Clean.leaf])
  exact ⟨(forAll2_exists2_clean _ (hc 2 3) (hc 5 7)).1.2 ⟨rfl, by decide⟩,
    (forAll2_exists2_clean _ (hc 2 3) (hc 5 7)).2.2 ⟨rfl, by decide⟩⟩

end Clean

end Trie
end Kind2
