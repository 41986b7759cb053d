import Kind2.Utils.Trie
import Kind2.Lib.SortedList

/-!
# Subset subsumption in tries

IC3 keeps the clauses of a frame in a trie keyed by their sorted literals, and before adding
a clause it asks `is_subsumed` whether a clause of the frame is a subset of it, and removes
with `subsume` the clauses that it is a subset of (`src/ic3/IC3.ml:1848`). Both walk the trie
along the sorted key with `Map.split` (`src/utils/trie.ml:629`, `:706`).

For a well-formed trie whose keys strictly increase and a key `l` that strictly increases:

* `isSubsumed_iff`: `is_subsumed t l` holds iff a key of `t` is a subset of `l`;
* `subsume_fst_perm`: `subsume t l` returns the bindings whose key contains `l`;
* `mem_subsume_snd`: the trie it returns holds the other bindings;
* `add_subsume_snd_ok`: when `is_subsumed t l` fails, adding `l` to that trie succeeds.
-/

namespace Kind2
namespace Trie

open SortedList

variable {κ α : Type} [LinearOrder κ]

/-! ## The source functions -/

/-- `subsume'` of `subsume` (`src/utils/trie.ml:631`): collect into `accum` the bindings of
`t` whose key contains `s`, with the reversed path `revp` put in front of their keys, and
return the trie of the others. Left of the head `h` of `s` the whole of `s` is still to be
matched, below `h` only its tail, and right of `h` nothing can match. -/
def subsume' (accum : List (List κ × α)) (revp : List κ) :
    Trie κ α → List κ → List (List κ × α) × Trie κ α
  | t, [] => (fold (fun k v a => (revp.reverse ++ k, v) :: a) t accum, empty)
  | empty, _ :: _ => (accum, empty)
  | leaf v, _ :: _ => (accum, leaf v)
  | node m, h :: tl =>
    -- subsume below `h` and put the result into the right subtries
    let accmr : List (List κ × α) × List (κ × Trie κ α) :=
      match _hc : (OrdMap.split h m).2.1 with
      | none => (accum, (OrdMap.split h m).2.2)
      | some t =>
        let r := subsume' accum (h :: revp) t tl
        (r.1, OrdMap.add h r.2 (OrdMap.split h m).2.2)
    -- `M.fold` over the left subtries, in increasing key order, dropping emptied subtries
    let res := (OrdMap.split h m).1.attach.foldl
      (fun (acc : List (List κ × α) × List (κ × Trie κ α)) p =>
        let r := subsume' acc.1 (p.1.1 :: revp) p.1.2 (h :: tl)
        match r.2 with
        | empty => (r.1, acc.2)
        | _ => (r.1, OrdMap.add p.1.1 r.2 acc.2))
      accmr
    if res.2.isEmpty then (res.1, empty) else (res.1, node res.2)
termination_by t => sizeOf t
decreasing_by
  · have := List.sizeOf_lt_of_mem (OrdMap.mem_of_find? _hc)
    simp only [Prod.mk.sizeOf_spec] at this
    simp_wf
    omega
  · obtain ⟨⟨k, c⟩, hp⟩ := p
    have := List.sizeOf_lt_of_mem (List.mem_of_mem_filter hp)
    simp only [Prod.mk.sizeOf_spec] at this
    simp_wf
    omega

/-- `subsume` (`src/utils/trie.ml:629`). -/
def subsume (t : Trie κ α) (k : List κ) : List (List κ × α) × Trie κ α :=
  subsume' [] [] t k

/-- The weight of a work list: a pair with a key of length `n` weighs `3 ^ n`, and one step
replaces a pair by at most two pairs with a key one shorter. -/
def workWeight (w : List (Trie κ α × List κ)) : Nat :=
  (w.map fun p => 3 ^ p.2.length).sum

/-- `is_subsumed'` of `is_subsumed` (`src/utils/trie.ml:708`): a work list of subtries and
the part of the key still to be matched in them. -/
def isSubsumed' : List (Trie κ α × List κ) → Bool
  | [] => false
  | (empty, _) :: tl => isSubsumed' tl
  | (leaf _, _) :: _ => true
  | (node _, []) :: tl => isSubsumed' tl
  | (node m, h :: ktl) :: tl =>
    let tl' := if (OrdMap.split h m).2.2.isEmpty then tl
      else (node (OrdMap.split h m).2.2, ktl) :: tl
    let tl'' := match (OrdMap.split h m).2.1 with
      | none => tl'
      | some t => (t, ktl) :: tl'
    isSubsumed' tl''
termination_by w => workWeight w
decreasing_by
  all_goals simp only [workWeight, List.map_cons, List.sum_cons, List.length_cons, Nat.pow_succ]
  · exact Nat.lt_add_of_pos_left (Nat.pow_pos (by decide))
  · exact Nat.lt_add_of_pos_left (Nat.pow_pos (by decide))
  · have hpos : 0 < 3 ^ ktl.length := Nat.pow_pos (by decide)
    split <;> split <;> (try simp only [List.map_cons, List.sum_cons]) <;> omega

/-- `is_subsumed` (`src/utils/trie.ml:706`). -/
def isSubsumed (t : Trie κ α) (k : List κ) : Bool :=
  isSubsumed' [(t, k)]

/-! ## Keys that strictly increase -/

/-- Every key of the trie strictly increases, as the keys of IC3's clause tries do
(`mk_clause_of_literals` sorts the literals, `src/ic3/clause.ml:422`). -/
def KeysSorted (t : Trie κ α) : Prop := ∀ e ∈ entries t, StrictSorted e.1

theorem KeysSorted.child {m : List (κ × Trie κ α)} (hks : KeysSorted (node m)) {k : κ}
    {c : Trie κ α} (hc : (k, c) ∈ m) : KeysSorted c := by
  intro e he
  have hmem : (k :: e.1, e.2) ∈ entries (node m) := by
    rw [entries_node, mem_entriesChildren]
    exact ⟨k, e.1, c, rfl, hc, he⟩
  exact (hks _ hmem).of_cons

theorem KeysSorted.sub {m m' : List (κ × Trie κ α)} (hks : KeysSorted (node m))
    (hsub : ∀ p ∈ m', p ∈ m) : KeysSorted (node m') := by
  intro e he
  rw [entries_node, mem_entriesChildren] at he
  obtain ⟨k, r, c, hk, hc, hr⟩ := he
  refine hks e ?_
  rw [entries_node, mem_entriesChildren]
  exact ⟨k, r, c, hk, hsub _ hc, hr⟩

theorem WF.sub {m m' : List (κ × Trie κ α)} (hwf : WF (Trie.node m)) (hs : OrdMap.Sorted m')
    (hsub : ∀ p ∈ m', p ∈ m) : WF (Trie.node m') := by
  cases hwf with
  | node _ _ hch => exact .node m' hs fun p hp => hch p (hsub p hp)

/-! ## `is_subsumed` -/

/-- A key of `t` is a subset of `s`. -/
def Subsumes (t : Trie κ α) (s : List κ) : Prop := ∃ e ∈ entries t, e.1 ⊆ s

/-- What a pair of the work list must satisfy. -/
def WorkOK (p : Trie κ α × List κ) : Prop := WF p.1 ∧ KeysSorted p.1 ∧ StrictSorted p.2

omit [LinearOrder κ] in
theorem subsumes_node_nil (m : List (κ × Trie κ α)) : ¬ Subsumes (node m) [] := by
  rintro ⟨e, he, hsub⟩
  obtain ⟨k, r, c, hk, -⟩ := mem_entriesChildren.mp (show (e.1, e.2) ∈ _ from he)
  rw [hk] at hsub
  exact List.not_mem_nil (hsub List.mem_cons_self)

/-- One step of the work list: a key of the node is a subset of `h :: ktl` iff a key of its
right subtries is a subset of `ktl`, or a key below `h` is a subset of `ktl`. Keys of left
subtries start below `h` and so cannot be subsets. -/
theorem subsumes_node_cons_iff {m : List (κ × Trie κ α)} {h : κ} {ktl : List κ}
    (hwf : WF (node m)) (hks : KeysSorted (node m)) (hs : StrictSorted (h :: ktl)) :
    Subsumes (node m) (h :: ktl) ↔
      Subsumes (node (OrdMap.split h m).2.2) ktl ∨
        ∃ c, (OrdMap.split h m).2.1 = some c ∧ Subsumes c ktl := by
  cases hwf with
  | node _ hsm _ =>
  constructor
  · rintro ⟨⟨key, v⟩, he, hsub⟩
    obtain ⟨k, r, c, rfl, hc, hr⟩ := mem_entriesChildren.mp (show (key, v) ∈ _ from he)
    have hkr : StrictSorted (k :: r) := hks _ he
    rcases lt_trichotomy k h with hlt | rfl | hgt
    · exact absurd (hsub List.mem_cons_self) (not_mem_of_lt_head hs hlt)
    · exact .inr ⟨c, OrdMap.find?_of_mem hsm hc, (r, v), hr, (cons_subset_cons_iff hkr).mp hsub⟩
    · refine .inl ⟨(k :: r, v), ?_, (subset_cons_iff_of_lt hkr hgt).mp hsub⟩
      rw [entries_node, mem_entriesChildren]
      exact ⟨k, r, c, rfl, List.mem_filter.mpr ⟨hc, by simpa using hgt⟩, hr⟩
  · rintro (⟨e, he, hsub⟩ | ⟨c, hc, e, he, hsub⟩)
    · obtain ⟨k, r, c, hk, hc, hr⟩ := mem_entriesChildren.mp (show (e.1, e.2) ∈ _ from he)
      refine ⟨e, ?_, List.Subset.trans hsub (List.subset_cons_self _ _)⟩
      rw [entries_node, mem_entriesChildren]
      exact ⟨k, r, c, hk, List.mem_of_mem_filter hc, hr⟩
    · refine ⟨(h :: e.1, e.2), ?_, List.cons_subset_cons _ hsub⟩
      rw [entries_node, mem_entriesChildren]
      exact ⟨h, e.1, c, rfl, OrdMap.mem_of_find? hc, he⟩

/-- The pairs that one step puts on the work list satisfy the invariant. -/
theorem workOK_step {m : List (κ × Trie κ α)} {h : κ} {ktl : List κ}
    (hok : WorkOK (node m, h :: ktl)) :
    WorkOK (node (OrdMap.split h m).2.2, ktl) ∧
      ∀ c, (OrdMap.split h m).2.1 = some c → WorkOK (c, ktl) := by
  obtain ⟨hwf, hks, hs⟩ := hok
  have hsub : ∀ p ∈ (OrdMap.split h m).2.2, p ∈ m := fun p hp => List.mem_of_mem_filter hp
  cases hwf with
  | node _ hsm hch =>
  refine ⟨⟨(WF.node m hsm hch).sub (hsm.filter _) hsub, hks.sub hsub, hs.of_cons⟩, ?_⟩
  intro c hc
  have hmem := OrdMap.mem_of_find? hc
  exact ⟨hch _ hmem, hks.child hmem, hs.of_cons⟩

/-- `is_subsumed'` finds a pair of the work list whose trie has a key that is a subset of
the pair's key. -/
theorem isSubsumed'_iff (w : List (Trie κ α × List κ)) (hw : ∀ p ∈ w, WorkOK p) :
    isSubsumed' w = true ↔ ∃ p ∈ w, Subsumes p.1 p.2 := by
  induction w using isSubsumed'.induct with
  | case1 => simp [isSubsumed']
  | case2 s tl ih =>
    rw [isSubsumed', ih fun p hp => hw p (List.mem_cons_of_mem _ hp)]
    simp [Subsumes]
  | case3 v s tl =>
    simp only [isSubsumed', true_iff]
    exact ⟨(leaf v, s), List.mem_cons_self, ([], v), by simp, List.nil_subset _⟩
  | case4 m tl ih =>
    rw [isSubsumed', ih fun p hp => hw p (List.mem_cons_of_mem _ hp)]
    simp [subsumes_node_nil]
  | case5 m h ktl tl tl' tl'' ih =>
    have hok := hw _ List.mem_cons_self
    have htl : ∀ p ∈ tl, WorkOK p := fun p hp => hw p (List.mem_cons_of_mem _ hp)
    obtain ⟨hokr, hokc⟩ := workOK_step hok
    rw [isSubsumed']
    -- the right subtries are queued only when there are any
    have hright : (∃ p ∈ tl', Subsumes p.1 p.2) ↔
        Subsumes (node (OrdMap.split h m).2.2) ktl ∨ ∃ p ∈ tl, Subsumes p.1 p.2 := by
      simp only [tl']
      split
      · rename_i he
        rw [List.isEmpty_iff.mp he]
        simp [Subsumes, entriesChildren]
      · simp
    have hright_ok : ∀ p ∈ tl', WorkOK p := by
      simp only [tl']
      split
      · exact htl
      · exact fun p hp => (List.mem_cons.mp hp).elim (· ▸ hokr) (htl p)
    have hok'' : ∀ p ∈ tl'', WorkOK p := by
      simp only [tl'']
      split
      · exact hright_ok
      · rename_i c hc
        exact fun p hp => (List.mem_cons.mp hp).elim (· ▸ hokc c hc) (hright_ok p)
    refine (ih hok'').trans ?_
    simp only [List.mem_cons, exists_eq_or_imp, subsumes_node_cons_iff hok.1 hok.2.1 hok.2.2, tl'']
    split
    · rename_i hc
      simp only [hright, hc, reduceCtorEq, false_and, exists_false, or_false]
    · rename_i c hc
      simp only [List.mem_cons, exists_eq_or_imp, hright, hc, Option.some.injEq, exists_eq_left']
      tauto

/-- `is_subsumed t l` holds iff a key of `t` is a subset of `l`. -/
theorem isSubsumed_iff {t : Trie κ α} {l : List κ} (hwf : WF t) (hks : KeysSorted t)
    (hl : StrictSorted l) : isSubsumed t l = true ↔ ∃ e ∈ entries t, e.1 ⊆ l := by
  rw [isSubsumed, isSubsumed'_iff _ (by simpa using ⟨hwf, hks, hl⟩)]
  simp [Subsumes]

/-! ## `subsume` -/

/-- The subtries below the head `h` of the key, merged into the right subtries. -/
def subsumeCenter (accum : List (List κ × α)) (revp : List κ) (h : κ) (tl : List κ)
    (m : List (κ × Trie κ α)) : List (List κ × α) × List (κ × Trie κ α) :=
  match (OrdMap.split h m).2.1 with
  | none => (accum, (OrdMap.split h m).2.2)
  | some t =>
    let r := subsume' accum (h :: revp) t tl
    (r.1, OrdMap.add h r.2 (OrdMap.split h m).2.2)

/-- The function that `subsume` folds over the left subtries. -/
def subsumeLeftStep (revp s : List κ) (acc : List (List κ × α) × List (κ × Trie κ α))
    (p : κ × Trie κ α) : List (List κ × α) × List (κ × Trie κ α) :=
  let r := subsume' acc.1 (p.1 :: revp) p.2 s
  match r.2 with
  | empty => (r.1, acc.2)
  | _ => (r.1, OrdMap.add p.1 r.2 acc.2)

/-- The node case of `subsume'`, with its two steps named. -/
theorem subsume'_node (accum : List (List κ × α)) (revp : List κ) (m : List (κ × Trie κ α))
    (h : κ) (tl : List κ) :
    subsume' accum revp (node m) (h :: tl) =
      let res := (OrdMap.split h m).1.foldl (subsumeLeftStep revp (h :: tl))
        (subsumeCenter accum revp h tl m)
      (res.1, if res.2.isEmpty then empty else node res.2) := by
  rw [subsume', List.foldl_subtype (g := subsumeLeftStep revp (h :: tl)) (fun _ _ _ => rfl),
    List.unattach_attach]
  simp only [subsumeCenter]
  split <;> split <;> simp_all

theorem subsume'_nil (accum : List (List κ × α)) (revp : List κ) (t : Trie κ α) :
    subsume' accum revp t [] =
      (((entries t).map fun e => (revp.reverse ++ e.1, e.2)).reverse ++ accum, empty) := by
  rw [subsume', fold, fold'_eq]
  simp

section
variable {revp s : List κ} {acc : List (List κ × α) × List (κ × Trie κ α)} {p : κ × Trie κ α}

theorem subsumeLeftStep_fst :
    (subsumeLeftStep revp s acc p).1 = (subsume' acc.1 (p.1 :: revp) p.2 s).1 := by
  unfold subsumeLeftStep
  dsimp only
  split <;> rfl

/-- An emptied left subtrie is dropped. -/
theorem subsumeLeftStep_snd_of_eq (he : (subsume' acc.1 (p.1 :: revp) p.2 s).2 = empty) :
    (subsumeLeftStep revp s acc p).2 = acc.2 := by
  unfold subsumeLeftStep
  dsimp only
  rw [he]

/-- Any other left subtrie is put back. -/
theorem subsumeLeftStep_snd_of_ne (he : (subsume' acc.1 (p.1 :: revp) p.2 s).2 ≠ empty) :
    (subsumeLeftStep revp s acc p).2 =
      OrdMap.add p.1 (subsume' acc.1 (p.1 :: revp) p.2 s).2 acc.2 := by
  unfold subsumeLeftStep
  dsimp only
  split
  · contradiction
  · rfl

end

/-- The left fold only binds keys of the left subtries. -/
theorem find?_foldl_subsumeLeftStep {revp s : List κ} {k : κ} :
    ∀ (L : List (κ × Trie κ α)) (acc : List (List κ × α) × List (κ × Trie κ α)),
      (∀ p ∈ L, p.1 ≠ k) →
      OrdMap.find? k (L.foldl (subsumeLeftStep revp s) acc).2 = OrdMap.find? k acc.2
  | [], _, _ => rfl
  | p :: L, acc, hL => by
    rw [List.foldl_cons,
      find?_foldl_subsumeLeftStep L _ fun q hq => hL q (List.mem_cons_of_mem _ hq)]
    by_cases he : (subsume' acc.1 (p.1 :: revp) p.2 s).2 = empty
    · rw [subsumeLeftStep_snd_of_eq he]
    · rw [subsumeLeftStep_snd_of_ne he, OrdMap.find?_add, if_neg (hL p List.mem_cons_self).symm]

/-! ### What `subsume` leaves in the trie -/

omit [LinearOrder κ] in
theorem entries_collapse (m : List (κ × Trie κ α)) :
    entries (if m.isEmpty then empty else node m) = entriesChildren m := by
  split
  · rename_i h
    rw [List.isEmpty_iff.mp h]
    simp [entriesChildren]
  · simp

/-- The bindings below a node after adding a fresh child. -/
theorem mem_entriesChildren_add {m : List (κ × Trie κ α)} {k : κ} {c : Trie κ α}
    {e : List κ × α} (hs : OrdMap.Sorted m) (hk : OrdMap.find? k m = none) :
    e ∈ entriesChildren (OrdMap.add k c m) ↔
      (∃ r, e.1 = k :: r ∧ (r, e.2) ∈ entries c) ∨ e ∈ entriesChildren m := by
  obtain ⟨key, v⟩ := e
  simp only [mem_entriesChildren, OrdMap.mem_add_iff hs]
  constructor
  · rintro ⟨h, r, c', rfl, (⟨rfl, rfl⟩ | ⟨hm, -⟩), hr⟩
    · exact .inl ⟨r, rfl, hr⟩
    · exact .inr ⟨h, r, c', rfl, hm, hr⟩
  · rintro (⟨r, rfl, hr⟩ | ⟨h, r, c', rfl, hm, hr⟩)
    · exact ⟨k, r, c, rfl, .inl ⟨rfl, rfl⟩, hr⟩
    · refine ⟨h, r, c', rfl, .inr ⟨hm, ?_⟩, hr⟩
      rintro rfl
      rw [OrdMap.find?_of_mem hs hm] at hk
      cases hk

/-- The bindings below a node, split at `h` as `Map.split` splits its map. -/
theorem mem_entriesChildren_split {m : List (κ × Trie κ α)} (h : κ) {e : List κ × α}
    (hs : OrdMap.Sorted m) :
    e ∈ entriesChildren m ↔
      (∃ k r c, e.1 = k :: r ∧ (k, c) ∈ (OrdMap.split h m).1 ∧ (r, e.2) ∈ entries c) ∨
      (∃ c r, (OrdMap.split h m).2.1 = some c ∧ e.1 = h :: r ∧ (r, e.2) ∈ entries c) ∨
      e ∈ entriesChildren (OrdMap.split h m).2.2 := by
  obtain ⟨key, v⟩ := e
  simp only [OrdMap.split, mem_entriesChildren (m := List.filter _ m), List.mem_filter,
    decide_eq_true_eq]
  constructor
  · rw [mem_entriesChildren]
    rintro ⟨k, r, c, rfl, hc, hr⟩
    rcases lt_trichotomy k h with hlt | rfl | hgt
    · exact .inl ⟨k, r, c, rfl, ⟨hc, hlt⟩, hr⟩
    · exact .inr (.inl ⟨c, r, OrdMap.find?_of_mem hs hc, rfl, hr⟩)
    · exact .inr (.inr ⟨k, r, c, rfl, ⟨hc, hgt⟩, hr⟩)
  · rw [mem_entriesChildren]
    rintro (⟨k, r, c, rfl, ⟨hc, -⟩, hr⟩ | ⟨c, r, hc, rfl, hr⟩ | ⟨k, r, c, rfl, ⟨hc, -⟩, hr⟩)
    · exact ⟨k, r, c, rfl, hc, hr⟩
    · exact ⟨h, r, c, rfl, OrdMap.mem_of_find? hc, hr⟩
    · exact ⟨k, r, c, rfl, hc, hr⟩

/-- `t'` holds exactly the bindings of `t` whose key does not contain `s`, in sorted maps. -/
def Rest (s : List κ) (t t' : Trie κ α) : Prop :=
  WF t' ∧ ∀ e, e ∈ entries t' ↔ e ∈ entries t ∧ ¬ s ⊆ e.1

/-- The empty key is contained in every key: `subsume'` with it leaves nothing. -/
theorem rest_subsume'_nil (accum : List (List κ × α)) (revp : List κ) (t : Trie κ α) :
    Rest [] t (subsume' accum revp t []).2 := by
  simp [subsume'_nil, Rest, WF.empty]

/-- One step of the left fold: the subtrie that is left of `p`, if any, joins the map. -/
theorem subsumeLeftStep_snd_spec {revp s : List κ} {acc : List (List κ × α) × List (κ × Trie κ α)}
    {p : κ × Trie κ α} (hp : Rest s p.2 (subsume' acc.1 (p.1 :: revp) p.2 s).2)
    (hs : OrdMap.Sorted acc.2) (hwf : ∀ q ∈ acc.2, WF q.2) (hk : ∀ q ∈ acc.2, p.1 ≠ q.1) :
    OrdMap.Sorted (subsumeLeftStep revp s acc p).2 ∧
      (∀ q ∈ (subsumeLeftStep revp s acc p).2, WF q.2) ∧
      (∀ q ∈ (subsumeLeftStep revp s acc p).2, q ∈ acc.2 ∨ q.1 = p.1) ∧
      ∀ e, e ∈ entriesChildren (subsumeLeftStep revp s acc p).2 ↔
        e ∈ entriesChildren acc.2 ∨ ∃ r, e.1 = p.1 :: r ∧ (r, e.2) ∈ entries p.2 ∧ ¬ s ⊆ r := by
  obtain ⟨hwfr, hr⟩ := hp
  by_cases he : (subsume' acc.1 (p.1 :: revp) p.2 s).2 = empty
  · rw [subsumeLeftStep_snd_of_eq he]
    refine ⟨hs, hwf, fun q hq => .inl hq, fun e => ?_⟩
    -- nothing of the subtrie is left
    have hnone : ¬ ∃ r, e.1 = p.1 :: r ∧ (r, e.2) ∈ entries p.2 ∧ ¬ s ⊆ r := by
      rintro ⟨r, -, hmem, hsub⟩
      have := (hr (r, e.2)).mpr ⟨hmem, hsub⟩
      rw [he] at this
      simp at this
    simp [hnone]
  · rw [subsumeLeftStep_snd_of_ne he]
    have hfind : OrdMap.find? p.1 acc.2 = none := OrdMap.find?_eq_none fun q hq => (hk q hq).symm
    refine ⟨OrdMap.sorted_add _ _ hs, fun q hq => ?_, fun q hq => ?_, fun e => ?_⟩
    · rcases OrdMap.mem_add hq with rfl | hq
      · exact hwfr
      · exact hwf q hq
    · rcases OrdMap.mem_add hq with rfl | hq
      · exact .inr rfl
      · exact .inl hq
    · rw [mem_entriesChildren_add hs hfind, or_comm]
      refine or_congr_right (exists_congr fun r => and_congr_right fun _ => ?_)
      exact hr (r, e.2)

/-- The left fold puts back what is left of every left subtrie. -/
theorem foldl_subsumeLeftStep_snd (revp s : List κ) :
    ∀ (L : List (κ × Trie κ α)) (acc : List (List κ × α) × List (κ × Trie κ α)),
      (∀ p ∈ L, ∀ accum, Rest s p.2 (subsume' accum (p.1 :: revp) p.2 s).2) → OrdMap.Sorted L →
      (∀ p ∈ L, ∀ q ∈ acc.2, p.1 ≠ q.1) → OrdMap.Sorted acc.2 → (∀ q ∈ acc.2, WF q.2) →
      OrdMap.Sorted (L.foldl (subsumeLeftStep revp s) acc).2 ∧
        (∀ q ∈ (L.foldl (subsumeLeftStep revp s) acc).2, WF q.2) ∧
        ∀ e, e ∈ entriesChildren (L.foldl (subsumeLeftStep revp s) acc).2 ↔
          e ∈ entriesChildren acc.2 ∨
            ∃ k r c, e.1 = k :: r ∧ (k, c) ∈ L ∧ (r, e.2) ∈ entries c ∧ ¬ s ⊆ r
  | [], acc, _, _, _, hs, hwf => ⟨hs, hwf, fun e => by simp⟩
  | p :: L, acc, hspec, hL, hdisj, hs, hwf => by
    obtain ⟨hs', hwf', hkeys', he'⟩ := subsumeLeftStep_snd_spec (hspec p List.mem_cons_self acc.1)
      hs hwf fun q hq => hdisj p List.mem_cons_self q hq
    have hdisj' : ∀ p' ∈ L, ∀ q ∈ (subsumeLeftStep revp s acc p).2, p'.1 ≠ q.1 := by
      intro p' hp' q hq
      rcases hkeys' q hq with hq | hq
      · exact hdisj p' (List.mem_cons_of_mem _ hp') q hq
      · rw [hq]
        exact ne_of_gt (List.rel_of_pairwise_cons hL hp')
    obtain ⟨hsr, hwfr, her⟩ := foldl_subsumeLeftStep_snd revp s L _
      (fun q hq => hspec q (List.mem_cons_of_mem _ hq)) hL.of_cons hdisj' hs' hwf'
    refine ⟨hsr, hwfr, fun e => ?_⟩
    rw [List.foldl_cons, her, he', or_assoc]
    refine or_congr_right ?_
    constructor
    · rintro (⟨r, hk, hr, hsub⟩ | ⟨k, r, c, hk, hc, hr, hsub⟩)
      · exact ⟨p.1, r, p.2, hk, List.mem_cons_self, hr, hsub⟩
      · exact ⟨k, r, c, hk, List.mem_cons_of_mem _ hc, hr, hsub⟩
    · rintro ⟨k, r, c, hk, hc, hr, hsub⟩
      rcases List.mem_cons.mp hc with rfl | hc
      · exact .inl ⟨r, hk, hr, hsub⟩
      · exact .inr ⟨k, r, c, hk, hc, hr, hsub⟩

/-- The center step puts back what is left below `h`. -/
theorem subsumeCenter_snd_spec (accum : List (List κ × α)) (revp : List κ) (h : κ)
    (tl : List κ) {m : List (κ × Trie κ α)} (hwf : WF (node m))
    (hc : ∀ c, (OrdMap.split h m).2.1 = some c → Rest tl c (subsume' accum (h :: revp) c tl).2) :
    OrdMap.Sorted (subsumeCenter accum revp h tl m).2 ∧
      (∀ q ∈ (subsumeCenter accum revp h tl m).2, WF q.2) ∧
      (∀ q ∈ (subsumeCenter accum revp h tl m).2, h ≤ q.1) ∧
      ∀ e, e ∈ entriesChildren (subsumeCenter accum revp h tl m).2 ↔
        (∃ c r, (OrdMap.split h m).2.1 = some c ∧ e.1 = h :: r ∧ (r, e.2) ∈ entries c ∧
          ¬ tl ⊆ r) ∨ e ∈ entriesChildren (OrdMap.split h m).2.2 := by
  cases hwf with
  | node _ hsm hch =>
  have hsr : OrdMap.Sorted (OrdMap.split h m).2.2 := hsm.filter _
  have hwfr : ∀ q ∈ (OrdMap.split h m).2.2, WF q.2 := fun q hq => hch q (List.mem_of_mem_filter hq)
  have hgtr : ∀ q ∈ (OrdMap.split h m).2.2, h < q.1 := fun q hq => by
    simpa using (List.mem_filter.mp hq).2
  unfold subsumeCenter
  split
  · rename_i hnone
    refine ⟨hsr, hwfr, fun q hq => (hgtr q hq).le, fun e => ?_⟩
    simp [hnone]
  · rename_i c hsome
    obtain ⟨hwfc, hrc⟩ := hc c hsome
    have hfind : OrdMap.find? h (OrdMap.split h m).2.2 = none :=
      OrdMap.find?_eq_none fun q hq => (hgtr q hq).ne'
    refine ⟨OrdMap.sorted_add _ _ hsr, fun q hq => ?_, fun q hq => ?_, fun e => ?_⟩
    · rcases OrdMap.mem_add hq with rfl | hq
      · exact hwfc
      · exact hwfr q hq
    · rcases OrdMap.mem_add hq with rfl | hq
      · exact le_rfl
      · exact (hgtr q hq).le
    · rw [mem_entriesChildren_add hsr hfind]
      refine or_congr_left ?_
      simp only [hsome, Option.some.injEq, hrc]
      constructor
      · rintro ⟨r, hk, hr, hsub⟩
        exact ⟨c, r, rfl, hk, hr, hsub⟩
      · rintro ⟨_, r, rfl, hk, hr, hsub⟩
        exact ⟨r, hk, hr, hsub⟩

/-- No key right of `h` contains the key `h :: tl`. -/
theorem not_subset_of_mem_right {m : List (κ × Trie κ α)} {h : κ} {tl : List κ}
    (hks : KeysSorted (node m)) {e : List κ × α}
    (he : e ∈ entriesChildren (OrdMap.split h m).2.2) : ¬ h :: tl ⊆ e.1 := by
  obtain ⟨k, r, c, hk, hc, hr⟩ := mem_entriesChildren.mp (show (e.1, e.2) ∈ _ from he)
  have hmem : (k :: r, e.2) ∈ entries (node m) := by
    rw [entries_node, mem_entriesChildren]
    exact ⟨k, r, c, rfl, List.mem_of_mem_filter hc, hr⟩
  rw [hk]
  exact not_cons_subset_of_lt (hks _ hmem) (by simpa using (List.mem_filter.mp hc).2)

/-- `subsume'` leaves exactly the bindings whose key does not contain `s`. -/
theorem subsume'_snd (t : Trie κ α) : ∀ (accum : List (List κ × α)) (revp s : List κ),
    WF t → KeysSorted t → StrictSorted s → Rest s t (subsume' accum revp t s).2 := by
  induction t using induct' with
  | hempty =>
    intro accum revp s _ _ _
    cases s with
    | nil => exact rest_subsume'_nil accum revp _
    | cons h tl => simp [subsume', Rest, WF.empty]
  | hleaf v =>
    intro accum revp s _ _ _
    cases s with
    | nil => exact rest_subsume'_nil accum revp _
    | cons h tl =>
      refine ⟨by rw [subsume']; exact .leaf v, fun e => ?_⟩
      rw [subsume']
      simp only [entries_leaf, List.mem_singleton]
      constructor
      · rintro rfl
        exact ⟨rfl, fun hsub => List.not_mem_nil (hsub List.mem_cons_self)⟩
      · exact fun he => he.1
  | hnode m ih =>
    intro accum revp s hwf hks hs
    cases s with
    | nil => exact rest_subsume'_nil accum revp _
    | cons h tl =>
    have hsm : OrdMap.Sorted m := by cases hwf; assumption
    have hchild : ∀ p ∈ m, WF p.2 ∧ KeysSorted p.2 := fun p hp =>
      ⟨by cases hwf with | node _ _ hch => exact hch p hp, hks.child hp⟩
    -- what is left below `h`, and in the subtries right of `h`
    obtain ⟨hsc, hwfc, hlec, hec⟩ := subsumeCenter_snd_spec accum revp h tl hwf fun c hc =>
        have hcm := OrdMap.mem_of_find? hc
        ih _ hcm accum (h :: revp) tl (hchild _ hcm).1 (hchild _ hcm).2 hs.of_cons
    -- what is left of the subtries left of `h`
    have hml : ∀ p ∈ (OrdMap.split h m).1, p.1 < h := fun p hp => by
      simpa using (List.mem_filter.mp hp).2
    obtain ⟨hsl, hwfl, hel⟩ := foldl_subsumeLeftStep_snd revp (h :: tl) (OrdMap.split h m).1
      (subsumeCenter accum revp h tl m)
      (fun p hp accum' =>
        have hpm := List.mem_of_mem_filter hp
        ih p hpm accum' _ _ (hchild p hpm).1 (hchild p hpm).2 hs)
      (hsm.filter _) (fun p hp q hq => (lt_of_lt_of_le (hml p hp) (hlec q hq)).ne) hsc hwfc
    rw [subsume'_node]
    refine ⟨.collapse hsl hwfl, fun e => ?_⟩
    rw [entries_collapse, hel, hec, entries_node, mem_entriesChildren_split h hsm]
    constructor
    · rintro ((⟨c, r, hc, hk, hr, hsub⟩ | hright) | ⟨k, r, c, hk, hc, hr, hsub⟩)
      · refine ⟨.inr (.inl ⟨c, r, hc, hk, hr⟩), ?_⟩
        have hkr : StrictSorted (h :: r) := hks _ (by
          rw [entries_node, mem_entriesChildren]
          exact ⟨h, r, c, rfl, OrdMap.mem_of_find? hc, hr⟩)
        rw [hk, cons_subset_cons_iff hs]
        exact hsub
      · exact ⟨.inr (.inr hright), not_subset_of_mem_right hks hright⟩
      · refine ⟨.inl ⟨k, r, c, hk, hc, hr⟩, ?_⟩
        rw [hk, subset_cons_iff_of_lt hs (hml _ hc)]
        exact hsub
    · rintro ⟨⟨k, r, c, hk, hc, hr⟩ | ⟨c, r, hc, hk, hr⟩ | hright, hsub⟩
      · rw [hk, subset_cons_iff_of_lt hs (hml _ hc)] at hsub
        exact .inr ⟨k, r, c, hk, hc, hr, hsub⟩
      · rw [hk, cons_subset_cons_iff hs] at hsub
        exact .inl (.inl ⟨c, r, hc, hk, hr, hsub⟩)
      · exact .inl (.inr hright)

/-! ### What `subsume` collects -/

/-- The bindings of `t` whose key contains `s`, their keys behind the path `revp`. -/
def collect (revp s : List κ) (t : Trie κ α) : List (List κ × α) :=
  ((entries t).filter fun e => decide (s ⊆ e.1)).map fun e => (revp.reverse ++ e.1, e.2)

/-- The bindings of the first child, keys extended by the child's key. -/
theorem collect_node_cons (revp s : List κ) (k : κ) (c : Trie κ α) (rest : List (κ × Trie κ α)) :
    collect revp s (node ((k, c) :: rest)) =
      (((entries c).filter fun e => decide (s ⊆ k :: e.1)).map
        fun e => ((k :: revp).reverse ++ e.1, e.2)) ++ collect revp s (node rest) := by
  simp only [collect, entries_node, entriesChildren, List.filter_append, List.map_append,
    List.filter_map, List.map_map]
  congr 1
  apply List.map_congr_left
  intro e _
  simp

/-- Nothing right of `h` is collected. -/
theorem collect_node_of_gt (revp tl : List κ) {h : κ} {m : List (κ × Trie κ α)}
    (hks : KeysSorted (node m)) (hgt : ∀ p ∈ m, h < p.1) :
    collect revp (h :: tl) (node m) = [] := by
  rw [collect, List.map_eq_nil_iff, List.filter_eq_nil_iff]
  intro e he
  obtain ⟨k, r, c, hk, hc, -⟩ := mem_entriesChildren.mp (show (e.1, e.2) ∈ _ from he)
  rw [decide_eq_true_eq, hk]
  exact not_cons_subset_of_lt (hk ▸ hks e he) (hgt _ hc)

/-- What a node collects, split as `Map.split` splits its map: the whole key is matched in
the left subtries, its tail below `h`. -/
theorem collect_node_split {revp tl : List κ} {h : κ} :
    ∀ {m : List (κ × Trie κ α)}, OrdMap.Sorted m → KeysSorted (node m) → StrictSorted (h :: tl) →
      collect revp (h :: tl) (node m) =
        (OrdMap.split h m).1.flatMap (fun p => collect (p.1 :: revp) (h :: tl) p.2) ++
          (((OrdMap.split h m).2.1.map (collect (h :: revp) tl)).getD [])
  | [], _, _, _ => by simp [collect, OrdMap.split, entriesChildren]
  | (k, c) :: rest, hsm, hks, hs => by
    have hrest : ∀ p ∈ rest, k < p.1 := fun p hp => List.rel_of_pairwise_cons hsm hp
    have hks' : KeysSorted (node rest) := hks.sub fun p hp => List.mem_cons_of_mem _ hp
    simp only [OrdMap.split] at *
    rw [collect_node_cons]
    rcases lt_trichotomy k h with hlt | rfl | hgt
    · -- a left subtrie: the whole key is matched in it
      have hfilt : ((entries c).filter fun e => decide (h :: tl ⊆ k :: e.1)) =
          (entries c).filter fun e => decide (h :: tl ⊆ e.1) := by
        apply List.filter_congr
        intro e _
        exact decide_eq_decide.mpr (subset_cons_iff_of_lt hs hlt)
      rw [collect_node_split hsm.of_cons hks' hs, List.filter_cons_of_pos (by simpa using hlt),
        OrdMap.find?_cons, if_neg hlt.ne', List.flatMap_cons, hfilt, ← List.append_assoc]
      rfl
    · -- the subtrie below `h`: its tail is matched, and nothing right of it is collected
      have hfilt : ((entries c).filter fun e => decide (k :: tl ⊆ k :: e.1)) =
          (entries c).filter fun e => decide (tl ⊆ e.1) := by
        apply List.filter_congr
        intro e _
        exact decide_eq_decide.mpr (cons_subset_cons_iff hs)
      have hnil : rest.filter (fun b => decide (b.1 < k)) = [] :=
        List.filter_eq_nil_iff.mpr fun p hp => by simpa using (hrest p hp).le
      rw [collect_node_of_gt revp tl hks' hrest, List.filter_cons_of_neg (by simp), hnil,
        OrdMap.find?_cons, if_pos rfl, hfilt]
      simp [collect]
    · -- a right subtrie, and everything after it: nothing is collected
      have hall : ∀ p ∈ (k, c) :: rest, h < p.1 := by
        intro p hp
        rcases List.mem_cons.mp hp with rfl | hp
        · exact hgt
        · exact lt_trans hgt (hrest p hp)
      have hnil := collect_node_of_gt revp tl hks hall
      have hleft : ((k, c) :: rest).filter (fun b => decide (b.1 < h)) = [] :=
        List.filter_eq_nil_iff.mpr fun p hp => by simpa using (hall p hp).le
      rw [collect_node_cons] at hnil
      rw [hnil, hleft, OrdMap.find?_eq_none fun p hp => (hall p hp).ne']
      simp

/-- The left fold collects what every left subtrie collects. -/
theorem foldl_subsumeLeftStep_fst (revp s : List κ) :
    ∀ (L : List (κ × Trie κ α)) (acc : List (List κ × α) × List (κ × Trie κ α)),
      (∀ p ∈ L, ∀ accum,
        (subsume' accum (p.1 :: revp) p.2 s).1.Perm (collect (p.1 :: revp) s p.2 ++ accum)) →
      (L.foldl (subsumeLeftStep revp s) acc).1.Perm
        (L.flatMap (fun p => collect (p.1 :: revp) s p.2) ++ acc.1)
  | [], _, _ => by simp
  | p :: L, acc, hspec => by
    have ih := foldl_subsumeLeftStep_fst revp s L (subsumeLeftStep revp s acc p)
      fun q hq => hspec q (List.mem_cons_of_mem _ hq)
    rw [subsumeLeftStep_fst] at ih
    rw [List.foldl_cons, List.flatMap_cons, List.append_assoc]
    refine ih.trans ((List.Perm.append_left _ (hspec p List.mem_cons_self acc.1)).trans ?_)
    rw [← List.append_assoc, ← List.append_assoc]
    exact List.perm_append_comm.append_right _

/-- With the empty key every binding is collected. -/
theorem subsume'_nil_fst (accum : List (List κ × α)) (revp : List κ) (t : Trie κ α) :
    (subsume' accum revp t []).1.Perm (collect revp [] t ++ accum) := by
  have hall : collect revp [] t = (entries t).map fun e => (revp.reverse ++ e.1, e.2) := by
    simp [collect]
  rw [subsume'_nil, hall]
  exact (List.reverse_perm _).append_right _

/-- `subsume'` collects, into `accum`, the bindings whose key contains `s`. -/
theorem subsume'_fst (t : Trie κ α) : ∀ (accum : List (List κ × α)) (revp s : List κ),
    WF t → KeysSorted t → StrictSorted s →
      (subsume' accum revp t s).1.Perm (collect revp s t ++ accum) := by
  induction t using induct' with
  | hempty =>
    intro accum revp s _ _ _
    cases s with
    | nil => exact subsume'_nil_fst accum revp _
    | cons h tl => simp [subsume', collect]
  | hleaf v =>
    intro accum revp s _ _ _
    cases s with
    | nil => exact subsume'_nil_fst accum revp _
    | cons h tl => simp [subsume', collect]
  | hnode m ih =>
    intro accum revp s hwf hks hs
    cases s with
    | nil => exact subsume'_nil_fst accum revp _
    | cons h tl =>
    have hsm : OrdMap.Sorted m := by cases hwf; assumption
    have hchild : ∀ p ∈ m, WF p.2 ∧ KeysSorted p.2 := fun p hp =>
      ⟨by cases hwf with | node _ _ hch => exact hch p hp, hks.child hp⟩
    have hcenter : (subsumeCenter accum revp h tl m).1.Perm
        ((((OrdMap.split h m).2.1.map (collect (h :: revp) tl)).getD []) ++ accum) := by
      unfold subsumeCenter
      split
      · rename_i hnone
        simp [hnone]
      · rename_i c hsome
        have hcm := OrdMap.mem_of_find? hsome
        simpa [hsome] using
          ih _ hcm accum (h :: revp) tl (hchild _ hcm).1 (hchild _ hcm).2 hs.of_cons
    have hleft := foldl_subsumeLeftStep_fst revp (h :: tl) (OrdMap.split h m).1
      (subsumeCenter accum revp h tl m) fun p hp accum' =>
        have hpm := List.mem_of_mem_filter hp
        ih p hpm accum' _ _ (hchild p hpm).1 (hchild p hpm).2 hs
    rw [subsume'_node, collect_node_split hsm hks hs, List.append_assoc]
    exact hleft.trans (.append_left _ hcenter)

/-! ### Adding the key after `subsume` -/

/-- After `subsume'` with key `s`, no subtrie sits where `s` ends, so `s` can be added unless
a bound key is a prefix of `s`. -/
theorem add_subsume'_ok {v : α} (t : Trie κ α) : ∀ (accum : List (List κ × α)) (revp s : List κ),
    (∀ e ∈ entries t, ¬ e.1 <+: s) → ∃ t', add s v (subsume' accum revp t s).2 = .ok t' := by
  induction t using induct' with
  | hempty =>
    intro accum revp s _
    cases s with
    | nil => exact ⟨leaf v, by rw [subsume'_nil]; rfl⟩
    | cons h tl => simpa [subsume'] using add_empty_ok (v := v) (h :: tl)
  | hleaf w =>
    intro accum revp s hpre
    cases s with
    | nil => exact ⟨leaf v, by rw [subsume'_nil]; rfl⟩
    | cons h tl => exact absurd List.nil_prefix (hpre ([], w) (by simp))
  | hnode m ih =>
    intro accum revp s hpre
    cases s with
    | nil => exact ⟨leaf v, by rw [subsume'_nil]; rfl⟩
    | cons h tl =>
    rw [subsume'_node]
    dsimp only
    split
    · exact add_empty_ok _
    · -- below `h` sits what is left of the old subtrie below `h`, or nothing
      have hml : ∀ p ∈ (OrdMap.split h m).1, p.1 ≠ h := fun p hp =>
        (by simpa using (List.mem_filter.mp hp).2 : p.1 < h).ne
      obtain ⟨c', hc'⟩ : ∃ c', add tl v
          ((OrdMap.find? h (subsumeCenter accum revp h tl m).2).getD empty) = .ok c' := by
        unfold subsumeCenter
        split
        · rw [OrdMap.find?_eq_none fun p hp =>
            (by simpa using (List.mem_filter.mp hp).2 : h < p.1).ne']
          exact add_empty_ok tl
        · rename_i c hsome
          rw [OrdMap.find?_add, if_pos rfl, Option.getD_some]
          have hcm := OrdMap.mem_of_find? hsome
          refine ih _ hcm accum (h :: revp) tl fun e he hpe => hpre (h :: e.1, e.2) ?_
            (List.cons_prefix_cons.mpr ⟨rfl, hpe⟩)
          rw [entries_node, mem_entriesChildren]
          exact ⟨h, e.1, c, rfl, hcm, he⟩
      refine ⟨_, add_cons_node_eq_ok.mpr ⟨c', ?_, rfl⟩⟩
      rw [find?_foldl_subsumeLeftStep _ _ hml]
      exact hc'

/-! ## `subsume` and `is_subsumed` on a trie -/

section
variable {t : Trie κ α} {l : List κ}

/-- `subsume t l` returns the bindings of `t` whose key contains `l`. -/
theorem subsume_fst_perm (hwf : WF t) (hks : KeysSorted t) (hl : StrictSorted l) :
    (subsume t l).1.Perm ((entries t).filter fun e => decide (l ⊆ e.1)) := by
  simpa [subsume, collect] using subsume'_fst t [] [] l hwf hks hl

/-- The trie that `subsume t l` returns holds the bindings of `t` whose key does not
contain `l`. -/
theorem mem_subsume_snd (hwf : WF t) (hks : KeysSorted t) (hl : StrictSorted l)
    (e : List κ × α) : e ∈ entries (subsume t l).2 ↔ e ∈ entries t ∧ ¬ l ⊆ e.1 :=
  (subsume'_snd t [] [] l hwf hks hl).2 e

/-- When no key of `t` is a subset of `l`, `l` can be added after `subsume t l`. -/
theorem add_subsume_snd_ok (hwf : WF t) (hks : KeysSorted t) (hl : StrictSorted l)
    (hns : isSubsumed t l = false) (v : α) : ∃ t', add l v (subsume t l).2 = .ok t' := by
  refine add_subsume'_ok t [] [] l fun e he hpre => ?_
  have hsub : isSubsumed t l = true := (isSubsumed_iff hwf hks hl).mpr ⟨e, he, hpre.subset⟩
  rw [hns] at hsub
  cases hsub

end

/-! ## Frames of clauses -/

/-- The trie of a run of updates on strictly increasing keys of which none is a proper
prefix of another is a clean finite map, its bindings in strictly increasing order, and
`is_subsumed` and `subsume` are subset subsumption on it. -/
theorem run_subsume_spec (ops : List (Op κ α)) (hsorted : ∀ o ∈ ops, StrictSorted o.key)
    (hpre : ∀ o₁ ∈ ops, ∀ o₂ ∈ ops, ¬ (o₁.key <+: o₂.key ∧ o₁.key ≠ o₂.key)) :
    ∃ t, run ops = .ok t ∧ Clean t ∧
      (∀ k, find k t = lastValue k ops) ∧
      (∀ k v, (k, v) ∈ bindings t ↔ lastValue k ops = some v) ∧
      (bindings t).Pairwise (fun a b => List.Lex (· < ·) a.1 b.1) ∧
      ∀ l, StrictSorted l →
        (isSubsumed t l = true ↔ ∃ e ∈ bindings t, e.1 ⊆ l) ∧
        (subsume t l).1.Perm ((bindings t).filter fun e => decide (l ⊆ e.1)) ∧
        (∀ k v, (k, v) ∈ bindings (subsume t l).2 ↔ (k, v) ∈ bindings t ∧ ¬ l ⊆ k) ∧
        (isSubsumed t l = false → ∀ v, ∃ t', add l v (subsume t l).2 = .ok t') := by
  obtain ⟨t, hrun, hcl, hfind⟩ := run_spec ops hpre
  have hwf := hcl.wf
  have hmem : ∀ k v, (k, v) ∈ entries t ↔ lastValue k ops = some v := fun k v => by
    rw [← find_eq_some_iff hwf, hfind]
  -- every bound key is the key of an update, so it strictly increases
  have hks : KeysSorted t := by
    intro e he
    obtain ⟨o, ho, hkey⟩ := exists_op_of_lastValue ((hmem e.1 e.2).mp he)
    exact hkey ▸ hsorted o ho
  refine ⟨t, hrun, hcl, hfind, fun k v => ?_, ?_, fun l hl => ⟨?_, ?_, fun k v => ?_, ?_⟩⟩
  · rw [bindings_eq_entries, hmem]
  · rw [bindings_eq_entries]
    exact entries_lex_sorted hwf
  · rw [bindings_eq_entries]
    exact isSubsumed_iff hwf hks hl
  · rw [bindings_eq_entries]
    exact subsume_fst_perm hwf hks hl
  · rw [bindings_eq_entries, bindings_eq_entries]
    exact mem_subsume_snd hwf hks hl (k, v)
  · exact add_subsume_snd_ok hwf hks hl

/-- Two clauses added to a frame, then the first removed. -/
def sampleUpdates : List (Op Nat Unit) := [.add [1, 2] (), .add [3] (), .remove [1, 2]]

theorem run_subsume_spec_sampleUpdates :
    (∀ o ∈ sampleUpdates, StrictSorted o.key) ∧
    (∀ o₁ ∈ sampleUpdates, ∀ o₂ ∈ sampleUpdates, ¬ (o₁.key <+: o₂.key ∧ o₁.key ≠ o₂.key)) ∧
    ∃ t, run sampleUpdates = .ok t ∧ Clean t ∧
      (∀ k, find k t = lastValue k sampleUpdates) ∧
      (∀ k v, (k, v) ∈ bindings t ↔ lastValue k sampleUpdates = some v) ∧
      (bindings t).Pairwise (fun a b => List.Lex (· < ·) a.1 b.1) ∧
      ∀ l, StrictSorted l →
        (isSubsumed t l = true ↔ ∃ e ∈ bindings t, e.1 ⊆ l) ∧
        (subsume t l).1.Perm ((bindings t).filter fun e => decide (l ⊆ e.1)) ∧
        (∀ k v, (k, v) ∈ bindings (subsume t l).2 ↔ (k, v) ∈ bindings t ∧ ¬ l ⊆ k) ∧
        (isSubsumed t l = false → ∀ v, ∃ t', add l v (subsume t l).2 = .ok t') :=
  ⟨by decide, by decide, run_subsume_spec sampleUpdates (by decide) (by decide)⟩

end Trie
end Kind2
