import Mathlib
import Kind2.Lib.OrdMap

/-!
# Tries over ordered keys

`src/utils/trie.ml` implements dictionaries whose keys are lists, over a map `M` of the
list elements (`Map.Make (Ord)`). A value is stored at a leaf only: a key that is a proper
prefix of another key cannot be bound, and `add` raises `Invalid_argument "add"` when asked
to. IC3 keeps its frames of clauses in such tries, keyed by the sorted literals of each
clause (`src/ic3/clause.ml:422`), and uses `subsume` and `is_subsumed` for subset
subsumption between clauses.

The map `M` is `OrdMap`, the sorted list of its bindings. `Trie.entries` lists the bindings
of a trie structurally, and `bindings_eq_entries` shows that `bindings`, which folds over
the trie as the source does, computes it. `WF` says that every map of the trie is sorted,
`Clean` that moreover no node is empty and no child is `Empty`.
-/

namespace Kind2

/-- A trie (`'a t`, `src/utils/trie.ml:86`): an inner node maps list elements to subtries,
a leaf holds the value of the key that leads to it. -/
inductive Trie (κ α : Type) where
  | node (m : List (κ × Trie κ α))
  | leaf (v : α)
  | empty

namespace Trie

variable {κ α : Type}

/-! ## Operations -/

/-- `is_empty` (`src/utils/trie.ml:99`). -/
def isEmpty : Trie κ α → Bool
  | empty => true
  | node m => m.isEmpty
  | leaf _ => false

section
variable [LinearOrder κ]

/-- `find` (`src/utils/trie.ml:106`), with `none` for `Not_found`. -/
def find : List κ → Trie κ α → Option α
  | _, empty => none
  | [], node _ => none
  | _ :: _, leaf _ => none
  | [], leaf v => some v
  | h :: tl, node m => (OrdMap.find? h m).bind (find tl)

/-- `add` (`src/utils/trie.ml:165`): insert a binding, failing when the key would go below
a leaf or end at an inner node. -/
def add : List κ → α → Trie κ α → Except String (Trie κ α)
  | [], v, empty | [], v, leaf _ => .ok (leaf v)
  | _ :: _, _, leaf _ | [], _, node _ => .error "add"
  | h :: tl, v, empty => do
    let t ← add tl v empty
    pure (node (OrdMap.add h t []))
  | h :: tl, v, node m => do
    let t' := (OrdMap.find? h m).getD empty
    let t'' ← add tl v t'
    pure (node (OrdMap.add h t'' m))

/-- `remove` (`src/utils/trie.ml:202`): remove a binding, pruning the subtries that become
empty. -/
def remove : List κ → Trie κ α → Trie κ α
  | [], leaf _ => empty
  | _, empty => empty
  | _ :: _, leaf v => leaf v
  | [], node m => node m
  | h :: tl, node m =>
    match OrdMap.find? h m with
    | none => node m
    | some c =>
      let t' := remove tl c
      let m' := if t'.isEmpty then OrdMap.remove h m else OrdMap.add h t' m
      if m'.isEmpty then empty else node m'

end

mutual
/-- `fold'` of `fold` (`src/utils/trie.ml:287`): the path to the current subtrie is kept
reversed in `revp`. -/
def fold' {β : Type} (f : List κ → α → β → β) (revp : List κ) : Trie κ α → β → β
  | node m, acc => foldChildren f revp m acc
  | leaf v, acc => f revp.reverse v acc
  | empty, acc => acc

/-- `M.fold (fun x -> fold' (x :: revp)) m acc`. -/
def foldChildren {β : Type} (f : List κ → α → β → β) (revp : List κ) :
    List (κ × Trie κ α) → β → β
  | [], acc => acc
  | (k, t) :: rest, acc => foldChildren f revp rest (fold' f (k :: revp) t acc)
end

/-- `fold` (`src/utils/trie.ml:287`): fold over the bindings in increasing key order. -/
def fold {β : Type} (f : List κ → α → β → β) (t : Trie κ α) (acc : β) : β := fold' f [] t acc

/-- `bindings` (`src/utils/trie.ml:361`). -/
def bindings (t : Trie κ α) : List (List κ × α) :=
  (fold (fun k v a => (k, v) :: a) t []).reverse

/-- `keys` (`src/utils/trie.ml:357`). -/
def keys (t : Trie κ α) : List (List κ) :=
  (fold (fun k _ a => k :: a) t []).reverse

/-! ## The bindings of a trie -/

mutual
/-- The bindings of a trie, keys relative to its root, children in the order of their map. -/
def entries : Trie κ α → List (List κ × α)
  | node m => entriesChildren m
  | leaf v => [([], v)]
  | empty => []

/-- The bindings below the children of a node. -/
def entriesChildren : List (κ × Trie κ α) → List (List κ × α)
  | [] => []
  | (k, t) :: rest => (entries t).map (fun e => (k :: e.1, e.2)) ++ entriesChildren rest
end

@[simp] theorem entries_node (m : List (κ × Trie κ α)) : entries (node m) = entriesChildren m := by
  rw [entries]
@[simp] theorem entries_leaf (v : α) : entries (leaf v : Trie κ α) = [([], v)] := by rw [entries]
@[simp] theorem entries_empty : entries (empty : Trie κ α) = [] := by rw [entries]

theorem mem_entriesChildren {k : List κ} {v : α} : ∀ {m : List (κ × Trie κ α)},
    (k, v) ∈ entriesChildren m ↔ ∃ h r c, k = h :: r ∧ (h, c) ∈ m ∧ (r, v) ∈ entries c
  | [] => by simp [entriesChildren]
  | (h, c) :: rest => by
    rw [entriesChildren, List.mem_append, mem_entriesChildren]
    constructor
    · rintro (hm | ⟨h', r, c', rfl, hc', hr⟩)
      · obtain ⟨⟨r, v'⟩, hr, he⟩ := List.mem_map.mp hm
        cases he
        exact ⟨h, r, c, rfl, List.mem_cons_self .., hr⟩
      · exact ⟨h', r, c', rfl, List.mem_cons_of_mem _ hc', hr⟩
    · rintro ⟨h', r, c', rfl, hc', hr⟩
      rcases List.mem_cons.mp hc' with he | hc'
      · cases he
        exact .inl (List.mem_map.mpr ⟨(r, v), hr, rfl⟩)
      · exact .inr ⟨h', r, c', rfl, hc', hr⟩

/-- Induction over tries, with a hypothesis for every child of a node. -/
@[elab_as_elim]
theorem induct' {motive : Trie κ α → Prop} (hempty : motive empty) (hleaf : ∀ v, motive (leaf v))
    (hnode : ∀ m, (∀ p ∈ m, motive p.2) → motive (node m)) : ∀ t, motive t
  | empty => hempty
  | leaf v => hleaf v
  | node m => hnode m fun p _ => induct' hempty hleaf hnode p.2
decreasing_by
  have := List.sizeOf_lt_of_mem ‹p ∈ m›
  obtain ⟨k, c⟩ := p
  simp only [Prod.mk.sizeOf_spec] at this
  simp_wf
  omega

section
variable {β : Type} (f : List κ → α → β → β)

/-- `fold'` applies `f` to the bindings in order, their keys extended by the path. -/
theorem fold'_eq : ∀ (t : Trie κ α) (revp : List κ) (acc : β),
    fold' f revp t acc = (entries t).foldl (fun a e => f (revp.reverse ++ e.1) e.2 a) acc := by
  intro t
  induction t using induct' with
  | hempty => intro revp acc; simp [fold']
  | hleaf v => intro revp acc; simp [fold']
  | hnode m ih =>
    intro revp acc
    rw [fold', entries_node]
    induction m generalizing acc with
    | nil => simp [foldChildren, entriesChildren]
    | cons p rest ihm =>
      obtain ⟨k, c⟩ := p
      rw [foldChildren, entriesChildren, List.foldl_append, List.foldl_map,
        ihm (fun p hp => ih p (List.mem_cons_of_mem _ hp)), ih (k, c) (List.mem_cons_self ..)]
      simp

end

/-- `bindings` lists the bindings structurally. -/
theorem bindings_eq_entries (t : Trie κ α) : bindings t = entries t := by
  have h : ∀ (l : List (List κ × α)) (acc : List (List κ × α)),
      l.foldl (fun a e => ([].reverse ++ e.1, e.2) :: a) acc = l.reverse ++ acc := by
    intro l acc
    simp
  rw [bindings, fold, fold'_eq, h, List.append_nil, List.reverse_reverse]

/-- `keys` lists the keys of the bindings structurally. -/
theorem keys_eq_map_entries (t : Trie κ α) : keys t = (entries t).map Prod.fst := by
  have h : ∀ (l : List (List κ × α)) (acc : List (List κ)),
      l.foldl (fun a e => ([].reverse ++ e.1) :: a) acc = (l.map Prod.fst).reverse ++ acc := by
    intro l acc
    simp
  rw [keys, fold, fold'_eq, h, List.append_nil, List.reverse_reverse]

/-! ## Well-formed tries -/

variable [LinearOrder κ]

/-- Every map of the trie is sorted, as the balanced trees of `Map.Make` are. -/
inductive WF : Trie κ α → Prop
  | empty : WF empty
  | leaf (v : α) : WF (leaf v)
  | node (m : List (κ × Trie κ α)) : OrdMap.Sorted m → (∀ p ∈ m, WF p.2) → WF (node m)

/-- The shape that `add` and `remove` keep: the maps are sorted, no node has an empty map,
and no child is `Empty`. -/
inductive Clean : Trie κ α → Prop
  | empty : Clean empty
  | leaf (v : α) : Clean (leaf v)
  | node (m : List (κ × Trie κ α)) : m ≠ [] → OrdMap.Sorted m →
      (∀ p ∈ m, p.2 ≠ Trie.empty) → (∀ p ∈ m, Clean p.2) → Clean (node m)

/-- The node `remove` rebuilds, `Empty` when its map became empty. -/
theorem WF.collapse {m : List (κ × Trie κ α)} (hs : OrdMap.Sorted m) (hch : ∀ p ∈ m, WF p.2) :
    WF (if m.isEmpty then Trie.empty else Trie.node m) := by
  split
  · exact .empty
  · exact .node m hs hch

theorem Clean.collapse {m : List (κ × Trie κ α)} (hs : OrdMap.Sorted m)
    (hne : ∀ p ∈ m, p.2 ≠ Trie.empty) (hch : ∀ p ∈ m, Clean p.2) :
    Clean (if m.isEmpty then Trie.empty else Trie.node m) := by
  split
  · exact .empty
  · rename_i hm
    exact .node m (by simpa using hm) hs hne hch

theorem Clean.wf : ∀ {t : Trie κ α}, Clean t → WF t
  | _, .empty => .empty
  | _, .leaf v => .leaf v
  | _, .node m _ hs _ hc => .node m hs fun p hp => (hc p hp).wf

/-- A clean trie other than `Empty` has a binding. -/
theorem Clean.entries_ne_nil {t : Trie κ α} (hc : Clean t) (ht : t ≠ Trie.empty) :
    entries t ≠ [] := by
  induction t using induct' with
  | hempty => exact absurd rfl ht
  | hleaf v => simp
  | hnode m ih =>
    cases hc with
    | node _ hne _ hne' hch =>
      obtain ⟨⟨k, c⟩, hp⟩ := List.exists_mem_of_ne_nil m hne
      obtain ⟨⟨r, v⟩, hr⟩ := List.exists_mem_of_ne_nil _ (ih _ hp (hch _ hp) (hne' _ hp))
      have hmem : (k :: r, v) ∈ entries (Trie.node m) := by
        rw [entries_node, mem_entriesChildren]
        exact ⟨k, r, c, rfl, hp, hr⟩
      exact List.ne_nil_of_mem hmem

/-! ## `find` -/

/-- In a well-formed trie `find` returns exactly the bound values. -/
theorem find_eq_some_iff {v : α} : ∀ {k : List κ} {t : Trie κ α}, WF t →
    (find k t = some v ↔ (k, v) ∈ entries t)
  | [], _, .empty => by simp [find]
  | [], _, .leaf w => by simp [find, eq_comm]
  | [], _, .node m _ _ => by
    simp only [find, entries_node, mem_entriesChildren, reduceCtorEq, false_iff]
    rintro ⟨h, r, c, hk, -⟩
    cases hk
  | _ :: _, _, .empty => by simp [find]
  | _ :: _, _, .leaf w => by simp [find]
  | h :: tl, _, .node m hs hch => by
    rw [find, entries_node, mem_entriesChildren]
    constructor
    · intro hf
      obtain ⟨c, hc, hfc⟩ := Option.bind_eq_some_iff.mp hf
      have hmem := OrdMap.mem_of_find? hc
      exact ⟨h, tl, c, rfl, hmem, (find_eq_some_iff (hch _ hmem)).mp hfc⟩
    · rintro ⟨h', r, c, hk, hmem, hr⟩
      cases hk
      rw [OrdMap.find?_of_mem hs hmem, Option.bind_some]
      exact (find_eq_some_iff (hch _ hmem)).mpr hr

@[simp] theorem find_empty (k : List κ) : find k (empty : Trie κ α) = none := by
  cases k <;> rfl

@[simp] theorem find_nil_node (m : List (κ × Trie κ α)) : find [] (node m) = none := rfl

theorem find_cons_node (h : κ) (r : List κ) (m : List (κ × Trie κ α)) :
    find (h :: r) (node m) = (OrdMap.find? h m).bind (find r) := rfl

/-- The child `add` descends into, `Empty` when there is none. -/
theorem find_getD_empty (r : List κ) (o : Option (Trie κ α)) :
    find r (o.getD empty) = o.bind (find r) := by
  cases o <;> simp

theorem find_of_isEmpty {t : Trie κ α} (h : t.isEmpty = true) (k : List κ) : find k t = none := by
  cases t with
  | empty => simp
  | leaf v => simp [isEmpty] at h
  | node m =>
    rw [isEmpty, List.isEmpty_iff] at h
    subst h
    cases k <;> rfl

/-- `remove` collapses a node whose map became empty; `find` cannot tell the difference. -/
theorem find_collapse (k : List κ) (m : List (κ × Trie κ α)) :
    find k (if m.isEmpty then empty else node m) = find k (node m) := by
  split
  · rename_i h
    rw [List.isEmpty_iff] at h
    subst h
    cases k <;> rfl
  · rfl

@[simp] theorem find_node_nil (k : List κ) : find k (node [] : Trie κ α) = none := by
  cases k <;> rfl

theorem WF.child {m : List (κ × Trie κ α)} (hwf : WF (Trie.node m)) (h : κ) :
    WF ((OrdMap.find? h m).getD Trie.empty) := by
  cases hwf with
  | node _ _ hch =>
    cases hc : OrdMap.find? h m with
    | none => exact .empty
    | some c => exact hch _ (OrdMap.mem_of_find? hc)

theorem Clean.child {m : List (κ × Trie κ α)} (hc : Clean (Trie.node m)) (h : κ) :
    Clean ((OrdMap.find? h m).getD Trie.empty) := by
  cases hc with
  | node _ _ _ _ hch =>
    cases hf : OrdMap.find? h m with
    | none => exact .empty
    | some c => exact hch _ (OrdMap.mem_of_find? hf)

/-! ## `add` -/

section
variable {v : α}

/-- Adding into `Empty` is adding into a node without children. -/
theorem add_cons_empty (h : κ) (tl : List κ) :
    add (h :: tl) v (empty : Trie κ α) = add (h :: tl) v (node []) := by
  simp [add]

theorem add_cons_node_eq_ok {h : κ} {tl : List κ} {m : List (κ × Trie κ α)} {t' : Trie κ α} :
    add (h :: tl) v (node m) = .ok t' ↔
      ∃ c, add tl v ((OrdMap.find? h m).getD empty) = .ok c ∧ t' = node (OrdMap.add h c m) := by
  simp only [add]
  cases add tl v ((OrdMap.find? h m).getD empty) with
  | error e => simp [bind, Except.bind]
  | ok c =>
    simp only [bind, Except.bind, pure, Except.pure, Except.ok.injEq]
    exact ⟨fun he => ⟨c, rfl, he.symm⟩, fun ⟨_, hc, he⟩ => by cases hc; exact he.symm⟩

theorem add_ne_empty : ∀ {l : List κ} {t t' : Trie κ α}, add l v t = .ok t' → t' ≠ empty
  | [], .empty, _, he | [], .leaf _, _, he => by
    simp only [add, Except.ok.injEq] at he
    subst he
    simp
  | [], .node _, _, he | _ :: _, .leaf _, _, he => by simp [add] at he
  | _ :: _, .empty, _, he => by
    rw [add_cons_empty] at he
    obtain ⟨c, -, rfl⟩ := add_cons_node_eq_ok.mp he
    simp
  | _ :: _, .node _, _, he => by
    obtain ⟨c, -, rfl⟩ := add_cons_node_eq_ok.mp he
    simp

/-- One step of `add` below a node, given what `add` does on the rest of the key. -/
theorem add_cons_node_spec {h : κ} {tl : List κ} {m : List (κ × Trie κ α)} {t' : Trie κ α}
    (ih : ∀ {t t' : Trie κ α}, WF t → add tl v t = .ok t' →
      WF t' ∧ ∀ k, find k t' = if k = tl then some v else find k t)
    (hwf : WF (node m)) (he : add (h :: tl) v (node m) = .ok t') :
    WF t' ∧ ∀ k, find k t' = if k = h :: tl then some v else find k (node m) := by
  obtain ⟨c, hc, rfl⟩ := add_cons_node_eq_ok.mp he
  obtain ⟨hwfc, hfc⟩ := ih (hwf.child h) hc
  cases hwf with
  | node _ hs hch =>
  refine ⟨.node _ (OrdMap.sorted_add h c hs) fun p hp => ?_, fun k => ?_⟩
  · rcases OrdMap.mem_add hp with rfl | hp
    · exact hwfc
    · exact hch p hp
  · cases k with
    | nil => simp
    | cons h' r =>
      rw [find_cons_node, find_cons_node, OrdMap.find?_add]
      by_cases hh : h' = h
      · subst hh
        simp [hfc r, find_getD_empty]
      · simp [hh]

/-- `add` binds the key to the value, keeps every other binding, and keeps the maps sorted. -/
theorem add_spec : ∀ {l : List κ} {t t' : Trie κ α}, WF t → add l v t = .ok t' →
    WF t' ∧ ∀ k, find k t' = if k = l then some v else find k t
  | [], .empty, _, _, he | [], .leaf _, _, _, he => by
    simp only [add, Except.ok.injEq] at he
    subst he
    refine ⟨.leaf v, fun k => ?_⟩
    cases k <;> simp [find]
  | [], .node _, _, _, he | _ :: _, .leaf _, _, _, he => by simp [add] at he
  | _ :: tl, .empty, _, _, he => by
    rw [add_cons_empty] at he
    simpa using add_cons_node_spec (add_spec (l := tl)) (.node [] .nil (by simp)) he
  | _ :: tl, .node _, _, hwf, he => add_cons_node_spec (add_spec (l := tl)) hwf he

/-- `add` keeps a trie clean. -/
theorem add_clean : ∀ {l : List κ} {t t' : Trie κ α}, Clean t → add l v t = .ok t' → Clean t'
  | [], .empty, _, _, he | [], .leaf _, _, _, he => by
    simp only [add, Except.ok.injEq] at he
    subst he
    exact .leaf v
  | [], .node _, _, _, he | _ :: _, .leaf _, _, _, he => by simp [add] at he
  | h :: tl, .empty, _, _, he => by
    rw [add_cons_empty] at he
    obtain ⟨c, hc, rfl⟩ := add_cons_node_eq_ok.mp he
    have hcc := add_clean .empty (by simpa using hc)
    refine .node _ (by simp [OrdMap.add]) (by simp [OrdMap.add, OrdMap.Sorted]) ?_ ?_ <;>
      simp only [OrdMap.add, List.mem_singleton, forall_eq]
    · exact add_ne_empty hc
    · exact hcc
  | h :: tl, .node m, t', hcl, he => by
    obtain ⟨c, hc, rfl⟩ := add_cons_node_eq_ok.mp he
    have hcc := add_clean (hcl.child h) hc
    cases hcl with
    | node _ _ hs hne hch =>
    have hmem : (h, c) ∈ OrdMap.add h c m :=
      OrdMap.mem_of_find? (by rw [OrdMap.find?_add, if_pos rfl])
    refine .node _ (List.ne_nil_of_mem hmem) (OrdMap.sorted_add h c hs) ?_ ?_
    · intro p hp
      rcases OrdMap.mem_add hp with rfl | hp
      · exact add_ne_empty hc
      · exact hne p hp
    · intro p hp
      rcases OrdMap.mem_add hp with rfl | hp
      · exact hcc
      · exact hch p hp

theorem add_empty_ok : ∀ l : List κ, ∃ t', add l v (empty : Trie κ α) = .ok t'
  | [] => ⟨leaf v, rfl⟩
  | h :: tl => by
    obtain ⟨c, hc⟩ := add_empty_ok tl
    refine ⟨node (OrdMap.add h c []), ?_⟩
    rw [add_cons_empty, add_cons_node_eq_ok]
    exact ⟨c, hc, rfl⟩

/-- `add` succeeds on a clean trie when no bound key is a proper prefix of the new key and
the new key is no proper prefix of a bound key. -/
theorem add_ok : ∀ {l : List κ} {t : Trie κ α}, Clean t →
    (∀ e ∈ entries t, ¬ (e.1 <+: l ∧ e.1 ≠ l) ∧ ¬ (l <+: e.1 ∧ l ≠ e.1)) →
    ∃ t', add l v t = .ok t'
  | [], .empty, _, _ | [], .leaf _, _, _ => ⟨leaf v, rfl⟩
  | [], .node m, hcl, hpre => by
    obtain ⟨e, he⟩ := List.exists_mem_of_ne_nil _ (hcl.entries_ne_nil (by simp))
    obtain ⟨h, r, c, hk, -⟩ := mem_entriesChildren.mp (show (e.1, e.2) ∈ _ from he)
    exact absurd ⟨List.nil_prefix, by simp [hk]⟩ (hpre e he).2
  | _ :: _, .empty, _, _ => add_empty_ok _
  | h :: tl, .leaf w, _, hpre => by
    exact absurd ⟨List.nil_prefix, by simp⟩ (hpre ([], w) (by simp)).1
  | h :: tl, .node m, hcl, hpre => by
    have hsub : ∀ e ∈ entries ((OrdMap.find? h m).getD empty),
        ¬ (e.1 <+: tl ∧ e.1 ≠ tl) ∧ ¬ (tl <+: e.1 ∧ tl ≠ e.1) := by
      intro e he
      cases hf : OrdMap.find? h m with
      | none => simp [hf] at he
      | some c =>
        rw [hf, Option.getD_some] at he
        have hmem : (h :: e.1, e.2) ∈ entries (node m) := by
          rw [entries_node, mem_entriesChildren]
          exact ⟨h, e.1, c, rfl, OrdMap.mem_of_find? hf, he⟩
        simpa [List.cons_prefix_cons] using hpre _ hmem
    obtain ⟨c, hc⟩ := add_ok (hcl.child h) hsub
    exact ⟨_, add_cons_node_eq_ok.mpr ⟨c, hc, rfl⟩⟩

end

/-! ## `remove` -/

/-- `remove` unbinds the key, keeps every other binding, and keeps the maps sorted. -/
theorem remove_spec : ∀ {l : List κ} {t : Trie κ α}, WF t →
    WF (remove l t) ∧ ∀ k, find k (remove l t) = if k = l then none else find k t
  | [], .empty, _ => ⟨.empty, by simp [remove]⟩
  | [], .leaf w, _ => ⟨.empty, fun k => by cases k <;> simp [remove, find]⟩
  | [], .node m, hwf => ⟨hwf, fun k => by cases k <;> simp [remove]⟩
  | _ :: _, .empty, _ => ⟨.empty, by simp [remove]⟩
  | _ :: _, .leaf w, _ => ⟨.leaf w, fun k => by split <;> simp_all [remove, find]⟩
  | h :: tl, .node m, hwf => by
    cases hf : OrdMap.find? h m with
    | none =>
      simp only [remove, hf]
      refine ⟨hwf, fun k => ?_⟩
      split
      · rename_i hk
        subst hk
        simp [find_cons_node, hf]
      · rfl
    | some c =>
      cases hwf with
      | node _ hs hch =>
      obtain ⟨hwfr, hfr⟩ := remove_spec (l := tl) (hch _ (OrdMap.mem_of_find? hf))
      simp only [remove, hf]
      by_cases he : (remove tl c).isEmpty
      · -- the emptied child is dropped from the map
        rw [if_pos he]
        refine ⟨.collapse (OrdMap.sorted_remove h hs) fun p hp => hch p (OrdMap.mem_remove hp),
          fun k => ?_⟩
        rw [find_collapse]
        cases k with
        | nil => simp
        | cons h' r =>
          rw [find_cons_node, find_cons_node, OrdMap.find?_remove _ _ hs]
          by_cases hh : h' = h
          · subst hh
            have hr := hfr r
            rw [find_of_isEmpty he] at hr
            by_cases hrt : r = tl
            · simp [hrt]
            · rw [if_neg hrt] at hr
              simp [hrt, hf, ← hr]
          · simp [hh]
      · -- the child is replaced
        rw [if_neg he]
        refine ⟨.collapse (OrdMap.sorted_add h _ hs) fun p hp => ?_, fun k => ?_⟩
        · rcases OrdMap.mem_add hp with rfl | hp
          · exact hwfr
          · exact hch p hp
        · rw [find_collapse]
          cases k with
          | nil => simp
          | cons h' r =>
            rw [find_cons_node, find_cons_node, OrdMap.find?_add]
            by_cases hh : h' = h
            · subst hh
              simp [hfr r, hf]
            · simp [hh]

/-- `remove` keeps a trie clean. -/
theorem remove_clean : ∀ {l : List κ} {t : Trie κ α}, Clean t → Clean (remove l t)
  | [], .empty, _ | [], .leaf _, _ => .empty
  | [], .node _, hcl => hcl
  | _ :: _, .empty, _ => .empty
  | _ :: _, .leaf w, _ => .leaf w
  | h :: tl, .node m, hcl => by
    cases hf : OrdMap.find? h m with
    | none => simpa [remove, hf] using hcl
    | some c =>
      cases hcl with
      | node _ _ hs hne hch =>
      have hcr := remove_clean (l := tl) (hch _ (OrdMap.mem_of_find? hf))
      simp only [remove, hf]
      by_cases he : (remove tl c).isEmpty
      · rw [if_pos he]
        exact .collapse (OrdMap.sorted_remove h hs) (fun p hp => hne p (OrdMap.mem_remove hp))
          fun p hp => hch p (OrdMap.mem_remove hp)
      · rw [if_neg he]
        refine .collapse (OrdMap.sorted_add h _ hs) ?_ ?_
        · intro p hp
          rcases OrdMap.mem_add hp with rfl | hp
          · intro hp
            rw [show remove tl c = empty from hp] at he
            exact he rfl
          · exact hne p hp
        · intro p hp
          rcases OrdMap.mem_add hp with rfl | hp
          · exact hcr
          · exact hch p hp

/-! ## Order of the bindings -/

/-- The bindings of a well-formed trie are strictly increasing in the lexicographic order of
their keys; in particular no key is listed twice. -/
theorem entries_lex_sorted : ∀ {t : Trie κ α}, WF t →
    (entries t).Pairwise fun a b => List.Lex (· < ·) a.1 b.1 := by
  intro t
  induction t using induct' with
  | hempty => simp
  | hleaf v => simp
  | hnode m ih =>
    intro hwf
    cases hwf with
    | node _ hs hch =>
    rw [entries_node]
    induction m with
    | nil => simp [entriesChildren]
    | cons p rest ihm =>
      obtain ⟨k, c⟩ := p
      have hs' := List.pairwise_cons.mp hs
      rw [entriesChildren, List.pairwise_append, List.pairwise_map]
      refine ⟨?_, ihm (fun p hp => ih p (List.mem_cons_of_mem _ hp)) hs'.2
        (fun p hp => hch p (List.mem_cons_of_mem _ hp)), ?_⟩
      · exact (ih _ (List.mem_cons_self ..) (hch _ (List.mem_cons_self ..))).imp List.Lex.cons
      · intro a ha b hb
        obtain ⟨e, -, rfl⟩ := List.mem_map.mp ha
        obtain ⟨k', r, c', hk, hmem, -⟩ := mem_entriesChildren.mp (show (b.1, b.2) ∈ _ from hb)
        rw [hk]
        exact List.Lex.rel (hs'.1 _ hmem)

/-! ## Sequences of updates

IC3 changes a frame only through `add` and `remove` of clause keys. `lastValue k ops` is what
a finite map would hold for `k` after the updates `ops`: the value of the last update of `k`
when that is an add. -/

/-- An update of a trie. -/
inductive Op (κ α : Type) where
  | add (k : List κ) (v : α)
  | remove (k : List κ)

/-- The key an update touches. -/
def Op.key : Op κ α → List κ
  | .add k _ => k
  | .remove k => k

/-- The value an update leaves for its key. -/
def Op.value? : Op κ α → Option α
  | .add _ v => some v
  | .remove _ => none

/-- Apply an update with the source's `add` and `remove`. -/
def applyOp (t : Trie κ α) : Op κ α → Except String (Trie κ α)
  | .add k v => add k v t
  | .remove k => .ok (remove k t)

/-- Apply updates in order, starting from `empty`. -/
def run (ops : List (Op κ α)) : Except String (Trie κ α) :=
  ops.foldlM applyOp empty

/-- The value of the last update of `k`, if that update is an add. -/
def lastValue (k : List κ) (ops : List (Op κ α)) : Option α :=
  (ops.reverse.find? fun o => o.key = k).bind Op.value?

theorem run_append_singleton (ops : List (Op κ α)) (o : Op κ α) :
    run (ops ++ [o]) = (run ops).bind fun t => applyOp t o := by
  rw [run, List.foldlM_append]
  simp only [List.foldlM_cons, List.foldlM_nil, bind_pure]
  rfl

theorem lastValue_append_singleton (k : List κ) (ops : List (Op κ α)) (o : Op κ α) :
    lastValue k (ops ++ [o]) = if o.key = k then o.value? else lastValue k ops := by
  unfold lastValue
  by_cases h : o.key = k <;> simp [h]

/-- A key with a value was the key of an update. -/
theorem exists_op_of_lastValue {k : List κ} {v : α} {ops : List (Op κ α)}
    (h : lastValue k ops = some v) : ∃ o ∈ ops, o.key = k := by
  unfold lastValue at h
  obtain ⟨o, ho, -⟩ := Option.bind_eq_some_iff.mp h
  exact ⟨o, List.mem_reverse.mp (List.mem_of_find?_eq_some ho),
    by simpa using List.find?_some ho⟩

/-- Updates of keys of which none is a proper prefix of another all succeed, keep the trie
clean, and leave it a finite map: `find` returns the last value of each key. -/
theorem run_spec (ops : List (Op κ α))
    (hpre : ∀ o₁ ∈ ops, ∀ o₂ ∈ ops, ¬ (o₁.key <+: o₂.key ∧ o₁.key ≠ o₂.key)) :
    ∃ t, run ops = .ok t ∧ Clean t ∧ ∀ k, find k t = lastValue k ops := by
  induction ops using List.reverseRec with
  | nil => exact ⟨empty, rfl, .empty, fun k => by simp [lastValue]⟩
  | append_singleton ops o ih =>
    have hsub : ∀ o' ∈ ops, o' ∈ ops ++ [o] := fun o' h => List.mem_append_left _ h
    obtain ⟨t, hrun, hcl, hfind⟩ :=
      ih fun o₁ h₁ o₂ h₂ => hpre o₁ (hsub o₁ h₁) o₂ (hsub o₂ h₂)
    rw [run_append_singleton, hrun]
    cases o with
    | add k v =>
      -- no bound key is a proper prefix of `k`, nor `k` of a bound key
      have hfree : ∀ e ∈ entries t, ¬ (e.1 <+: k ∧ e.1 ≠ k) ∧ ¬ (k <+: e.1 ∧ k ≠ e.1) := by
        intro e he
        have hv : lastValue e.1 ops = some e.2 := by
          rw [← hfind]
          exact (find_eq_some_iff hcl.wf).mpr he
        obtain ⟨o', ho', hkey⟩ := exists_op_of_lastValue hv
        have hlast : Op.add k v ∈ ops ++ [Op.add k v] := by simp
        exact ⟨hkey ▸ hpre o' (hsub o' ho') _ hlast, hkey ▸ hpre _ hlast o' (hsub o' ho')⟩
      obtain ⟨t', ht'⟩ := add_ok (v := v) hcl hfree
      obtain ⟨-, hfind'⟩ := add_spec hcl.wf ht'
      refine ⟨t', ht', add_clean hcl ht', fun k' => ?_⟩
      rw [hfind', lastValue_append_singleton, hfind]
      by_cases hk : k' = k
      · simp [hk, Op.key, Op.value?]
      · simp [hk, Op.key, Ne.symm hk]
    | remove k =>
      obtain ⟨-, hfind'⟩ := remove_spec (l := k) hcl.wf
      refine ⟨remove k t, rfl, remove_clean hcl, fun k' => ?_⟩
      rw [hfind', lastValue_append_singleton, hfind]
      by_cases hk : k' = k
      · simp [hk, Op.key, Op.value?]
      · simp [hk, Op.key, Ne.symm hk]

end Trie

end Kind2
