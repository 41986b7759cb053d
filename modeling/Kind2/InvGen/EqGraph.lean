import Kind2.Lib.OrdMap
import Kind2.Lib.Machine

/-!
# The equality graph of invariant generation

`InvGenGraph.MakeEq(Dom)` (`src/invgen/invGenGraph.ml:1208`) keeps candidate equalities between
terms as equivalence classes: a hash table binding each representative to the other terms of its
class. `stabilize` asks the lock-step driver for a model falsifying one of the candidates
(`terms_of`) and splits every class by the values its terms take in the model
(`model_stabilize`), until no model is found. `split` keeps the representative with the terms of
its value and makes the first term of every other value, in the order of the term set, the
representative of a new class. `drop_class_member` forgets a term once its equality with the
representative is proved invariant.

The hash table is the sorted list of its bindings (`OrdMap`), so its folds run in key order; term
sets are finite sets, iterated in increasing order as `Set.iter` does. The domain is a type of
values with decidable equality, and a model is the evaluation `eval` of the terms in it.

`InClass graph t r` says that `t` is the representative `r` of a class or a member of its class.
What the graph keeps (`Inv`) is that the covered terms are each in exactly one class, and that
every class agrees with its representative on every model seen. Splitting a class keeps this,
makes the class agree with the new model and refines the graph (`inv_split`): its classes lie in
those of the graph, whose representatives stay (`Refines`). Stabilizing on a model does it for
every class (`inv_modelStabilize`), and dropping a member covers one term less
(`inv_dropClassMember`); so does any run of both (`inv_applyOps`).

A model falsifying a candidate of `terms_of` separates a member from its representative, so the
round adds a class (`Refines.length_lt`); as there are at most as many classes as terms,
`stabilize` halts against a sound driver, with every class agreeing in every base model
(`stabilize_terminates`). The members `equalities_of` pairs with the representative or a smaller
member, so dropping those of the equalities proved invariant leaves each term joined to one that
stays (`dropClassMembers_joined`).
-/

namespace Kind2
namespace InvGen

open OrdMap (find? add)

/-- `MakeEq(Dom).graph`: each representative bound to its class. -/
abbrev EqGraph (T : Type) := List (T × Finset T)

namespace MakeEq

variable {T V : Type} [LinearOrder T]

/-! ## The graph operations -/

/-- `mk term set`: the one class `set`, represented by `term`. -/
def mk (term : T) (set : Finset T) : EqGraph T := add term set []

/-- `term_count graph`. Each class counts the number of classes of the graph plus one: the class
itself is not counted. -/
def termCount (graph : EqGraph T) : Nat :=
  OrdMap.fold (fun _ _ sum => sum + graph.length + 1) graph 0

/-- `class_count`, the `Map.length` of the graph. -/
def classCount (graph : EqGraph T) : Nat := graph.length

/-- `is_stale graph`: every class is its representative alone. -/
def isStale (graph : EqGraph T) : Bool := termCount graph == classCount graph

/-- `drop_class_member graph rep term`; a representative without a class is only logged. -/
def dropClassMember (graph : EqGraph T) (rep term : T) : EqGraph T :=
  match find? rep graph with
  | some set => add rep (set.erase term) graph
  | none => graph

/-- The local `add rep term` of `split`. -/
def addMember (graph : EqGraph T) (rep term : T) : EqGraph T :=
  add rep (insert term ((find? rep graph).getD ∅)) graph

section Split

variable [DecidableEq V]

/-- The body of the `Set.iter` of `split`: a term joins the class of the representative of its
value, or represents a new class. -/
def splitStep (eval : T → V) (acc : List (V × T) × EqGraph T) (term : T) :
    List (V × T) × EqGraph T :=
  match acc.1.find? fun b => decide (b.1 = eval term) with
  | some b => (acc.1, addMember acc.2 b.2 term)
  | none => ((eval term, term) :: acc.1, add term ∅ acc.2)

/-- The local `split graph rep set eval` of `stabilize`. -/
def split (graph : EqGraph T) (rep : T) (set : Finset T) (eval : T → V) : EqGraph T :=
  (set.sort.foldl (splitStep eval) ([(eval rep, rep)], add rep ∅ graph)).2

/-- The local `model_stabilize graph eval`: the bindings, collected first, split in turn. -/
def modelStabilize (graph : EqGraph T) (eval : T → V) : EqGraph T :=
  (OrdMap.fold (fun rep set acc => (rep, set) :: acc) graph []).foldl
    (fun g b => split g b.1 b.2 eval) graph

/-- `terms_of graph known`: the equality of every member with its representative, but the
`known` ones. -/
def termsOf (mkEq : T → T → T) (graph : EqGraph T) (known : T → Bool) : List T :=
  OrdMap.fold (fun rep set acc => set.sort.foldl
    (fun acc term => if known (mkEq rep term) then acc else mkEq rep term :: acc) acc) graph []

/-- The local `cond_cons l cand info` of `equalities_of`: the candidate with the representative
and the term to drop if it is invariant, but a `known` candidate. -/
def condCons (known : T → Bool) (l : List (T × (T × T))) (cand : T) (info : T × T) :
    List (T × (T × T)) :=
  if known cand then l else (cand, info) :: l

/-- The local `loop rep pref suff terms` of `equalities_of`: the equality of the representative
with a term goes to `pref`, those of the term with the later ones to `suff`, each with the later
term to drop. -/
def equalitiesLoop (mkEq : T → T → T) (known : T → Bool) (rep : T) :
    List (T × (T × T)) → List (T × (T × T)) → List T → List (T × (T × T))
  | pref, suff, term :: tail =>
    equalitiesLoop mkEq known rep (condCons known pref (mkEq rep term) (rep, term))
      (tail.foldl (fun suff term' => condCons known suff (mkEq term term') (rep, term')) suff)
      tail
  | pref, suff, [] => pref.reverse ++ suff

/-- `equalities_of graph known`: in a class of fewer than ten members the equalities of all its
terms with one another, in a larger one those of the members with the representative. -/
def equalitiesOf (mkEq : T → T → T) (graph : EqGraph T) (known : T → Bool) :
    List (T × (T × T)) :=
  OrdMap.fold (fun rep terms acc =>
    if terms.card < 10 then equalitiesLoop mkEq known rep [] acc terms.sort
    else terms.sort.foldl (fun acc term => condCons known acc (mkEq rep term) (rep, term)) acc)
    graph []

/-- The client function of `controlled_find_invariants` in `InvGen.main`: the member of every
equality proved invariant is dropped from its class. -/
def dropClassMembers (graph : EqGraph T) (invs : List (T × (T × T))) : EqGraph T :=
  invs.foldl (fun graph inv => dropClassMember graph inv.2.1 inv.2.2) graph

/-- One round of the local `loop` of `stabilize`: a model falsifying a candidate splits the graph,
and no model ends the loop. -/
def stabilizeStep {M : Type} (mkEq : T → T → T) (hasCex : List T → Option M)
    (evalOf : M → T → V) (known : T → Bool) (graph : EqGraph T) :
    Machine.Step (EqGraph T) (EqGraph T) Empty :=
  match hasCex (termsOf mkEq graph known) with
  | none => .halt graph
  | some model => .next (modelStabilize graph (evalOf model))

/-- `stabilize graph sys known base`, run for at most `fuel` rounds, with `hasCex` for the query
of the lock-step driver and `evalOf` for `Domain.eval sys`. -/
def stabilize {M : Type} (fuel : Nat) (mkEq : T → T → T) (hasCex : List T → Option M)
    (evalOf : M → T → V) (known : T → Bool) (graph : EqGraph T) :
    Option (Except Empty (EqGraph T)) :=
  Machine.run (stabilizeStep mkEq hasCex evalOf known) fuel graph

end Split

/-! ## Classes -/

/-- `t` is the representative `r` of a class of the graph, or a member of its class. -/
def InClass (graph : EqGraph T) (t r : T) : Prop :=
  ∃ set, find? r graph = some set ∧ (t = r ∨ t ∈ set)

/-- What the graph keeps: its bindings sorted, every covered term in exactly one class, and every
class agreeing with its representative on every model seen. -/
structure Inv (S : Finset T) (seen : List (T → V)) (graph : EqGraph T) : Prop where
  sorted : OrdMap.Sorted graph
  cover : ∀ t, t ∈ S ↔ ∃ r, InClass graph t r
  unique : ∀ {t r r'}, InClass graph t r → InClass graph t r' → r = r'
  agree : ∀ e ∈ seen, ∀ {t r}, InClass graph t r → e t = e r

theorem inClass_self {graph : EqGraph T} {r : T} {set : Finset T} (h : find? r graph = some set) :
    InClass graph r r :=
  ⟨set, h, .inl rfl⟩

theorem inClass_member {graph : EqGraph T} {r t : T} {set : Finset T}
    (h : find? r graph = some set) (ht : t ∈ set) : InClass graph t r :=
  ⟨set, h, .inr ht⟩

/-- A representative is in no other class. -/
theorem Inv.eq_of_key {S : Finset T} {seen : List (T → V)} {graph : EqGraph T}
    (h : Inv S seen graph) {t r : T} {set : Finset T} (ht : find? t graph = some set)
    (htr : InClass graph t r) : t = r :=
  h.unique (inClass_self ht) htr

theorem inClass_mk {rep t r : T} {cands : Finset T} :
    InClass (mk rep cands) t r ↔ r = rep ∧ (t = rep ∨ t ∈ cands) := by
  simp only [InClass, mk, OrdMap.find?_add, OrdMap.find?_nil]
  constructor
  · rintro ⟨set, hset, ht⟩
    split_ifs at hset with hr
    · cases hset
      subst hr
      exact ⟨rfl, ht⟩
  · rintro ⟨rfl, ht⟩
    exact ⟨cands, if_pos rfl, ht⟩

/-- `mk rep cands` covers the representative and the candidates, and has seen no model. -/
theorem inv_mk (rep : T) (cands : Finset T) :
    Inv (insert rep cands) ([] : List (T → V)) (mk rep cands) where
  sorted := List.pairwise_singleton _ _
  cover t := by
    simp only [Finset.mem_insert, inClass_mk]
    exact ⟨fun ht => ⟨rep, rfl, ht⟩, fun ⟨_, _, ht⟩ => ht⟩
  unique h h' := (inClass_mk.1 h).1.trans (inClass_mk.1 h').1.symm
  agree _ h := absurd h List.not_mem_nil

/-- The representative of a class is in it. -/
theorem InClass.rep {graph : EqGraph T} {t r : T} (h : InClass graph t r) : InClass graph r r := by
  obtain ⟨set, hr, -⟩ := h
  exact inClass_self hr

theorem mem_keys_iff {graph : EqGraph T} {k : T} :
    k ∈ graph.map Prod.fst ↔ ∃ set, find? k graph = some set := by
  rw [← Option.ne_none_iff_exists', Ne, OrdMap.find?_eq_none_iff, not_not]

theorem length_eq_card_keys {graph : EqGraph T} (hs : OrdMap.Sorted graph) :
    graph.length = (graph.map Prod.fst).toFinset.card := by
  rw [List.toFinset_card_of_nodup ((List.pairwise_map.2 hs).imp ne_of_lt), List.length_map]

/-- The representatives are distinct covered terms. -/
theorem Inv.length_le {S : Finset T} {seen : List (T → V)} {graph : EqGraph T}
    (h : Inv S seen graph) : graph.length ≤ S.card := by
  rw [length_eq_card_keys h.sorted]
  refine Finset.card_le_card fun r hr => ?_
  obtain ⟨set, hset⟩ := mem_keys_iff.1 (List.mem_toFinset.1 hr)
  exact (h.cover r).2 ⟨r, inClass_self hset⟩

/-- `graph'` refines `graph`: it keeps the representatives of `graph`, and each of its classes lies
within a class of `graph`. -/
structure Refines (graph' graph : EqGraph T) : Prop where
  keys : ∀ {k set}, find? k graph = some set → ∃ set', find? k graph' = some set'
  classes : ∀ {t r}, InClass graph' t r → ∃ r₀, InClass graph t r₀ ∧ InClass graph r r₀

theorem Refines.refl (graph : EqGraph T) : Refines graph graph where
  keys h := ⟨_, h⟩
  classes {_ r} h := ⟨r, h, h.rep⟩

/-- Refinements compose over a graph whose classes are disjoint. -/
theorem Refines.trans {g₁ g₂ g₃ : EqGraph T} {S : Finset T} {seen : List (T → V)}
    (h₂₃ : Refines g₃ g₂) (h₁₂ : Refines g₂ g₁) (h₁ : Inv S seen g₁) : Refines g₃ g₁ where
  keys h := (h₁₂.keys h).elim fun _ h' => h₂₃.keys h'
  classes h := by
    obtain ⟨r₂, ht, hr⟩ := h₂₃.classes h
    obtain ⟨a, hta, hr₂a⟩ := h₁₂.classes ht
    obtain ⟨b, hrb, hr₂b⟩ := h₁₂.classes hr
    exact ⟨a, hta, h₁.unique hr₂b hr₂a ▸ hrb⟩

/-- A refinement that takes a member out of the class of its representative has more classes:
the member's new class has a new representative. -/
theorem Refines.length_lt {graph graph' : EqGraph T} {S : Finset T} {seen seen' : List (T → V)}
    (href : Refines graph' graph) (h : Inv S seen graph) (h' : Inv S seen' graph')
    {rep t : T} {set : Finset T} (hrep : find? rep graph = some set) (ht : t ∈ set)
    (hsep : ¬InClass graph' t rep) : graph.length < graph'.length := by
  have htrep : InClass graph t rep := inClass_member hrep ht
  obtain ⟨r, hr⟩ := (h'.cover t).1 ((h.cover t).2 ⟨rep, htrep⟩)
  have hnew : r ∉ graph.map Prod.fst := by
    intro hk
    obtain ⟨s, hs⟩ := mem_keys_iff.1 hk
    obtain ⟨r₀, htr₀, hrr₀⟩ := href.classes hr
    have hr₀ : r₀ = rep := h.unique htr₀ htrep
    have hrr : r = r₀ := h.eq_of_key hs hrr₀
    exact hsep (hr₀ ▸ hrr ▸ hr)
  have hsub : (graph.map Prod.fst).toFinset ⊂ (graph'.map Prod.fst).toFinset := by
    refine (Finset.ssubset_iff_of_subset fun k hk => ?_).2 ⟨r, ?_, by simpa using hnew⟩
    · obtain ⟨s, hs⟩ := mem_keys_iff.1 (List.mem_toFinset.1 hk)
      exact List.mem_toFinset.2 (mem_keys_iff.2 (href.keys hs))
    · obtain ⟨s, hs, -⟩ := hr
      exact List.mem_toFinset.2 (mem_keys_iff.2 ⟨s, hs⟩)
  rw [length_eq_card_keys h.sorted, length_eq_card_keys h'.sorted]
  exact Finset.card_lt_card hsub

/-- Replacing the class of `rep` by classes of its terms keeps what the graph keeps and refines
it, when the new classes cover the class, agree with a model `eval`, and have representatives of
distinct values. -/
theorem inv_replaceClass {S : Finset T} {seen : List (T → V)} {graph graph' : EqGraph T}
    {rep : T} {cls : Finset T} (eval : T → V) (h : Inv S seen graph)
    (hrep : find? rep graph = some cls) (hsorted : OrdMap.Sorted graph')
    (hframe : ∀ k, k ∉ insert rep cls → find? k graph' = find? k graph)
    (hnew : ∀ k ∈ insert rep cls, ∀ s, find? k graph' = some s →
      insert k s ⊆ insert rep cls ∧ ∀ t ∈ s, eval t = eval k)
    (hcover : ∀ t ∈ insert rep cls, ∃ k, InClass graph' t k)
    (hdistinct : ∀ k₁ ∈ insert rep cls, ∀ k₂ ∈ insert rep cls, (∃ s, find? k₁ graph' = some s) →
      (∃ s, find? k₂ graph' = some s) → eval k₁ = eval k₂ → k₁ = k₂)
    (hkey : ∃ s, find? rep graph' = some s) :
    Inv S seen graph' ∧ (∀ {t r}, InClass graph' t r → r ∈ insert rep cls → eval t = eval r) ∧
      Refines graph' graph := by
  have hold : ∀ t ∈ insert rep cls, InClass graph t rep := fun t ht =>
    ⟨cls, hrep, Finset.mem_insert.1 ht⟩
  -- a representative of `graph` among the terms of the class is `rep`
  have hnokey : ∀ r ∈ insert rep cls, ∀ s, find? r graph = some s → r = rep := fun r hr s hs =>
    h.eq_of_key hs (hold r hr)
  -- in the new graph a term is in a new class of its value, or in a class it was in
  have hin : ∀ {t r}, InClass graph' t r →
      (r ∈ insert rep cls ∧ t ∈ insert rep cls ∧ eval t = eval r) ∨
        (r ∉ insert rep cls ∧ InClass graph t r) := by
    rintro t r ⟨s, hs, ht⟩
    by_cases hr : r ∈ insert rep cls
    · obtain ⟨hsub, hval⟩ := hnew r hr s hs
      refine .inl ⟨hr, hsub (Finset.mem_insert.2 ht), ?_⟩
      rcases ht with rfl | ht
      · rfl
      · exact hval t ht
    · exact .inr ⟨hr, s, (hframe r hr).symm.trans hs, ht⟩
  refine ⟨⟨hsorted, fun t => ⟨fun ht => ?_, fun ⟨r, hr⟩ => ?_⟩, fun h₁ h₂ => ?_,
    fun e he t r hr => ?_⟩, fun hr hmem => ?_, ⟨fun {k s} hs => ?_, fun hr => ?_⟩⟩
  · -- cover, one way: the terms of the class have new classes, the others keep theirs
    by_cases htS : t ∈ insert rep cls
    · exact hcover t htS
    obtain ⟨r₀, s₀, hs₀, ht₀⟩ := (h.cover t).1 ht
    have hr₀ : r₀ ∉ insert rep cls := by
      intro hm
      obtain rfl := hnokey r₀ hm s₀ hs₀
      rw [hrep, Option.some.injEq] at hs₀
      subst hs₀
      exact htS (Finset.mem_insert.2 ht₀)
    exact ⟨r₀, s₀, (hframe r₀ hr₀).trans hs₀, ht₀⟩
  · rcases hin hr with ⟨-, htS, -⟩ | ⟨-, hr'⟩
    · exact (h.cover t).2 ⟨rep, hold t htS⟩
    · exact (h.cover t).2 ⟨r, hr'⟩
  · rcases hin h₁ with ⟨hr₁, ht₁, hv₁⟩ | ⟨hr₁, h₁'⟩ <;>
      rcases hin h₂ with ⟨hr₂, ht₂, hv₂⟩ | ⟨hr₂, h₂'⟩
    · -- two new representatives of the same value are the same
      obtain ⟨s₁, hs₁, -⟩ := h₁
      obtain ⟨s₂, hs₂, -⟩ := h₂
      exact hdistinct _ hr₁ _ hr₂ ⟨s₁, hs₁⟩ ⟨s₂, hs₂⟩ (hv₁.symm.trans hv₂)
    · exact absurd ((h.unique (hold _ ht₁) h₂') ▸ Finset.mem_insert_self _ _) hr₂
    · exact absurd ((h.unique (hold _ ht₂) h₁') ▸ Finset.mem_insert_self _ _) hr₁
    · exact h.unique h₁' h₂'
  · rcases hin hr with ⟨hrR, htS, -⟩ | ⟨-, hr'⟩
    · exact (h.agree e he (hold t htS)).trans (h.agree e he (hold r hrR)).symm
    · exact h.agree e he hr'
  · rcases hin hr with ⟨-, -, hv⟩ | ⟨hrR, -⟩
    · exact hv
    · exact absurd hmem hrR
  · -- the representatives: `rep` stays one, and the others are kept
    by_cases hk : k ∈ insert rep cls
    · rw [hnokey k hk s hs]
      exact hkey
    · rw [hframe k hk]
      exact ⟨s, hs⟩
  · -- the classes: a new one lies in the class of `rep`, a kept one in itself
    rcases hin hr with ⟨hrR, htS, -⟩ | ⟨-, hr'⟩
    · exact ⟨rep, hold _ htS, hold _ hrR⟩
    · exact ⟨_, hr', hr'.rep⟩

theorem dropClassMember_of_find? {graph : EqGraph T} {rep term : T} {set : Finset T}
    (hrep : find? rep graph = some set) :
    dropClassMember graph rep term = add rep (set.erase term) graph := by
  simp [dropClassMember, hrep]

theorem inClass_dropClassMember {graph : EqGraph T} {rep term t r : T} :
    InClass (dropClassMember graph rep term) t r ↔
      InClass graph t r ∧ ¬(r = rep ∧ t = term ∧ t ≠ rep) := by
  cases hrep : find? rep graph with
  | none =>
    -- without a class of `rep` nothing changes, and no term is in one
    have hg : dropClassMember graph rep term = graph := by rw [dropClassMember, hrep]
    rw [hg]
    refine ⟨fun h => ⟨h, fun ⟨hr, _⟩ => ?_⟩, And.left⟩
    obtain ⟨s, hs, -⟩ := h
    rw [hr, hrep] at hs
    cases hs
  | some set =>
    unfold InClass
    rw [dropClassMember_of_find? hrep, OrdMap.find?_add]
    by_cases hr : r = rep
    · subst hr
      rw [if_pos rfl, hrep]
      simp only [Option.some.injEq, exists_eq_left', Finset.mem_erase]
      tauto
    · simp [hr]

/-- Dropping a member covers at most that term less, and keeps the rest. -/
theorem inv_dropClassMember {S : Finset T} {seen : List (T → V)} {graph : EqGraph T}
    (h : Inv S seen graph) (rep term : T) :
    ∃ S', S' ⊆ S ∧ S.erase term ⊆ S' ∧ Inv S' seen (dropClassMember graph rep term) := by
  cases hrep : find? rep graph with
  | none =>
    have hg : dropClassMember graph rep term = graph := by rw [dropClassMember, hrep]
    rw [hg]
    exact ⟨S, subset_rfl, Finset.erase_subset _ _, h⟩
  | some set =>
    have hsub : ∀ {t r}, InClass (dropClassMember graph rep term) t r → InClass graph t r :=
      fun h' => (inClass_dropClassMember.1 h').1
    -- the term is uncovered exactly when it was a member of the class of `rep`
    have hsorted : OrdMap.Sorted (dropClassMember graph rep term) := by
      rw [dropClassMember_of_find? hrep]
      exact OrdMap.sorted_add _ _ h.sorted
    refine ⟨S.filter fun t => t ≠ term ∨ term = rep ∨ term ∉ set, Finset.filter_subset _ _,
      fun t ht => ?_, ⟨hsorted, fun t => ?_, fun h₁ h₂ => h.unique (hsub h₁)
        (hsub h₂), fun e he _ _ h' => h.agree e he (hsub h')⟩⟩
    · obtain ⟨hne, htS⟩ := Finset.mem_erase.1 ht
      exact Finset.mem_filter.2 ⟨htS, .inl hne⟩
    · rw [Finset.mem_filter, h.cover]
      constructor
      · rintro ⟨⟨r, hr⟩, hkeep⟩
        refine ⟨r, inClass_dropClassMember.2 ⟨hr, ?_⟩⟩
        rintro ⟨rfl, rfl, hne⟩
        rcases hkeep with hkeep | hkeep | hkeep
        · exact hkeep rfl
        · exact hne hkeep
        · obtain ⟨set', hset', ht'⟩ := hr
          rw [hrep, Option.some.injEq] at hset'
          subst hset'
          exact hkeep (ht'.resolve_left hne)
      · rintro ⟨r, hr⟩
        refine ⟨⟨r, hsub hr⟩, ?_⟩
        by_contra hnot
        simp only [not_or, not_not] at hnot
        obtain ⟨rfl, hne, hmem⟩ := hnot
        have hr' := inClass_dropClassMember.1 hr
        exact hr'.2 ⟨h.unique hr'.1 (inClass_member hrep hmem), rfl, hne⟩

/-! ## Splitting a class -/

omit [LinearOrder T] in
theorem toFinset_append_singleton [DecidableEq T] (P : List T) (term : T) :
    (P ++ [term]).toFinset = insert term P.toFinset := by
  ext t
  simp

section Split

variable [DecidableEq V]

/-- What the fold of `split graph rep set eval` keeps after the terms `P`: the representatives it
made are bound in sorted bindings that keep those of `graph` for the other terms; each value met
has one representative, `rep` or the first term of `P` of that value, bound to the terms of `P` of
that value (itself too, if it is `rep`). -/
structure SplitAcc (graph : EqGraph T) (rep : T) (eval : T → V) (P : List T)
    (acc : List (V × T) × EqGraph T) : Prop where
  sorted : OrdMap.Sorted acc.2
  frame : ∀ k, k ∉ acc.1.map Prod.snd → find? k acc.2 = find? k graph
  val : ∀ b ∈ acc.1, eval b.2 = b.1 ∧ (b.2 = rep ∨ b.2 ∈ P)
  nodup : (acc.1.map Prod.fst).Nodup
  rep_mem : (eval rep, rep) ∈ acc.1
  cls : ∀ b ∈ acc.1, find? b.2 acc.2 =
    some (P.toFinset.filter fun t => eval t = b.1 ∧ (t ≠ b.2 ∨ b.2 = rep))
  cover : ∀ t ∈ P, eval t ∈ acc.1.map Prod.fst

variable {graph : EqGraph T} {rep : T} {eval : T → V}

theorem splitAcc_init (hs : OrdMap.Sorted graph) :
    SplitAcc graph rep eval [] ([(eval rep, rep)], add rep ∅ graph) where
  sorted := OrdMap.sorted_add _ _ hs
  frame k hk := by
    have hne : k ≠ rep := fun he => hk (by simp [he])
    rw [OrdMap.find?_add, if_neg hne]
  val b hb := by
    rw [List.mem_singleton.1 hb]
    exact ⟨rfl, .inl rfl⟩
  nodup := List.nodup_singleton _
  rep_mem := List.mem_singleton_self _
  cls b hb := by
    rw [List.mem_singleton.1 hb, OrdMap.find?_add, if_pos rfl]
    rfl
  cover _ h := absurd h List.not_mem_nil

/-- A term whose value has a representative joins its class. -/
theorem SplitAcc.step_found {P : List T} {acc : List (V × T) × EqGraph T}
    (h : SplitAcc graph rep eval P acc) {term : T} (ht : term ∉ P) {b : V × T} (hb : b ∈ acc.1)
    (hbv : b.1 = eval term) :
    SplitAcc graph rep eval (P ++ [term]) (acc.1, addMember acc.2 b.2 term) := by
  -- the representative of a value is the only one with that value
  have hkey : ∀ b' ∈ acc.1, b'.1 = b.1 → b' = b := fun b' hb' he =>
    List.inj_on_of_nodup_map h.nodup hb' hb he
  have hq : term ≠ b.2 ∨ b.2 = rep := by
    rcases (h.val b hb).2 with hr | hr
    · exact .inr hr
    · exact .inl fun he => ht (he ▸ hr)
  refine ⟨OrdMap.sorted_add _ _ h.sorted, fun k hk => ?_, fun b' hb' => ?_, h.nodup, h.rep_mem,
    fun b' hb' => ?_, fun t htP => ?_⟩
  · have hne : k ≠ b.2 := fun he => hk (by rw [he]; exact List.mem_map_of_mem hb)
    rw [addMember, OrdMap.find?_add, if_neg hne]
    exact h.frame k hk
  · exact ⟨(h.val b' hb').1, (h.val b' hb').2.imp_right fun h => List.mem_append_left _ h⟩
  · rw [toFinset_append_singleton, Finset.filter_insert]
    by_cases he : b'.2 = b.2
    · rw [hkey b' hb' (by rw [← (h.val b' hb').1, ← (h.val b hb).1, he])]
      rw [addMember, OrdMap.find?_add, if_pos rfl, h.cls b hb, Option.getD_some,
        if_pos ⟨hbv.symm, hq⟩]
    · have hnq : ¬(eval term = b'.1 ∧ (term ≠ b'.2 ∨ b'.2 = rep)) := fun hq' =>
        he (congrArg Prod.snd (hkey b' hb' (hq'.1.symm.trans hbv.symm)))
      rw [addMember, OrdMap.find?_add, if_neg he, h.cls b' hb', if_neg hnq]
  · rcases List.mem_append.1 htP with htP | htP
    · exact h.cover t htP
    · rw [List.mem_singleton.1 htP, ← hbv]
      exact List.mem_map_of_mem hb

/-- A term of a new value represents a new class. -/
theorem SplitAcc.step_new {P : List T} {acc : List (V × T) × EqGraph T}
    (h : SplitAcc graph rep eval P acc) {term : T} (ht : term ∉ P)
    (hnew : ∀ b ∈ acc.1, b.1 ≠ eval term) :
    SplitAcc graph rep eval (P ++ [term])
      ((eval term, term) :: acc.1, add term ∅ acc.2) := by
  have hrep : term ≠ rep := fun he => hnew _ h.rep_mem (by rw [he])
  have hold : ∀ b ∈ acc.1, b.2 ≠ term := fun b hb he => by
    rcases (h.val b hb).2 with hr | hr
    · exact hrep (he ▸ hr)
    · exact ht (he ▸ hr)
  refine ⟨OrdMap.sorted_add _ _ h.sorted, fun k hk => ?_, fun b hb => ?_, ?_,
    List.mem_cons_of_mem _ h.rep_mem, fun b hb => ?_, fun t htP => ?_⟩
  · have hne : k ≠ term := fun he => hk (by simp [he])
    rw [OrdMap.find?_add, if_neg hne]
    exact h.frame k fun hk' => hk (List.mem_cons_of_mem _ hk')
  · rcases List.mem_cons.1 hb with rfl | hb
    · exact ⟨rfl, .inr (List.mem_append_right _ (List.mem_singleton_self _))⟩
    · exact ⟨(h.val b hb).1, (h.val b hb).2.imp_right fun h => List.mem_append_left _ h⟩
  · refine List.nodup_cons.2 ⟨fun hm => ?_, h.nodup⟩
    obtain ⟨b, hb, hbv⟩ := List.mem_map.1 hm
    exact hnew b hb hbv
  · rw [toFinset_append_singleton, Finset.filter_insert]
    rcases List.mem_cons.1 hb with rfl | hb
    · -- the new class is empty: no term of `P` has the new value
      rw [OrdMap.find?_add, if_pos rfl, if_neg (fun hq => hq.2.elim (· rfl) hrep)]
      refine congrArg some (Finset.ext fun t => ?_)
      simp only [Finset.notMem_empty, false_iff, Finset.mem_filter, List.mem_toFinset, not_and]
      intro htP hv
      obtain ⟨b, hb, hbv⟩ := List.mem_map.1 (h.cover t htP)
      exact absurd (hbv.trans hv) (hnew b hb)
    · rw [OrdMap.find?_add, if_neg (hold b hb), h.cls b hb,
        if_neg fun hq => hnew b hb hq.1.symm]
  · rcases List.mem_append.1 htP with htP | htP
    · exact List.mem_cons_of_mem _ (h.cover t htP)
    · rw [List.mem_singleton.1 htP]
      exact List.mem_cons_self

theorem SplitAcc.step {P : List T} {acc : List (V × T) × EqGraph T}
    (h : SplitAcc graph rep eval P acc) {term : T} (ht : term ∉ P) :
    SplitAcc graph rep eval (P ++ [term]) (splitStep eval acc term) := by
  unfold splitStep
  cases hf : acc.1.find? fun b => decide (b.1 = eval term) with
  | some b =>
    exact h.step_found ht (List.mem_of_find?_eq_some hf) (by simpa using List.find?_some hf)
  | none =>
    exact h.step_new ht fun b hb => by simpa using List.find?_eq_none.1 hf b hb

/-- The fold of `split` over the terms `L` after `P`. By induction on `L`. -/
theorem SplitAcc.foldl : ∀ (L : List T) {P : List T} {acc : List (V × T) × EqGraph T},
    (P ++ L).Nodup → SplitAcc graph rep eval P acc →
      SplitAcc graph rep eval (P ++ L) (L.foldl (splitStep eval) acc)
  | [], P, _, _, h => by rwa [List.append_nil]
  | term :: L, P, acc, hnd, h => by
    have hnd' : (P ++ [term] ++ L).Nodup := by rwa [List.append_assoc]
    have ht : term ∉ P := fun htP =>
      (List.nodup_append.1 hnd).2.2 term htP term List.mem_cons_self rfl
    rw [List.foldl_cons, ← List.singleton_append, ← List.append_assoc]
    exact SplitAcc.foldl L hnd' (h.step ht)

/-- The fold of `split` over the whole class. -/
theorem splitAcc_split (hs : OrdMap.Sorted graph) (set : Finset T) :
    SplitAcc graph rep eval set.sort
      (set.sort.foldl (splitStep eval) ([(eval rep, rep)], add rep ∅ graph)) := by
  have h0 : SplitAcc graph rep eval [] ([(eval rep, rep)], add rep ∅ graph) := splitAcc_init hs
  have h := SplitAcc.foldl set.sort (by simp) h0
  rwa [List.nil_append] at h

/-- Splitting the class of `rep` keeps what the graph keeps, leaves the other classes, makes the
classes of the terms of the class agree with the model, and refines the graph. -/
theorem inv_split {S : Finset T} {seen : List (T → V)} (h : Inv S seen graph) {set : Finset T}
    (hrep : find? rep graph = some set) (eval : T → V) :
    Inv S seen (split graph rep set eval) ∧
      (∀ k, k ∉ insert rep set → find? k (split graph rep set eval) = find? k graph) ∧
      (∀ {t r}, InClass (split graph rep set eval) t r → r ∈ insert rep set → eval t = eval r) ∧
      Refines (split graph rep set eval) graph := by
  have hacc : SplitAcc graph rep eval set.sort
      ((set.sort.foldl (splitStep eval) ([(eval rep, rep)], add rep ∅ graph)).1,
        split graph rep set eval) := splitAcc_split h.sorted set
  generalize (set.sort.foldl (splitStep eval) ([(eval rep, rep)], add rep ∅ graph)).1 = vm at hacc
  have hframe : ∀ k, k ∉ vm.map Prod.snd → find? k (split graph rep set eval) = find? k graph :=
    hacc.frame
  have hval : ∀ b ∈ vm, eval b.2 = b.1 ∧ (b.2 = rep ∨ b.2 ∈ set.sort) := hacc.val
  have hclsEq : ∀ b ∈ vm, find? b.2 (split graph rep set eval) =
      some (set.sort.toFinset.filter fun t => eval t = b.1 ∧ (t ≠ b.2 ∨ b.2 = rep)) := hacc.cls
  have hnd : (vm.map Prod.fst).Nodup := hacc.nodup
  have hrepm : (eval rep, rep) ∈ vm := hacc.rep_mem
  have hcov : ∀ t ∈ set.sort, eval t ∈ vm.map Prod.fst := hacc.cover
  have hR : ∀ b ∈ vm, b.2 ∈ insert rep set := fun b hb =>
    (hval b hb).2.elim (fun he => he ▸ Finset.mem_insert_self _ _)
      (fun hm => Finset.mem_insert_of_mem (Finset.mem_sort _ |>.1 hm))
  have hkeep : ∀ k, k ∉ insert rep set → find? k (split graph rep set eval) = find? k graph := by
    intro k hk
    refine hframe k fun hm => hk ?_
    obtain ⟨b, hb, rfl⟩ := List.mem_map.1 hm
    exact hR b hb
  -- the representatives among the terms of the class are those of the values met
  have hkeys : ∀ k ∈ insert rep set, ∀ s, find? k (split graph rep set eval) = some s →
      ∃ b ∈ vm, b.2 = k := by
    intro k hk s hs
    by_contra hno
    have hkv : k ∉ vm.map Prod.snd := fun hm => hno (List.mem_map.1 hm)
    rw [hframe k hkv] at hs
    obtain rfl := h.eq_of_key hs ⟨set, hrep, Finset.mem_insert.1 hk⟩
    exact hkv (List.mem_map_of_mem hrepm)
  -- a new class holds terms of the class of its value
  have hnew : ∀ k ∈ insert rep set, ∀ s, find? k (split graph rep set eval) = some s →
      insert k s ⊆ insert rep set ∧ ∀ t ∈ s, eval t = eval k := by
    intro k hk s hs
    obtain ⟨b, hb, rfl⟩ := hkeys k hk s hs
    rw [hclsEq b hb, Option.some.injEq] at hs
    subst hs
    refine ⟨Finset.insert_subset hk fun t ht => ?_, fun t ht => ?_⟩
    · exact Finset.mem_insert_of_mem (by simpa using (Finset.mem_filter.1 ht).1)
    · exact (Finset.mem_filter.1 ht).2.1.trans (hval b hb).1.symm
  -- every term of the class finds the representative of its value
  have hcover : ∀ t ∈ insert rep set, ∃ k, InClass (split graph rep set eval) t k := by
    intro t ht
    have hv : eval t ∈ vm.map Prod.fst := by
      rcases Finset.mem_insert.1 ht with rfl | ht
      · exact List.mem_map_of_mem hrepm
      · exact hcov t (Finset.mem_sort _ |>.2 ht)
    obtain ⟨b, hb, hbv⟩ := List.mem_map.1 hv
    refine ⟨b.2, _, hclsEq b hb, ?_⟩
    by_cases htb : t = b.2
    · exact .inl htb
    · refine .inr (Finset.mem_filter.2 ⟨?_, hbv.symm, .inl htb⟩)
      rcases Finset.mem_insert.1 ht with rfl | ht
      · -- `rep` is the representative of its own value
        exact absurd (congrArg Prod.snd (List.inj_on_of_nodup_map hnd hb hrepm
          hbv)) (Ne.symm htb)
      · simpa using ht
  -- two representatives of the same value are the same
  have hdistinct : ∀ k₁ ∈ insert rep set, ∀ k₂ ∈ insert rep set,
      (∃ s, find? k₁ (split graph rep set eval) = some s) →
      (∃ s, find? k₂ (split graph rep set eval) = some s) → eval k₁ = eval k₂ → k₁ = k₂ := by
    rintro k₁ hk₁ k₂ hk₂ ⟨s₁, hs₁⟩ ⟨s₂, hs₂⟩ hv
    obtain ⟨b₁, hb₁, rfl⟩ := hkeys k₁ hk₁ s₁ hs₁
    obtain ⟨b₂, hb₂, rfl⟩ := hkeys k₂ hk₂ s₂ hs₂
    rw [(hval b₁ hb₁).1, (hval b₂ hb₂).1] at hv
    exact congrArg Prod.snd (List.inj_on_of_nodup_map hnd hb₁ hb₂ hv)
  obtain ⟨hi, hagree, hrefines⟩ := inv_replaceClass eval h hrep hacc.sorted hkeep hnew hcover
    hdistinct ⟨_, hclsEq _ hrepm⟩
  exact ⟨hi, hkeep, hagree, hrefines⟩

/-- A class whose representative is not a term of the split class is kept. -/
theorem inClass_of_frame {graph graph' : EqGraph T} {rep : T} {set : Finset T}
    (hframe : ∀ k, k ∉ insert rep set → find? k graph' = find? k graph) {t r : T}
    (hr : r ∉ insert rep set) : InClass graph' t r ↔ InClass graph t r := by
  simp only [InClass, hframe r hr]

omit [DecidableEq V] in
/-- What a graph keeps on the models `seen` it keeps on fewer models. -/
theorem Inv.of_seen {S : Finset T} {seen seen' : List (T → V)} (h : Inv S seen graph)
    (hsub : ∀ e ∈ seen', e ∈ seen) : Inv S seen' graph :=
  ⟨h.sorted, h.cover, h.unique, fun e he => h.agree e (hsub e he)⟩

/-- The splits of `model_stabilize` from the bindings `rest` on: the bindings not split yet are in
the graph, and the classes split so far agree with the model. By induction on `rest`. -/
theorem inv_foldl_split {S : Finset T} {seen : List (T → V)} (eval : T → V) :
    ∀ (rest : List (T × Finset T)) {graph : EqGraph T}, Inv S seen graph →
      (∀ b ∈ rest, find? b.1 graph = some b.2) → (rest.map Prod.fst).Nodup →
      (∀ {t r}, InClass graph t r → r ∉ rest.map Prod.fst → eval t = eval r) →
      Inv S (eval :: seen) (rest.foldl (fun g b => split g b.1 b.2 eval) graph) ∧
        Refines (rest.foldl (fun g b => split g b.1 b.2 eval) graph) graph
  | [], graph, h, _, _, hagree => ⟨⟨h.sorted, h.cover, h.unique, fun e he t r hr => by
      rcases List.mem_cons.1 he with rfl | he
      · exact hagree hr List.not_mem_nil
      · exact h.agree e he hr⟩, Refines.refl graph⟩
  | b :: rest, graph, h, hbind, hnd, hagree => by
    obtain ⟨hi, hframe, hnew, hrefines⟩ := inv_split h (hbind b List.mem_cons_self) eval
    obtain ⟨hb, hnd'⟩ := List.nodup_cons.1 hnd
    -- the other bindings are not in the class split
    have hout : ∀ b' ∈ rest, b'.1 ∉ insert b.1 b.2 := by
      intro b' hb' hmem
      have hkey := h.eq_of_key (hbind b' (List.mem_cons_of_mem _ hb'))
        ⟨b.2, hbind b List.mem_cons_self, Finset.mem_insert.1 hmem⟩
      exact hb (hkey ▸ List.mem_map_of_mem hb')
    have hrest := inv_foldl_split eval rest hi (fun b' hb' => ?_) hnd' (fun {t r} hr hrest => ?_)
    · exact ⟨hrest.1, hrest.2.trans hrefines h⟩
    · rw [hframe _ (hout b' hb')]
      exact hbind b' (List.mem_cons_of_mem _ hb')
    · by_cases hmem : r ∈ insert b.1 b.2
      · exact hnew hr hmem
      · refine hagree ((inClass_of_frame hframe hmem).1 hr) fun hr' => ?_
        rcases List.mem_cons.1 hr' with hrb | hrest'
        · exact hmem (hrb ▸ Finset.mem_insert_self _ _)
        · exact hrest hrest'

/-- Stabilizing on a model keeps what the graph keeps, makes the classes agree with the model, and
refines the graph. -/
theorem inv_modelStabilize {S : Finset T} {seen : List (T → V)} {graph : EqGraph T}
    (h : Inv S seen graph) (eval : T → V) :
    Inv S (eval :: seen) (modelStabilize graph eval) ∧
      Refines (modelStabilize graph eval) graph := by
  have hcollect : OrdMap.fold (fun rep set acc => (rep, set) :: acc) graph [] = graph.reverse := by
    simp [OrdMap.fold]
  rw [modelStabilize, hcollect]
  refine inv_foldl_split eval graph.reverse h (fun b hb => ?_) ?_ (fun {t r} hr hrest => ?_)
  · exact OrdMap.find?_of_mem h.sorted (List.mem_reverse.1 hb)
  · rw [List.map_reverse, List.nodup_reverse]
    exact (List.pairwise_map.2 h.sorted).imp ne_of_lt
  · -- every representative is a key of the graph
    obtain ⟨s, hs, -⟩ := hr
    exact absurd (by simpa using List.mem_map_of_mem (f := Prod.fst) (OrdMap.mem_of_find? hs)) hrest

end Split

/-! ## The candidates -/

omit [LinearOrder T] in
/-- Membership in a fold whose every step adds to the accumulator what `P` says. -/
theorem mem_foldl_of_step {α β : Type} {g : List β → α → List β} {P : α → β → Prop}
    (hg : ∀ acc a c, c ∈ g acc a ↔ c ∈ acc ∨ P a c) (c : β) :
    ∀ (l : List α) (acc : List β), c ∈ l.foldl g acc ↔ c ∈ acc ∨ ∃ a ∈ l, P a c
  | [], acc => by simp
  | a :: l, acc => by
    rw [List.foldl_cons, mem_foldl_of_step hg c l, hg, List.exists_mem_cons_iff, or_assoc]

/-- The candidates of `terms_of` are the equalities of the members with their representatives that
are not `known`. -/
theorem mem_termsOf {mkEq : T → T → T} {graph : EqGraph T} {known : T → Bool}
    (hs : OrdMap.Sorted graph) {c : T} :
    c ∈ termsOf mkEq graph known ↔
      ∃ r set t, find? r graph = some set ∧ t ∈ set ∧ known (mkEq r t) = false ∧
        c = mkEq r t := by
  -- the inner fold over the members of one class, then the fold over the classes
  have hcons : ∀ (r : T) (acc : List T) (t c : T),
      c ∈ (if known (mkEq r t) then acc else mkEq r t :: acc) ↔
        c ∈ acc ∨ (known (mkEq r t) = false ∧ c = mkEq r t) := by
    intro r acc t c
    cases known (mkEq r t) <;> simp [or_comm]
  have hclass : ∀ (acc : List T) (b : T × Finset T) (c : T),
      c ∈ b.2.sort.foldl (fun acc t => if known (mkEq b.1 t) then acc else mkEq b.1 t :: acc) acc ↔
        c ∈ acc ∨ ∃ t ∈ b.2.sort, known (mkEq b.1 t) = false ∧ c = mkEq b.1 t :=
    fun acc b c => mem_foldl_of_step (hcons b.1) c _ acc
  rw [termsOf, OrdMap.fold, mem_foldl_of_step hclass c graph [], List.mem_nil_iff, false_or]
  constructor
  · rintro ⟨⟨r, set⟩, hb, t, ht, hk, rfl⟩
    exact ⟨r, set, t, OrdMap.find?_of_mem hs hb, (Finset.mem_sort _).1 ht, hk, rfl⟩
  · rintro ⟨r, set, t, hr, ht, hk, rfl⟩
    exact ⟨(r, set), OrdMap.mem_of_find? hr, t, (Finset.mem_sort _).2 ht, hk, rfl⟩

omit [LinearOrder T] in
@[simp] theorem mem_condCons {known : T → Bool} {l : List (T × (T × T))} {cand : T}
    {info : T × T} {x : T × (T × T)} :
    x ∈ condCons known l cand info ↔ x ∈ l ∨ (known cand = false ∧ x = (cand, info)) := by
  unfold condCons
  cases known cand <;> simp [or_comm]

/-- The candidates of the loop of `equalities_of` over increasing terms `l`: those it started with,
and the equalities of each term with the representative or an earlier term, with the term to
drop, but the `known` ones. By induction on `l`. -/
theorem mem_equalitiesLoop {mkEq : T → T → T} {known : T → Bool} {rep : T} {x : T × (T × T)} :
    ∀ {l : List T}, l.Pairwise (· < ·) → ∀ pref suff,
      x ∈ equalitiesLoop mkEq known rep pref suff l ↔ x ∈ pref ∨ x ∈ suff ∨
        ∃ t ∈ l, known x.1 = false ∧ x.2 = (rep, t) ∧
          (x.1 = mkEq rep t ∨ ∃ a ∈ l, a < t ∧ x.1 = mkEq a t)
  | [], _, pref, suff => by simp [equalitiesLoop]
  | term :: tail, hl, pref, suff => by
    obtain ⟨hterm, htail⟩ := List.pairwise_cons.1 hl
    rw [equalitiesLoop, mem_equalitiesLoop htail, mem_condCons,
      mem_foldl_of_step (fun _ _ _ => mem_condCons) x tail suff]
    constructor
    · rintro ((hp | ⟨hk, rfl⟩) | (hs | ⟨t, ht, hk, rfl⟩) | ⟨t, ht, hk, h2, hc⟩)
      · exact .inl hp
      · exact .inr (.inr ⟨term, List.mem_cons_self, hk, rfl, .inl rfl⟩)
      · exact .inr (.inl hs)
      · -- the equality of `term` with a later term
        exact .inr (.inr ⟨t, List.mem_cons_of_mem _ ht, hk, rfl,
          .inr ⟨term, List.mem_cons_self, hterm t ht, rfl⟩⟩)
      · refine .inr (.inr ⟨t, List.mem_cons_of_mem _ ht, hk, h2, ?_⟩)
        exact hc.imp_right fun ⟨a, ha, hlt, he⟩ => ⟨a, List.mem_cons_of_mem _ ha, hlt, he⟩
    · rintro (hp | hs | ⟨t, ht, hk, h2, hc⟩)
      · exact .inl (.inl hp)
      · exact .inr (.inl (.inl hs))
      rcases List.mem_cons.1 ht with rfl | htail
      · -- no term comes before the first
        rcases hc with h1 | ⟨a, ha, hlt, -⟩
        · exact .inl (.inr ⟨h1 ▸ hk, Prod.ext h1 h2⟩)
        · rcases List.mem_cons.1 ha with rfl | ha
          · exact absurd hlt (lt_irrefl _)
          · exact absurd (hterm a ha) (not_lt.2 hlt.le)
      · rcases hc with h1 | ⟨a, ha, hlt, h1⟩
        · exact .inr (.inr ⟨t, htail, hk, h2, .inl h1⟩)
        rcases List.mem_cons.1 ha with rfl | ha
        · exact .inr (.inl (.inr ⟨t, htail, h1 ▸ hk, Prod.ext h1 h2⟩))
        · exact .inr (.inr ⟨t, htail, hk, h2, .inr ⟨a, ha, hlt, h1⟩⟩)

/-- The candidates `equalities_of` adds for one class. -/
theorem mem_equalitiesOf_class {mkEq : T → T → T} {known : T → Bool} {rep : T}
    {terms : Finset T} {acc : List (T × (T × T))} {x : T × (T × T)} :
    x ∈ (if terms.card < 10 then equalitiesLoop mkEq known rep [] acc terms.sort
      else terms.sort.foldl (fun acc term => condCons known acc (mkEq rep term) (rep, term)) acc) ↔
      x ∈ acc ∨ ∃ t ∈ terms, known x.1 = false ∧ x.2 = (rep, t) ∧
        (x.1 = mkEq rep t ∨ terms.card < 10 ∧ ∃ a ∈ terms, a < t ∧ x.1 = mkEq a t) := by
  split_ifs with hcard
  · rw [mem_equalitiesLoop (Finset.sortedLT_sort terms).pairwise]
    simp only [List.not_mem_nil, false_or, Finset.mem_sort, hcard, true_and]
  · -- a large class gives the equalities with the representative only
    rw [mem_foldl_of_step (fun _ _ _ => mem_condCons) x _ acc]
    simp only [Finset.mem_sort, hcard, false_and, or_false]
    refine or_congr_right (exists_congr fun t => and_congr_right fun _ => ⟨?_, ?_⟩)
    · rintro ⟨hk, rfl⟩
      exact ⟨hk, rfl, rfl⟩
    · rintro ⟨hk, h2, h1⟩
      exact ⟨h1 ▸ hk, Prod.ext h1 h2⟩

/-- The candidates of `equalities_of`: the equality of a member with its representative, and in a
class of fewer than ten members with a smaller member too, each with the representative and the
member, but the `known` ones. -/
theorem mem_equalitiesOf {mkEq : T → T → T} {graph : EqGraph T} {known : T → Bool}
    (hs : OrdMap.Sorted graph) {x : T × (T × T)} :
    x ∈ equalitiesOf mkEq graph known ↔
      ∃ r set t, find? r graph = some set ∧ t ∈ set ∧ known x.1 = false ∧ x.2 = (r, t) ∧
        (x.1 = mkEq r t ∨ set.card < 10 ∧ ∃ a ∈ set, a < t ∧ x.1 = mkEq a t) := by
  rw [equalitiesOf, OrdMap.fold, mem_foldl_of_step (fun _ _ _ => mem_equalitiesOf_class) x graph [],
    List.mem_nil_iff, false_or]
  constructor
  · rintro ⟨⟨r, set⟩, hb, t, ht, hx⟩
    exact ⟨r, set, t, OrdMap.find?_of_mem hs hb, ht, hx⟩
  · rintro ⟨r, set, t, hr, ht, hx⟩
    exact ⟨(r, set), OrdMap.mem_of_find? hr, t, ht, hx⟩

/-! ## Dropping the members of proved equalities -/

/-- A term is in a class after the drops when it was before and no drop took it out. By induction
on the equalities proved. -/
theorem inClass_dropClassMembers {t r : T} : ∀ (invs : List (T × (T × T))) {graph : EqGraph T},
    InClass (dropClassMembers graph invs) t r ↔
      InClass graph t r ∧ ∀ inv ∈ invs, ¬(r = inv.2.1 ∧ t = inv.2.2 ∧ t ≠ inv.2.1)
  | [], graph => by simp [dropClassMembers]
  | inv :: invs, graph => by
    rw [dropClassMembers, List.foldl_cons, ← dropClassMembers, inClass_dropClassMembers invs,
      inClass_dropClassMember, List.forall_mem_cons, and_assoc]

omit [LinearOrder T] in
theorem card_filter_lt_lt [LinearOrder T] {s : Finset T} {a t : T} (ha : a ∈ s) (hlt : a < t) :
    (s.filter (· < a)).card < (s.filter (· < t)).card := by
  refine Finset.card_lt_card ((Finset.ssubset_iff_of_subset fun x hx => ?_).2 ⟨a, ?_, ?_⟩)
  · obtain ⟨hxs, hxa⟩ := Finset.mem_filter.1 hx
    exact Finset.mem_filter.2 ⟨hxs, hxa.trans hlt⟩
  · exact Finset.mem_filter.2 ⟨ha, hlt⟩
  · simp

/-- Dropping the members of equalities proved invariant loses no term of a class: each is joined,
by a chain of proved equalities down the class, to a term that stays in it. The chain goes from a
member to the term `equalities_of` paired it with, the representative or a smaller member. -/
theorem dropClassMembers_joined {mkEq : T → T → T} {known : T → Bool} {graph : EqGraph T}
    {invs : List (T × (T × T))} (hs : OrdMap.Sorted graph)
    (hinvs : ∀ inv ∈ invs, inv ∈ equalitiesOf mkEq graph known) {t r : T}
    (ht : InClass graph t r) :
    ∃ a, InClass (dropClassMembers graph invs) a r ∧
      Relation.ReflTransGen (fun t a => ∃ inv ∈ invs, inv.1 = mkEq a t) t a := by
  obtain ⟨set, hr, ht⟩ := ht
  -- the representative stays
  have hrep : InClass (dropClassMembers graph invs) r r :=
    (inClass_dropClassMembers invs).2 ⟨inClass_self hr, fun _ _ h => h.2.2 h.1⟩
  -- by strong induction on the number of members below `t`
  induction hn : (set.filter (· < t)).card using Nat.strong_induction_on generalizing t with
  | _ n ih =>
  rcases ht with rfl | ht
  · exact ⟨t, hrep, .refl⟩
  by_cases hdrop : ∀ inv ∈ invs, ¬(r = inv.2.1 ∧ t = inv.2.2 ∧ t ≠ inv.2.1)
  · exact ⟨t, (inClass_dropClassMembers invs).2 ⟨inClass_member hr ht, hdrop⟩, .refl⟩
  simp only [not_forall, not_not] at hdrop
  obtain ⟨inv, hinv, rfl, rfl, -⟩ := hdrop
  obtain ⟨r', set', t', hr', -, -, h2, hc⟩ := (mem_equalitiesOf hs).1 (hinvs inv hinv)
  obtain ⟨rfl, rfl⟩ := Prod.ext_iff.1 h2
  obtain rfl : set' = set := Option.some.inj (hr'.symm.trans hr)
  rcases hc with h1 | ⟨-, a, ha, hlt, h1⟩
  · -- joined to the representative
    exact ⟨_, hrep, .single ⟨inv, hinv, h1⟩⟩
  · -- joined to a smaller member, itself joined to one that stays
    obtain ⟨b, hb, hab⟩ := ih _ (hn ▸ card_filter_lt_lt ha hlt) (.inr ha) rfl
    exact ⟨b, hb, .head ⟨inv, hinv, h1⟩ hab⟩

theorem dropClassMembers_joined_all :
    ∃ a, InClass (dropClassMembers (mk 0 {3, 4, 6})
        (equalitiesOf Nat.pair (mk 0 {3, 4, 6}) fun _ => false)) a 0 ∧
      Relation.ReflTransGen (fun t a => ∃ inv ∈ equalitiesOf Nat.pair (mk 0 {3, 4, 6})
        (fun _ => false), inv.1 = Nat.pair a t) 6 a := by
  refine dropClassMembers_joined (List.pairwise_singleton _ _) (fun _ h => h) ?_
  exact inClass_mk.2 ⟨rfl, .inr (by decide)⟩

/-! ## Example: two models of small numbers

Terms are numbers, the equality of two terms is their pair, and the lock-step driver knows two
models: one tells the numbers below five, the other the even ones. -/

/-- The value of a term in a model. -/
def smallOrEven (m : Bool) (t : Nat) : Bool := if m then decide (t < 5) else t % 2 == 0

/-- No candidate is known to be invariant. -/
def noneKnown (_ : Nat) : Bool := false

/-- A model falsifying one of the candidates, if any. -/
def smallOrEvenCex (l : List Nat) : Option Bool :=
  [true, false].find? fun m => l.any fun c => smallOrEven m c.unpair.1 != smallOrEven m c.unpair.2

theorem smallOrEvenCex_sound (l : List Nat) (m : Bool) (h : smallOrEvenCex l = some m) :
    ∃ c ∈ l, ¬smallOrEven m c.unpair.1 = smallOrEven m c.unpair.2 := by
  rw [smallOrEvenCex] at h
  have hm := List.find?_some h
  simp only [List.any_eq_true] at hm
  obtain ⟨c, hc, hne⟩ := hm
  exact ⟨c, hc, by simpa using hne⟩

theorem smallOrEvenCex_complete (l : List Nat) (h : smallOrEvenCex l = none) (m : Bool) :
    ∀ c ∈ l, smallOrEven m c.unpair.1 = smallOrEven m c.unpair.2 := by
  intro c hc
  rw [smallOrEvenCex] at h
  have hm := List.find?_eq_none.1 h m (by cases m <;> simp)
  simp only [List.any_eq_true, not_exists, not_and] at hm
  simpa using hm c hc

/-! ## Stabilizing -/

section Stabilize

variable [DecidableEq V] {M : Type} {mkEq : T → T → T} {hasCex : List T → Option M}
  {evalOf : M → T → V} {known : T → Bool} {holds : M → T → Prop}

omit [DecidableEq V] in
/-- A model falsifying a candidate tells a member of a class from its representative. -/
theorem exists_separated (hholds : ∀ m a b, holds m (mkEq a b) ↔ evalOf m a = evalOf m b)
    {graph : EqGraph T} (hs : OrdMap.Sorted graph) {m : M}
    (hc : ∃ c ∈ termsOf mkEq graph known, ¬holds m c) :
    ∃ rep set t, find? rep graph = some set ∧ t ∈ set ∧ evalOf m t ≠ evalOf m rep := by
  obtain ⟨c, hc, hfalse⟩ := hc
  obtain ⟨r, set, t, hr, ht, -, rfl⟩ := (mem_termsOf hs).1 hc
  exact ⟨r, set, t, hr, ht, fun he => hfalse ((hholds m r t).2 he.symm)⟩

/-- One round of `stabilize`: without a model it halts, and a model falsifying a candidate splits
the graph into a refinement with more classes. -/
theorem stabilizeStep_cases (hholds : ∀ m a b, holds m (mkEq a b) ↔ evalOf m a = evalOf m b)
    (hsound : ∀ l m, hasCex l = some m → ∃ c ∈ l, ¬holds m c) {S : Finset T}
    {seen : List (T → V)} {graph : EqGraph T} (h : Inv S seen graph) :
    (stabilizeStep mkEq hasCex evalOf known graph = .halt graph ∧
        hasCex (termsOf mkEq graph known) = none) ∨
      ∃ m, stabilizeStep mkEq hasCex evalOf known graph =
          .next (modelStabilize graph (evalOf m)) ∧
        Inv S (evalOf m :: seen) (modelStabilize graph (evalOf m)) ∧
        Refines (modelStabilize graph (evalOf m)) graph ∧
        graph.length < (modelStabilize graph (evalOf m)).length := by
  cases hcex : hasCex (termsOf mkEq graph known) with
  | none => exact .inl ⟨by rw [stabilizeStep, hcex], rfl⟩
  | some m =>
    obtain ⟨hi, href⟩ := inv_modelStabilize h (evalOf m)
    obtain ⟨rep, set, t, hrep, ht, hne⟩ :=
      exists_separated hholds h.sorted (hsound _ m hcex)
    -- the model splits the member from its representative
    have hsep : ¬InClass (modelStabilize graph (evalOf m)) t rep := fun hin =>
      hne (hi.agree _ List.mem_cons_self hin)
    exact .inr ⟨m, by rw [stabilizeStep, hcex], hi, href, href.length_lt h hi hrep ht hsep⟩

/-- `stabilize` terminates on a graph that keeps its invariant, against a lock-step driver whose
counterexamples falsify a candidate: every round adds a class, and there are at most as many
classes as terms. The result refines the graph, and when the driver finds no counterexample only
on candidates that hold in every base model, every class agrees in every base model, but for the
candidates `known`. -/
theorem stabilize_terminates {S : Finset T} {seen : List (T → V)} {graph : EqGraph T}
    (Base : M → Prop) (hholds : ∀ m a b, holds m (mkEq a b) ↔ evalOf m a = evalOf m b)
    (hsound : ∀ l m, hasCex l = some m → ∃ c ∈ l, ¬holds m c)
    (hcomplete : ∀ l, hasCex l = none → ∀ m, Base m → ∀ c ∈ l, holds m c)
    (h : Inv S seen graph) :
    ∃ g, Inv S seen g ∧ Refines g graph ∧
      (∀ m, Base m → ∀ {t r}, InClass g t r → known (mkEq r t) = false →
        evalOf m t = evalOf m r) ∧
      ∃ n, ∀ fuel, n ≤ fuel → stabilize fuel mkEq hasCex evalOf known graph = some (.ok g) := by
  -- the variant is the number of terms that no class represents yet
  have hwf : WellFounded (InvImage (· < ·) fun g : EqGraph T => S.card - g.length) :=
    InvImage.wf _ Nat.lt_wfRel.wf
  have hstep : ∀ g, Inv S seen g ∧ Refines g graph →
      (∃ a, stabilizeStep mkEq hasCex evalOf known g = .halt a ∧
        Inv S seen a ∧ Refines a graph ∧ hasCex (termsOf mkEq a known) = none) ∨
      ∃ g', stabilizeStep mkEq hasCex evalOf known g = .next g' ∧
        (Inv S seen g' ∧ Refines g' graph) ∧ S.card - g'.length < S.card - g.length := by
    rintro g ⟨hg, hgr⟩
    rcases stabilizeStep_cases hholds hsound hg with ⟨hhalt, hnone⟩ | ⟨m, hnext, hi, href, hlt⟩
    · exact .inl ⟨g, hhalt, hg, hgr, hnone⟩
    · have hle := hi.length_le
      exact .inr ⟨_, hnext, ⟨hi.of_seen fun e he => List.mem_cons_of_mem _ he,
        href.trans hgr h⟩, by omega⟩
  obtain ⟨g, ⟨hg, hgr, hnone⟩, hfuel⟩ :=
    Machine.run_of_variant hwf hstep graph ⟨h, Refines.refl graph⟩
  refine ⟨g, hg, hgr, fun m hm t r hin hk => ?_, hfuel⟩
  -- every member not `known` is a candidate, and the candidates hold in every base model
  rcases hin with ⟨set, hr, rfl | ht⟩
  · rfl
  · have hc : mkEq r t ∈ termsOf mkEq g known :=
      (mem_termsOf hg.sorted).2 ⟨r, set, t, hr, ht, hk, rfl⟩
    exact ((hholds m r t).1 (hcomplete _ hnone m hm _ hc)).symm

end Stabilize

theorem stabilize_terminates_smallOrEven :
    ∃ g, Inv ({0, 3, 4, 6} : Finset Nat) ([] : List (Nat → Bool)) g ∧ Refines g (mk 0 {3, 4, 6}) ∧
      (∀ m : Bool, True → ∀ {t r}, InClass g t r → noneKnown (Nat.pair r t) = false →
        smallOrEven m t = smallOrEven m r) ∧
      ∃ n, ∀ fuel, n ≤ fuel → stabilize fuel Nat.pair smallOrEvenCex smallOrEven noneKnown
        (mk 0 {3, 4, 6}) = some (.ok g) := by
  refine stabilize_terminates (V := Bool) (fun _ => True) ?_ smallOrEvenCex_sound
    (fun l h m _ => smallOrEvenCex_complete l h m) (inv_mk 0 {3, 4, 6})
  intro m a b
  rw [Nat.unpair_pair]

/-! ## Runs of invariant generation on the graph -/

/-- What invariant generation does to the graph (`InvGen.main`): stabilize it on a model of the
base instance, or drop a member whose equality with its class is proved invariant. -/
inductive Op (T V : Type)
  | stabilize (eval : T → V)
  | drop (rep term : T)

section Runs

variable [DecidableEq V]

/-- The graph after an operation. -/
def applyOp (graph : EqGraph T) : Op T V → EqGraph T
  | .stabilize eval => modelStabilize graph eval
  | .drop rep term => dropClassMember graph rep term

omit [DecidableEq V] in
/-- The terms the operations drop. -/
def droppedOf : List (Op T V) → Finset T
  | [] => ∅
  | .stabilize _ :: ops => droppedOf ops
  | .drop _ term :: ops => insert term (droppedOf ops)

omit [LinearOrder T] [DecidableEq V] in
/-- The models the operations stabilize on. -/
def modelsOf : List (Op T V) → List (T → V)
  | [] => []
  | .stabilize eval :: ops => eval :: modelsOf ops
  | .drop _ _ :: ops => modelsOf ops

omit [DecidableEq V] in
/-- Dropping a member refines the graph. -/
theorem refines_dropClassMember (graph : EqGraph T) (rep term : T) :
    Refines (dropClassMember graph rep term) graph where
  keys {k s} hk := by
    cases hrep : find? rep graph with
    | none => exact ⟨s, by rw [dropClassMember, hrep]; exact hk⟩
    | some set =>
      rw [dropClassMember_of_find? hrep, OrdMap.find?_add]
      split_ifs
      · exact ⟨_, rfl⟩
      · exact ⟨s, hk⟩
  classes h := ⟨_, (inClass_dropClassMember.1 h).1, (inClass_dropClassMember.1 h).1.rep⟩

/-- Any run of stabilizations and drops from a graph that keeps its invariant keeps it and
refines the graph: the covered terms lose at most the dropped ones, and every class agrees with
its representative on every model stabilized on. By induction on the run. -/
theorem inv_applyOps : ∀ (ops : List (Op T V)) {S : Finset T} {seen : List (T → V)}
    {graph : EqGraph T}, Inv S seen graph →
      ∃ S', S \ droppedOf ops ⊆ S' ∧ S' ⊆ S ∧
        Inv S' (modelsOf ops ++ seen) (ops.foldl applyOp graph) ∧
        Refines (ops.foldl applyOp graph) graph
  | [], S, _, graph, h => ⟨S, Finset.sdiff_subset, subset_rfl, h, Refines.refl graph⟩
  | .stabilize eval :: ops, S, seen, graph, h => by
    obtain ⟨hi, href⟩ := inv_modelStabilize h eval
    obtain ⟨S', hlo, hhi, hi', href'⟩ := inv_applyOps ops hi
    refine ⟨S', hlo, hhi, hi'.of_seen fun e he => ?_, href'.trans href h⟩
    -- the same models, the one of this step moved to the front
    simp only [modelsOf, List.cons_append, List.mem_cons, List.mem_append] at he ⊢
    tauto
  | .drop rep term :: ops, S, seen, graph, h => by
    obtain ⟨S₁, hsub, herase, h₁⟩ := inv_dropClassMember h rep term
    obtain ⟨S', hlo, hhi, hi', href'⟩ := inv_applyOps ops h₁
    refine ⟨S', fun x hx => hlo ?_, hhi.trans hsub, hi',
      href'.trans (refines_dropClassMember graph rep term) h⟩
    obtain ⟨hxS, hxd⟩ := Finset.mem_sdiff.1 hx
    rw [droppedOf, Finset.mem_insert, not_or] at hxd
    exact Finset.mem_sdiff.2 ⟨herase (Finset.mem_erase.2 ⟨hxd.1, hxS⟩), hxd.2⟩

end Runs

theorem inv_applyOps_smallOrEven :
    ∃ S', ({0, 3, 4, 6} : Finset Nat) \ droppedOf [.stabilize (smallOrEven true), .drop 0 4] ⊆ S' ∧
      S' ⊆ {0, 3, 4, 6} ∧
      Inv S' (modelsOf [.stabilize (smallOrEven true), .drop 0 4] ++ [])
        ([.stabilize (smallOrEven true), .drop 0 4].foldl applyOp (mk 0 {3, 4, 6})) ∧
      Refines ([.stabilize (smallOrEven true), .drop 0 4].foldl applyOp (mk 0 {3, 4, 6}))
        (mk 0 {3, 4, 6}) :=
  inv_applyOps _ (inv_mk 0 {3, 4, 6})

end MakeEq

/-- The elements of a set in increasing order: the order in which OCaml's `Set.iter`,
`Set.fold` and `Set.elements` visit them. -/
abbrev elements {T : Type} [LinearOrder T] (s : Finset T) : List T := s.sort

end InvGen
end Kind2
