import Kind2.InvGen.EqGraph

/-!
# The graph of invariant generation

`InvGenGraph.Make(Dom)` (`src/invgen/invGenGraph.ml:194`) keeps the candidate invariants of a
domain as a graph over equivalence classes of terms. `classes` binds each representative to the
other terms of its class, `map_up` to the representatives above it and `map_down` to those below
it, and `values` to its value in the current model. `split` splits the class of a representative by
the values its terms take in a model into a chain of classes of decreasing values, which `insert`
(not modelled here) puts in place of the representative in `map_up` and `map_down`.

The hash tables are sorted association lists (`OrdMap`), term sets are finite sets iterated in
increasing order, and the values of the domain are linearly ordered: `Domain.cmp` is `≤` and
`Domain.eq` is `=`, as for the Booleans (`false < true`), the integers and the reals. `Map.find`,
`List.hd` and `failwith` fail with a `Failure`; `apply ~not_found:(Some default)` never fails and is
`applyD`. `top` stands for `Term.t_true` and `bot` for `Term.t_false`.

`parent_trc` adds to `known` the terms below a node through nodes not known yet
(`parentTrc_spec`): a worklist loop, well founded on the terms of `map_down` not seen yet. The
fold of `split` keeps a chain of strictly decreasing values whose classes hold the terms met of
each value (`sortedAcc_splitSorted`); the chain with the representative partitions the class by
value (`ChainOf`), and `split` binds each representative of the chain to its class and value
(`split_partitions_class`).
-/

namespace Kind2
namespace InvGen
namespace Make

open OrdMap (find? add)

/-- The ways the graph functions fail: an uncaught exception of the standard library, or one of
their `failwith`s. -/
inductive Failure (T : Type) where
  /-- `Not_found` of `Map.find`. -/
  | notFound
  /-- `Failure "hd"` of `List.hd`. -/
  | hd
  /-- `apply`: "could not find %a in map". -/
  | couldNotFind (key : T)
  /-- `next_of_continuation`: "could not find rep %a in map down". -/
  | couldNotFindInMapDown (rep : T)
  /-- `stabilize_classes`: "could not find rep %a in class map". -/
  | couldNotFindInClassMap (rep : T)
  deriving DecidableEq

/-- `Make(Dom).graph`. -/
structure Graph (T V : Type) where
  mapUp : List (T × Finset T)
  mapDown : List (T × Finset T)
  classes : EqGraph T
  values : List (T × V)

variable {T V : Type} [LinearOrder T]

/-! ## The graph operations -/

/-- `mk rep candidates`: the class of `rep` alone, with no neighbour and no value. -/
def mk (rep : T) (candidates : Finset T) : Graph T V where
  mapUp := add rep ∅ []
  mapDown := add rep ∅ []
  classes := add rep candidates []
  values := []

/-- `Map.find`. -/
def find {β : Type} (key : T) (map : List (T × β)) : Except (Failure T) β :=
  match find? key map with
  | some v => .ok v
  | none => .error .notFound

/-- `apply f key map`: the binding of `key` replaced by its image under `f`, or a failure. -/
def apply (f : Finset T → Finset T) (key : T) (map : List (T × Finset T)) :
    Except (Failure T) (List (T × Finset T)) :=
  match find? key map with
  | some set => .ok (add key (f set) map)
  | none => .error (.couldNotFind key)

/-- `apply ~not_found:(Some default) f key map`: an unbound key is bound to the image of
`default`. -/
def applyD (default : Finset T) (f : Finset T → Finset T) (key : T)
    (map : List (T × Finset T)) : List (T × Finset T) :=
  add key (f ((find? key map).getD default)) map

/-- `add_up graph rep kid`: the edge from `rep` up to `kid`. -/
def addUp (g : Graph T V) (rep kid : T) : Graph T V :=
  { g with
    mapUp := applyD ∅ (insert kid) rep g.mapUp
    mapDown := applyD ∅ (insert rep) kid g.mapDown }

/-- `clear graph`: no value. -/
def clear (g : Graph T V) : Graph T V := { g with values := [] }

/-- `term_count graph`: each representative and the terms of its class. -/
def termCount (g : Graph T V) : Nat :=
  OrdMap.fold (fun _ cls sum => sum + 1 + cls.card) g.classes 0

/-- `class_count`. -/
def classCount (g : Graph T V) : Nat := g.classes.length

/-- `is_stale graph`. -/
def isStale (g : Graph T V) : Bool := termCount g == classCount g

/-- `drop_class_member graph rep term`; an unknown representative is logged and `Not_found`
raised again. -/
def dropClassMember (g : Graph T V) (rep term : T) : Except (Failure T) (Graph T V) :=
  match find? rep g.classes with
  | some set => .ok { g with classes := add rep (set.erase term) g.classes }
  | none => .error .notFound

/-- `equalities_of graph known`, the same function as `MakeEq.equalities_of`, on the classes. -/
def equalitiesOf (mkEq : T → T → T) (g : Graph T V) (known : T → Bool) :
    List (T × (T × T)) :=
  MakeEq.equalitiesOf mkEq g.classes known

/-- The local `cond_cons l cand` of `relations_of`, with the `TrivialRelation` of `Domain.mk_cmp`
as `none`. -/
def condCmp (known : T → Bool) (l : List T) : Option T → List T
  | some cand => if known cand then l else cand :: l
  | none => l

/-- `relations_of graph acc known`: the comparisons of every representative but the bottom with the
representatives above it but the top and the members of their classes, without the unit info. -/
def relationsOf (mkCmp : T → T → Option T) (isBot isTop : T → Bool) (g : Graph T V)
    (acc : List T) (known : T → Bool) : Except (Failure T) (List T) :=
  g.mapUp.foldlM (fun acc b =>
    if isBot b.1 then pure acc
    else (elements b.2).foldlM (fun acc rep' =>
      if isTop rep' then pure acc
      else do
        let acc := condCmp known acc (mkCmp b.1 rep')
        let cls ← find rep' g.classes
        pure ((elements cls).foldl (fun acc term => condCmp known acc (mkCmp b.1 term)) acc))
      acc) acc

/-- `check_graph graph`, without its logs and dumps: every representative of `map_up` has kids
(but `Term.t_false` and `Term.t_true`), a class, and is below each of its kids. -/
def checkGraph (top bot : T) (g : Graph T V) : Bool :=
  OrdMap.fold (fun rep reps ok =>
    let noKids := decide (reps = ∅ ∧ rep ≠ bot ∧ rep ≠ top)
    let hasClass := (find? rep g.classes).isSome
    let kidsOk := (elements reps).all fun kid =>
      match find? kid g.mapDown with
      | some parents => decide (rep ∈ parents)
      | none => false
    ok && (!noKids && hasClass && kidsOk)) g.mapUp true

/-! ## The transitive closure of the parent relation -/

/-- The body of the `Set.fold` of the loop of `parent_trc`: a kid not seen yet is seen, and to
do. -/
def trcKid (acc : Finset T × Finset T) (kid : T) : Finset T × Finset T :=
  if kid ∈ acc.1 then acc else (insert kid acc.1, insert kid acc.2)

/-- The terms bound in a map. -/
def boundTerms (map : List (T × Finset T)) : Finset T :=
  map.foldr (fun b acc => b.2 ∪ acc) ∅

theorem foldl_trcKid : ∀ (l : List T) (acc : Finset T × Finset T),
    l.foldl trcKid acc = (acc.1 ∪ l.toFinset, acc.2 ∪ (l.toFinset \ acc.1))
  | [], acc => by simp
  | kid :: l, acc => by
    rw [List.foldl_cons, foldl_trcKid l, List.toFinset_cons]
    unfold trcKid
    split_ifs with hk
    · rw [Finset.union_insert, Finset.insert_eq_of_mem (Finset.mem_union_left _ hk),
        Finset.insert_sdiff_of_mem _ hk]
    · refine Prod.ext ((Finset.insert_union _ _ _).trans (Finset.union_insert _ _ _).symm) ?_
      ext x
      by_cases hx : x = kid
      · subst hx
        simp [hk]
      · simp [hx]

theorem subset_boundTerms {map : List (T × Finset T)} {k : T} {kids : Finset T}
    (h : find? k map = some kids) : kids ⊆ boundTerms map := by
  have hmem := OrdMap.mem_of_find? h
  clear h
  induction map with
  | nil => exact absurd hmem List.not_mem_nil
  | cons b map ih =>
    rcases List.mem_cons.1 hmem with rfl | hmem
    · exact Finset.subset_union_left
    · exact (ih hmem).trans Finset.subset_union_right

/-- The `Set.fold` of the loop of `parent_trc` over the kids of `rep`, from `rep` seen. -/
def trcStep (kids : Finset T) (rep : T) (set toDo : Finset T) : Finset T × Finset T :=
  (elements kids).foldl trcKid (insert rep set, toDo)

theorem trcStep_eq (kids : Finset T) (rep : T) (set toDo : Finset T) :
    trcStep kids rep set toDo = (insert rep set ∪ kids, toDo ∪ (kids \ insert rep set)) := by
  rw [trcStep, foldl_trcKid, Finset.sort_toFinset]

/-- The local `loop to_do set rep` of `parent_trc`: `rep` and its kids are seen, the kids not seen
yet are to do, and the loop goes on with the least of them (`Set.choose`). -/
def parentTrcLoop (mapDown : List (T × Finset T)) (toDo set : Finset T) (rep : T) :
    Except (Failure T) (Finset T) :=
  match _hk : find? rep mapDown with
  | none => .error .notFound
  | some kids =>
    if h : (trcStep kids rep set toDo).2.Nonempty then
      parentTrcLoop mapDown ((trcStep kids rep set toDo).2.erase
          ((trcStep kids rep set toDo).2.min' h)) (trcStep kids rep set toDo).1
        ((trcStep kids rep set toDo).2.min' h)
    else .ok (trcStep kids rep set toDo).1
termination_by ((boundTerms mapDown \ set).card, toDo.card)
decreasing_by
  have hsub : set ⊆ (trcStep kids rep set toDo).1 := by
    rw [trcStep_eq]
    exact (Finset.subset_insert _ _).trans Finset.subset_union_left
  have hle : (boundTerms mapDown \ (trcStep kids rep set toDo).1).card ≤
      (boundTerms mapDown \ set).card :=
    Finset.card_le_card (Finset.sdiff_subset_sdiff subset_rfl hsub)
  -- a new kid is a bound term seen now; without one, the work left is one less
  by_cases hnew : kids ⊆ insert rep set
  · have hdo : (trcStep kids rep set toDo).2 = toDo := by
      rw [trcStep_eq, Finset.sdiff_eq_empty_iff_subset.2 hnew, Finset.union_empty]
    rcases hle.lt_or_eq with hlt | heq
    · exact Prod.Lex.left _ _ hlt
    · rw [heq]
      refine Prod.Lex.right _ ?_
      calc _ < (trcStep kids rep set toDo).2.card :=
            Finset.card_erase_lt_of_mem (Finset.min'_mem _ h)
        _ = toDo.card := by rw [hdo]
  · obtain ⟨kid, hkid, hnot⟩ := Finset.not_subset.1 hnew
    refine Prod.Lex.left _ _ (Finset.card_lt_card ((Finset.ssubset_iff_of_subset
      (Finset.sdiff_subset_sdiff subset_rfl hsub)).2 ⟨kid, ?_, ?_⟩))
    · exact Finset.mem_sdiff.2 ⟨subset_boundTerms _hk hkid,
        fun hs => hnot (Finset.mem_insert_of_mem hs)⟩
    · rw [trcStep_eq]
      simp [hkid]

/-- `parent_trc map_down known node`: `known` and the terms below `node` through terms not
known. -/
def parentTrc (mapDown : List (T × Finset T)) (known : Finset T) (node : T) :
    Except (Failure T) (Finset T) :=
  parentTrcLoop mapDown ∅ known node

/-- `x` is below `node` in `map_down`, through terms not `known` but `node` itself. -/
inductive Below (mapDown : List (T × Finset T)) (known : Finset T) (node : T) : T → Prop
  | refl : Below mapDown known node node
  | step {x k : T} {kids : Finset T} : Below mapDown known node x → (x = node ∨ x ∉ known) →
      find? x mapDown = some kids → k ∈ kids → Below mapDown known node k

section Trc

variable {mapDown : List (T × Finset T)} {known : Finset T} {node : T}

/-- What the loop of `parent_trc` keeps: the terms seen are the known ones and terms below the
node, those to do are seen, below and not known, and the kids of every term seen, not known, not to
do and not `rep` are seen. -/
structure TrcInv (mapDown : List (T × Finset T)) (known : Finset T) (node : T)
    (toDo set : Finset T) (rep : T) : Prop where
  known_sub : known ⊆ set
  sub : ∀ y ∈ set, y ∈ known ∨ Below mapDown known node y
  rep_below : Below mapDown known node rep
  rep_new : rep = node ∨ rep ∉ known
  node_mem : node ∈ insert rep set
  toDo_sub : toDo ⊆ set
  toDo_below : ∀ y ∈ toDo, Below mapDown known node y ∧ y ∉ known
  closed : ∀ x ∈ set, (x = node ∨ x ∉ known) → x ∉ toDo → x ≠ rep →
    ∀ kids, find? x mapDown = some kids → kids ⊆ set

theorem trcInv_init : TrcInv mapDown known node ∅ known node where
  known_sub := subset_rfl
  sub _ hy := .inl hy
  rep_below := .refl
  rep_new := .inl rfl
  node_mem := Finset.mem_insert_self _ _
  toDo_sub := Finset.empty_subset _
  toDo_below _ h := absurd h (Finset.notMem_empty _)
  closed _ hx hnew _ hne := absurd (hnew.resolve_right (not_not.2 hx)) hne

/-- The terms seen after `rep`: the old ones, `rep` and its kids, all known or below. -/
theorem TrcInv.sub_step {toDo set : Finset T} {rep : T} (h : TrcInv mapDown known node toDo set rep)
    {kids : Finset T} (hk : find? rep mapDown = some kids) :
    ∀ y ∈ (trcStep kids rep set toDo).1, y ∈ known ∨ Below mapDown known node y := by
  intro y hy
  rw [trcStep_eq, Finset.mem_union, Finset.mem_insert] at hy
  rcases hy with (rfl | hy) | hy
  · exact .inr h.rep_below
  · exact h.sub y hy
  · exact .inr (.step h.rep_below h.rep_new hk hy)

/-- The terms to do after `rep` are below and not known. -/
theorem TrcInv.toDo_step {toDo set : Finset T} {rep : T}
    (h : TrcInv mapDown known node toDo set rep)
    {kids : Finset T} (hk : find? rep mapDown = some kids) :
    ∀ y ∈ (trcStep kids rep set toDo).2, Below mapDown known node y ∧ y ∉ known := by
  intro y hy
  rw [trcStep_eq, Finset.mem_union, Finset.mem_sdiff, Finset.mem_insert, not_or] at hy
  rcases hy with hy | ⟨hkid, -, hns⟩
  · exact h.toDo_below y hy
  · exact ⟨.step h.rep_below h.rep_new hk hkid, fun hkn => hns (h.known_sub hkn)⟩

/-- The kids of a term seen before `rep`, or of `rep`, are seen after `rep`. -/
theorem TrcInv.closed_step {toDo set : Finset T} {rep : T}
    (h : TrcInv mapDown known node toDo set rep) {kids : Finset T}
    (hk : find? rep mapDown = some kids) :
    ∀ x ∈ (trcStep kids rep set toDo).1, (x = node ∨ x ∉ known) →
      x ∉ (trcStep kids rep set toDo).2 → ∀ kids', find? x mapDown = some kids' →
        kids' ⊆ (trcStep kids rep set toDo).1 := by
  intro x hx hnew hdo kids' hk'
  have hsub : set ⊆ (trcStep kids rep set toDo).1 := by
    rw [trcStep_eq]
    exact (Finset.subset_insert _ _).trans Finset.subset_union_left
  by_cases hxr : x = rep
  · subst hxr
    rw [hk, Option.some.injEq] at hk'
    subst hk'
    rw [trcStep_eq]
    exact Finset.subset_union_right
  -- a term seen before `rep` and not to do any more was seen and not to do before
  have hxs : x ∈ set := by
    rw [trcStep_eq, Finset.mem_union, Finset.mem_insert] at hx
    rcases hx with (hx | hx) | hx
    · exact absurd hx hxr
    · exact hx
    · by_contra hxs
      refine hdo ?_
      rw [trcStep_eq]
      exact Finset.mem_union_right _ (Finset.mem_sdiff.2 ⟨hx, by simp [hxr, hxs]⟩)
  have hxd : x ∉ toDo := fun hxd => hdo (by rw [trcStep_eq]; exact Finset.mem_union_left _ hxd)
  exact (h.closed x hxs hnew hxd hxr kids' hk').trans hsub

theorem TrcInv.step {toDo set : Finset T} {rep : T} (h : TrcInv mapDown known node toDo set rep)
    {kids : Finset T} (hk : find? rep mapDown = some kids)
    (hne : (trcStep kids rep set toDo).2.Nonempty) :
    TrcInv mapDown known node ((trcStep kids rep set toDo).2.erase
      ((trcStep kids rep set toDo).2.min' hne)) (trcStep kids rep set toDo).1
      ((trcStep kids rep set toDo).2.min' hne) := by
  have hsub : insert rep set ⊆ (trcStep kids rep set toDo).1 := by
    rw [trcStep_eq]
    exact Finset.subset_union_left
  have hdo : (trcStep kids rep set toDo).2 ⊆ (trcStep kids rep set toDo).1 := by
    rw [trcStep_eq]
    refine Finset.union_subset (h.toDo_sub.trans ((Finset.subset_insert _ _).trans
      Finset.subset_union_left)) ((Finset.sdiff_subset).trans Finset.subset_union_right)
  have hm := (h.toDo_step hk) _ (Finset.min'_mem _ hne)
  refine ⟨h.known_sub.trans ((Finset.subset_insert _ _).trans hsub), h.sub_step hk, hm.1,
    .inr hm.2, Finset.mem_insert_of_mem (hsub h.node_mem), (Finset.erase_subset _ _).trans hdo,
    fun y hy => (h.toDo_step hk) y (Finset.mem_of_mem_erase hy), ?_⟩
  intro x hx hnew hxd hxm
  exact h.closed_step hk x hx hnew (fun hx' => hxd (Finset.mem_erase.2 ⟨hxm, hx'⟩))

/-- When nothing is left to do, the terms seen are the known ones and those below the node. -/
theorem TrcInv.finish {toDo set : Finset T} {rep : T} (h : TrcInv mapDown known node toDo set rep)
    {kids : Finset T} (hk : find? rep mapDown = some kids)
    (hne : ¬(trcStep kids rep set toDo).2.Nonempty) :
    ∀ y, y ∈ (trcStep kids rep set toDo).1 ↔ y ∈ known ∨ Below mapDown known node y := by
  have hempty : (trcStep kids rep set toDo).2 = ∅ := Finset.not_nonempty_iff_eq_empty.1 hne
  have hsub : insert rep set ⊆ (trcStep kids rep set toDo).1 := by
    rw [trcStep_eq]
    exact Finset.subset_union_left
  intro y
  refine ⟨h.sub_step hk y, fun hy => ?_⟩
  rcases hy with hy | hy
  · exact hsub (Finset.mem_insert_of_mem (h.known_sub hy))
  -- every term below the node is seen, by induction on the path down to it
  induction hy with
  | refl => exact hsub h.node_mem
  | step _ hnew hx hkid ih =>
    exact h.closed_step hk _ ih hnew (by rw [hempty]; exact Finset.notMem_empty _) _ hx hkid

theorem parentTrcLoop_eq {toDo set : Finset T} {rep : T} {kids : Finset T}
    (hk : find? rep mapDown = some kids) :
    parentTrcLoop mapDown toDo set rep =
      if h : (trcStep kids rep set toDo).2.Nonempty then
        parentTrcLoop mapDown ((trcStep kids rep set toDo).2.erase
          ((trcStep kids rep set toDo).2.min' h)) (trcStep kids rep set toDo).1
          ((trcStep kids rep set toDo).2.min' h)
      else .ok (trcStep kids rep set toDo).1 := by
  rw [parentTrcLoop]
  split
  · next h => rw [hk] at h; cases h
  · next kids' h =>
    rw [hk, Option.some.injEq] at h
    subst h
    rfl

/-- `parent_trc map_down known node` adds to `known` exactly the terms below `node` through terms
not known, when every term it walks through has parents in `map_down`. -/
theorem parentTrc_spec
    (hkeys : ∀ x, Below mapDown known node x → (x = node ∨ x ∉ known) →
      ∃ kids, find? x mapDown = some kids) :
    ∃ R, parentTrc mapDown known node = .ok R ∧
      ∀ y, y ∈ R ↔ y ∈ known ∨ Below mapDown known node y := by
  suffices hloop : ∀ toDo set rep, TrcInv mapDown known node toDo set rep →
      ∃ R, parentTrcLoop mapDown toDo set rep = .ok R ∧
        ∀ y, y ∈ R ↔ y ∈ known ∨ Below mapDown known node y from
    hloop ∅ known node trcInv_init
  intro toDo set rep
  induction toDo, set, rep using parentTrcLoop.induct mapDown with
  | case1 toDo set rep hk =>
    intro h
    obtain ⟨kids, hk'⟩ := hkeys rep h.rep_below h.rep_new
    rw [hk] at hk'
    cases hk'
  | case2 toDo set rep kids hk hne ih =>
    intro h
    rw [parentTrcLoop_eq hk, dif_pos hne]
    exact ih (h.step hk hne)
  | case3 toDo set rep kids hk hne =>
    intro h
    rw [parentTrcLoop_eq hk, dif_neg hne]
    exact ⟨_, rfl, h.finish hk hne⟩

/-- Every term below the node is bound in `map_down` when the node is and the kids of every bound
term are, as `check_graph` asks. By induction on `Below`. -/
theorem Below.isSome_find? (hnode : (find? node mapDown).isSome)
    (hkids : ∀ b ∈ mapDown, ∀ k ∈ b.2, (find? k mapDown).isSome) {x : T}
    (hx : Below mapDown known node x) : (find? x mapDown).isSome := by
  induction hx with
  | refl => exact hnode
  | step _ _ hfind hk _ => exact hkids _ (OrdMap.mem_of_find? hfind) _ hk

theorem parentTrc_spec_path :
    ∃ R, parentTrc [(0, {1}), (1, {2}), (2, ∅)] (∅ : Finset Nat) 0 = .ok R ∧
      ∀ y, y ∈ R ↔ y ∈ (∅ : Finset Nat) ∨ Below [(0, {1}), (1, {2}), (2, ∅)] ∅ 0 y :=
  parentTrc_spec fun _ hx _ => Option.isSome_iff_exists.1 (hx.isSome_find? (by decide) (by decide))

end Trc

/-! ## Splitting a class -/

section Split

variable [LinearOrder V]

/-- The local `insert ?is_rep pref sorted term value` of `split`, with the class of the
representative it updates (`rep_cl4ss`). `sorted` is a chain of classes of decreasing values. A
term of the representative's value is left out, but the representative itself (`isRep`); another
term is taken out of the representative's class and joins the class of its value in the chain, or
makes a new one in its place (with the representative's class for the representative). -/
def splitInsert (repVal : V) (isRep : Bool) :
    Finset T → List (T × V × Finset T) → List (T × V × Finset T) → T → V →
      List (T × V × Finset T) × Finset T
  | repCls, pref, sorted, term, value =>
    if isRep = true ∨ value ≠ repVal then
      let default := if isRep then repCls else ∅
      let repCls := if isRep then repCls else repCls.erase term
      match sorted with
      | [] => (((term, value, default) :: pref).reverse, repCls)
      | (r, value', set) :: tail =>
        if value = value' then (pref.reverseAux ((r, value', insert term set) :: tail), repCls)
        else if value' ≤ value then
          (pref.reverseAux ((term, value, default) :: (r, value', set) :: tail), repCls)
        else splitInsert repVal isRep repCls ((r, value', set) :: pref) tail term value
    else (sorted, repCls)

/-- The `Set.fold` of `split` over the class of the representative: each term inserted in turn,
from no chain and the whole class. -/
def splitSorted (eval : T → V) (repVal : V) (cls : Finset T) :
    List (T × V × Finset T) × Finset T :=
  (elements cls).foldl (fun acc term => splitInsert repVal false acc.2 [] acc.1 term (eval term))
    ([], cls)

/-- The renaming in the `List.map` of `split`: a class holding `Term.t_true` (`top`) is represented
by it, with the old representative among its terms. -/
def renameTop (top : T) (b : T × Finset T) : T × Finset T :=
  if top ∈ b.2 then (top, (insert b.1 b.2).erase top) else b

/-- The `List.map` of `split` over the chain with the representative: each representative, renamed,
is new, bound to its class and value, and given neighbours if it has none. -/
def splitRecord (top : T) : List (T × V × Finset T) → Finset T → Graph T V →
    List (T × V) × Finset T × Graph T V
  | [], newReps, g => ([], newReps, g)
  | (rep, value, set) :: tail, newReps, g =>
    let b := renameTop top (rep, set)
    let r := splitRecord top tail (insert b.1 newReps)
      { g with
        classes := add b.1 b.2 g.classes
        values := add b.1 value g.values
        mapUp := applyD ∅ id b.1 g.mapUp
        mapDown := applyD ∅ id b.1 g.mapDown }
    ((b.1, value) :: r.1, r.2)

/-- `split sys new_reps graph model rep`, with `eval` for `Domain.eval sys model`: the chain of the
classes of the values of the terms of the class of `rep`, in decreasing order, and the new
representatives. A class whose terms all have the value of `rep` only records it. -/
def split (eval : T → V) (top : T) (newReps : Finset T) (g : Graph T V) (rep : T) :
    Except (Failure T) (List (T × V) × Finset T × Graph T V) :=
  match find? rep g.classes with
  | none => .error .notFound
  | some cls =>
    match (splitSorted eval (eval rep) cls).1 with
    | [] => .ok ([(rep, eval rep)], newReps, { g with values := add rep (eval rep) g.values })
    | sorted =>
      .ok (splitRecord top (splitInsert (eval rep) true (splitSorted eval (eval rep) cls).2 []
        sorted rep (eval rep)).1 newReps g)

/-- The insertion of `split`'s local `insert` without its accumulator: a term joins the class of its
value in the decreasing chain, or makes a new class with `default` in its place. -/
def chainInsert (term : T) (value : V) (default : Finset T) :
    List (T × V × Finset T) → List (T × V × Finset T)
  | [] => [(term, value, default)]
  | (r, value', set) :: tail =>
    if value = value' then (r, value', insert term set) :: tail
    else if value' ≤ value then (term, value, default) :: (r, value', set) :: tail
    else (r, value', set) :: chainInsert term value default tail

theorem splitInsert_eq {repVal : V} {isRep : Bool} {term : T} {value : V}
    (hin : isRep = true ∨ value ≠ repVal) :
    ∀ (repCls : Finset T) (pref sorted : List (T × V × Finset T)),
    splitInsert repVal isRep repCls pref sorted term value =
      (pref.reverse ++ chainInsert term value (if isRep then repCls else ∅) sorted,
        if isRep then repCls else repCls.erase term)
  | repCls, pref, [] => by
    rw [splitInsert, if_pos hin]
    simp [chainInsert]
  | repCls, pref, (r, value', set) :: tail => by
    rw [splitInsert, if_pos hin]
    by_cases h₁ : value = value'
    · simp [chainInsert, h₁, List.reverseAux_eq]
    by_cases h₂ : value' ≤ value
    · simp [chainInsert, h₁, h₂, List.reverseAux_eq]
    · -- the representative's class is taken the term out of once more, which changes nothing
      simp only [chainInsert, if_neg h₁, if_neg h₂]
      rw [splitInsert_eq hin]
      cases isRep <;> simp

theorem splitInsert_of_eq {repVal : V} {term : T} (repCls : Finset T)
    (pref sorted : List (T × V × Finset T)) :
    splitInsert repVal false repCls pref sorted term repVal = (sorted, repCls) := by
  rw [splitInsert, if_neg (by simp)]

/-- A chain of classes of strictly decreasing values. -/
def Desc (chain : List (T × V × Finset T)) : Prop := chain.Pairwise fun a b => b.2.1 < a.2.1

theorem mem_or_of_mem_chainInsert {term : T} {value : V} {default : Finset T}
    {b : T × V × Finset T} : ∀ {chain : List (T × V × Finset T)},
    b ∈ chainInsert term value default chain → b ∈ chain ∨ b.2.1 = value
  | [], hb => .inr (by rw [List.mem_singleton.1 hb])
  | (r, value', set) :: tail, hb => by
    unfold chainInsert at hb
    split_ifs at hb with h₁ h₂
    · rcases List.mem_cons.1 hb with rfl | hb
      · exact .inr h₁.symm
      · exact .inl (List.mem_cons_of_mem _ hb)
    · rcases List.mem_cons.1 hb with rfl | hb
      · exact .inr rfl
      · exact .inl hb
    · rcases List.mem_cons.1 hb with rfl | hb
      · exact .inl List.mem_cons_self
      · exact (mem_or_of_mem_chainInsert hb).imp_left (List.mem_cons_of_mem _)

theorem Desc.chainInsert {term : T} {value : V} {default : Finset T} :
    ∀ {chain : List (T × V × Finset T)}, Desc chain →
      Desc (chainInsert term value default chain)
  | [], _ => List.pairwise_singleton _ _
  | (r, value', set) :: tail, h => by
    obtain ⟨hhead, htail⟩ := List.pairwise_cons.1 h
    unfold Make.chainInsert
    split_ifs with h₁ h₂
    · exact List.pairwise_cons.2 ⟨hhead, htail⟩
    · -- the new class goes before the first smaller value
      have hlt : value' < value := lt_of_le_of_ne h₂ (Ne.symm h₁)
      refine List.pairwise_cons.2 ⟨fun b hb => ?_, h⟩
      rcases List.mem_cons.1 hb with rfl | hb
      · exact hlt
      · exact (hhead b hb).trans hlt
    · refine List.pairwise_cons.2 ⟨fun b hb => ?_, Desc.chainInsert htail⟩
      rcases mem_or_of_mem_chainInsert hb with hb | hb
      · exact hhead b hb
      · rw [hb]
        exact lt_of_not_ge h₂

/-- The classes of the chain after the insertion of a term: the other values keep theirs, the term
joins the class of its value, or makes a new one. -/
theorem mem_chainInsert {term : T} {value : V} {default : Finset T} {b : T × V × Finset T} :
    ∀ {chain : List (T × V × Finset T)}, Desc chain →
      b ∈ chainInsert term value default chain →
        (b ∈ chain ∧ b.2.1 ≠ value) ∨
          (∃ r s, (r, value, s) ∈ chain ∧ b = (r, value, insert term s)) ∨
          (value ∉ chain.map (fun b => b.2.1) ∧ b = (term, value, default))
  | [], _, hb => .inr (.inr ⟨List.not_mem_nil, List.mem_singleton.1 hb⟩)
  | (r, value', set) :: tail, h, hb => by
    obtain ⟨hhead, htail⟩ := List.pairwise_cons.1 h
    unfold chainInsert at hb
    split_ifs at hb with h₁ h₂
    · subst h₁
      rcases List.mem_cons.1 hb with rfl | hb
      · exact .inr (.inl ⟨r, set, List.mem_cons_self, rfl⟩)
      · exact .inl ⟨List.mem_cons_of_mem _ hb, (hhead b hb).ne⟩
    · -- every value of the chain is below the new one
      have hlt : value' < value := lt_of_le_of_ne h₂ (Ne.symm h₁)
      have hbelow : ∀ b ∈ (r, value', set) :: tail, b.2.1 < value := fun b hb => by
        rcases List.mem_cons.1 hb with rfl | hb
        · exact hlt
        · exact (hhead b hb).trans hlt
      rcases List.mem_cons.1 hb with rfl | hb
      · refine .inr (.inr ⟨fun hm => ?_, rfl⟩)
        obtain ⟨b', hb', hv⟩ := List.mem_map.1 hm
        exact (hbelow b' hb').ne hv
      · exact .inl ⟨hb, (hbelow b hb).ne⟩
    · rcases List.mem_cons.1 hb with rfl | hb
      · exact .inl ⟨List.mem_cons_self, Ne.symm h₁⟩
      rcases mem_chainInsert htail hb with ⟨hb, hne⟩ | ⟨r', s', hm, rfl⟩ | ⟨hnot, rfl⟩
      · exact .inl ⟨List.mem_cons_of_mem _ hb, hne⟩
      · exact .inr (.inl ⟨r', s', List.mem_cons_of_mem _ hm, rfl⟩)
      · refine .inr (.inr ⟨fun hm => ?_, rfl⟩)
        rcases List.mem_cons.1 hm with hv | hm
        · exact h₁ hv
        · exact hnot hm

/-- The insertion keeps the classes of the other values. -/
theorem mem_chainInsert_of_mem {term : T} {value : V} {default : Finset T} {b : T × V × Finset T} :
    ∀ {chain : List (T × V × Finset T)}, b ∈ chain → b.2.1 ≠ value →
      b ∈ chainInsert term value default chain
  | (r, value', set) :: tail, hb, hne => by
    unfold chainInsert
    split_ifs with h₁ h₂
    · rcases List.mem_cons.1 hb with rfl | hb
      · exact absurd h₁.symm hne
      · exact List.mem_cons_of_mem _ hb
    · exact List.mem_cons_of_mem _ hb
    · rcases List.mem_cons.1 hb with rfl | hb
      · exact List.mem_cons_self
      · exact List.mem_cons_of_mem _ (mem_chainInsert_of_mem hb hne)

/-- The values of the chain after the insertion: the value of the term and the old ones. -/
theorem value_mem_chainInsert {term : T} {value : V} {default : Finset T} {v : V} :
    ∀ {chain : List (T × V × Finset T)},
      v ∈ (chainInsert term value default chain).map (fun b => b.2.1) ↔
        v = value ∨ v ∈ chain.map (fun b => b.2.1)
  | [] => by simp [chainInsert]
  | (r, value', set) :: tail => by
    unfold chainInsert
    split_ifs with h₁ h₂
    · subst h₁
      simp
    · simp
    · simp only [List.map_cons, List.mem_cons, value_mem_chainInsert]
      tauto

/-- What the fold of `split` keeps after the terms `P` of the class: a decreasing chain of the
values of `P` but the representative's, each with a term of `P` of that value and the other terms of
`P` of that value, and in the representative's class the terms not met yet and those of its
value. -/
structure SortedAcc (eval : T → V) (repVal : V) (cls : Finset T) (P : List T)
    (acc : List (T × V × Finset T) × Finset T) : Prop where
  desc : Desc acc.1
  val : ∀ b ∈ acc.1, eval b.1 = b.2.1 ∧ b.2.1 ≠ repVal ∧ b.1 ∈ P
  members : ∀ b ∈ acc.1, b.2.2 = P.toFinset.filter fun t => eval t = b.2.1 ∧ t ≠ b.1
  cover : ∀ t ∈ P, eval t ≠ repVal → eval t ∈ acc.1.map fun b => b.2.1
  rest : acc.2 = cls.filter fun t => t ∉ P ∨ eval t = repVal

variable {eval : T → V} {repVal : V} {cls : Finset T}

theorem sortedAcc_init : SortedAcc eval repVal cls [] ([], cls) where
  desc := List.Pairwise.nil
  val _ h := absurd h List.not_mem_nil
  members _ h := absurd h List.not_mem_nil
  cover _ h := absurd h List.not_mem_nil
  rest := by simp

/-- A term of the representative's value stays in its class. -/
theorem SortedAcc.step_eq {P : List T} {acc : List (T × V × Finset T) × Finset T}
    (h : SortedAcc eval repVal cls P acc) {term : T} (ht : term ∉ P) (hv : eval term = repVal) :
    SortedAcc eval repVal cls (P ++ [term]) acc := by
  refine ⟨h.desc, fun b hb => ?_, fun b hb => ?_, fun t htP hne => ?_, ?_⟩
  · obtain ⟨hev, hne, hP⟩ := h.val b hb
    exact ⟨hev, hne, List.mem_append_left _ hP⟩
  · rw [MakeEq.toFinset_append_singleton, Finset.filter_insert,
      if_neg fun hq : eval term = b.2.1 ∧ term ≠ b.1 => (h.val b hb).2.1 (hq.1 ▸ hv),
      h.members b hb]
  · rcases List.mem_append.1 htP with htP | htP
    · exact h.cover t htP hne
    · exact absurd ((List.mem_singleton.1 htP) ▸ hv) hne
  · rw [h.rest]
    refine Finset.filter_congr fun t _ => ?_
    by_cases htt : t = term
    · subst htt
      simp [ht, hv]
    · simp [htt]

/-- A term of another value leaves the representative's class for the class of its value. -/
theorem SortedAcc.step_ne {P : List T} {acc : List (T × V × Finset T) × Finset T}
    (h : SortedAcc eval repVal cls P acc) {term : T} (ht : term ∉ P) (hv : eval term ≠ repVal) :
    SortedAcc eval repVal cls (P ++ [term])
      (chainInsert term (eval term) ∅ acc.1, acc.2.erase term) := by
  refine ⟨h.desc.chainInsert, fun b hb => ?_, fun b hb => ?_, fun t htP hne => ?_, ?_⟩
  · rcases mem_chainInsert h.desc hb with ⟨hb, -⟩ | ⟨r, s, hm, rfl⟩ | ⟨-, rfl⟩
    · obtain ⟨hev, hne, hP⟩ := h.val b hb
      exact ⟨hev, hne, List.mem_append_left _ hP⟩
    · obtain ⟨hev, hne, hP⟩ := h.val _ hm
      exact ⟨hev, hne, List.mem_append_left _ hP⟩
    · exact ⟨rfl, hv, List.mem_append_right _ (List.mem_singleton_self _)⟩
  · rw [MakeEq.toFinset_append_singleton, Finset.filter_insert]
    rcases mem_chainInsert h.desc hb with ⟨hb, hne⟩ | ⟨r, s, hm, rfl⟩ | ⟨hnot, rfl⟩
    · rw [if_neg fun hq => hne hq.1.symm, h.members b hb]
    · -- the term joins the class of its value
      have hr : term ≠ r := fun he => ht (he ▸ (h.val _ hm).2.2)
      dsimp only
      rw [if_pos ⟨rfl, hr⟩]
      exact congrArg (insert term) (h.members _ hm)
    · -- a new value: no term met before has it
      dsimp only
      rw [if_neg fun hq => hq.2 rfl]
      symm
      refine Finset.filter_eq_empty_iff.2 fun t htP hq => hnot ?_
      rw [← hq.1]
      exact h.cover t (List.mem_toFinset.1 htP) (hq.1 ▸ hv)
  · rw [value_mem_chainInsert]
    rcases List.mem_append.1 htP with htP | htP
    · exact .inr (h.cover t htP hne)
    · exact .inl (by rw [List.mem_singleton.1 htP])
  · rw [h.rest]
    ext t
    by_cases htt : t = term
    · subst htt
      simp [hv]
    · simp [htt]

theorem SortedAcc.step {P : List T} {acc : List (T × V × Finset T) × Finset T}
    (h : SortedAcc eval repVal cls P acc) {term : T} (ht : term ∉ P) :
    SortedAcc eval repVal cls (P ++ [term])
      (splitInsert repVal false acc.2 [] acc.1 term (eval term)) := by
  by_cases hv : eval term = repVal
  · have heq : splitInsert repVal false acc.2 [] acc.1 term (eval term) = acc := by
      rw [hv, splitInsert_of_eq]
    rw [heq]
    exact h.step_eq ht hv
  · rw [splitInsert_eq (.inr hv)]
    simpa using h.step_ne ht hv

/-- The fold of `split` over the terms `L` after `P`. By induction on `L`. -/
theorem SortedAcc.foldl : ∀ (L : List T) {P : List T} {acc : List (T × V × Finset T) × Finset T},
    (P ++ L).Nodup → SortedAcc eval repVal cls P acc →
      SortedAcc eval repVal cls (P ++ L)
        (L.foldl (fun acc term => splitInsert repVal false acc.2 [] acc.1 term (eval term)) acc)
  | [], P, _, _, h => by rwa [List.append_nil]
  | term :: L, P, acc, hnd, h => by
    have hnd' : (P ++ [term] ++ L).Nodup := by rwa [List.append_assoc]
    have ht : term ∉ P := fun htP =>
      (List.nodup_append.1 hnd).2.2 term htP term List.mem_cons_self rfl
    rw [List.foldl_cons, ← List.singleton_append, ← List.append_assoc]
    exact SortedAcc.foldl L hnd' (h.step ht)

theorem sortedAcc_splitSorted :
    SortedAcc eval repVal cls cls.sort (splitSorted eval repVal cls) := by
  have h0 : SortedAcc eval repVal cls [] ([], cls) := sortedAcc_init
  have h := SortedAcc.foldl cls.sort (by simp [cls.sort_nodup]) h0
  rwa [List.nil_append] at h

/-! ### Recording the chain -/

theorem renameTop_insert (top : T) (b : T × Finset T) :
    insert (renameTop top b).1 (renameTop top b).2 = insert b.1 b.2 := by
  unfold renameTop
  split_ifs with h
  · exact Finset.insert_erase (Finset.mem_insert_of_mem h)
  · rfl

omit [LinearOrder V] in
theorem find?_applyD_id (k k' : T) (m : List (T × Finset T)) :
    find? k' (applyD ∅ id k m) = if k' = k then some ((find? k m).getD ∅) else find? k' m := by
  rw [applyD, OrdMap.find?_add]
  rfl

omit [LinearOrder V] in
/-- Giving keys neighbours if they have none binds them, and leaves the other keys. -/
theorem find?_foldl_applyD_id {γ : Type} (f : γ → T) (k : T) :
    ∀ (l : List γ) (m : List (T × Finset T)),
      find? k (l.foldl (fun m e => applyD ∅ id (f e) m) m) =
        if k ∈ l.map f then some ((find? k m).getD ∅) else find? k m
  | [], _ => by simp
  | e :: l, m => by
    rw [List.foldl_cons, find?_foldl_applyD_id f k l, find?_applyD_id]
    by_cases hk : k = f e
    · subst hk
      simp
    · simp [hk]

/-- An element of the chain with its representative and class renamed. -/
def renameElt (top : T) (e : T × V × Finset T) : T × V × Finset T :=
  ((renameTop top (e.1, e.2.2)).1, e.2.1, (renameTop top (e.1, e.2.2)).2)

omit [LinearOrder V] in
/-- The recording of the chain, as folds over the renamed chain. -/
theorem splitRecord_eq (top : T) : ∀ (chain : List (T × V × Finset T)) (newReps : Finset T)
    (g : Graph T V),
    splitRecord top chain newReps g =
      ((chain.map (renameElt top)).map fun e => (e.1, e.2.1),
        (chain.map (renameElt top)).foldl (fun N e => insert e.1 N) newReps,
        { g with
          classes := (chain.map (renameElt top)).foldl (fun m e => add e.1 e.2.2 m) g.classes
          values := (chain.map (renameElt top)).foldl (fun m e => add e.1 e.2.1 m) g.values
          mapUp := (chain.map (renameElt top)).foldl (fun m e => applyD ∅ id e.1 m) g.mapUp
          mapDown := (chain.map (renameElt top)).foldl (fun m e => applyD ∅ id e.1 m)
            g.mapDown })
  | [], _, _ => rfl
  | (rep, value, set) :: tail, newReps, g => by
    rw [splitRecord, splitRecord_eq top tail]
    rfl

/-- The chain partitions the terms `U` by their values: its values decrease strictly, and each
class is represented by a term of `U` of its value with the other terms of `U` of that value. -/
structure ChainOf (eval : T → V) (U : Finset T) (chain : List (T × V × Finset T)) : Prop where
  desc : Desc chain
  elt : ∀ e ∈ chain,
    e.1 ∈ U ∧ eval e.1 = e.2.1 ∧ insert e.1 e.2.2 = U.filter fun t => eval t = e.2.1
  cover : ∀ t ∈ U, eval t ∈ chain.map fun e => e.2.1

theorem ChainOf.rename {U : Finset T} {chain : List (T × V × Finset T)} (h : ChainOf eval U chain)
    (top : T) : ChainOf eval U (chain.map (renameElt top)) := by
  refine ⟨List.pairwise_map.2 h.desc, fun e' he' => ?_, fun t ht => ?_⟩
  · obtain ⟨e, he, rfl⟩ := List.mem_map.1 he'
    obtain ⟨hU, hev, hcls⟩ := h.elt e he
    have hins : insert (renameElt top e).1 (renameElt top e).2.2 = insert e.1 e.2.2 :=
      renameTop_insert top (e.1, e.2.2)
    -- the new representative is a term of the class, of its value
    have hk : (renameElt top e).1 ∈ U.filter fun t => eval t = e.2.1 := by
      rw [← hcls, ← hins]
      exact Finset.mem_insert_self _ _
    exact ⟨(Finset.mem_filter.1 hk).1, (Finset.mem_filter.1 hk).2, hins.trans hcls⟩
  · rw [List.map_map]
    exact h.cover t ht

/-- The representatives of the classes of distinct values are distinct. -/
theorem ChainOf.nodup_keys {U : Finset T} {chain : List (T × V × Finset T)}
    (h : ChainOf eval U chain) : (chain.map Prod.fst).Nodup := by
  have hvals : (chain.map fun e => e.2.1).Nodup :=
    (List.pairwise_map.2 (show chain.Pairwise fun a b => b.2.1 < a.2.1 from h.desc)).imp
      fun hlt => (ne_of_lt hlt).symm
  have heq : (chain.map Prod.fst).map eval = chain.map fun e => e.2.1 := by
    rw [List.map_map]
    exact List.map_congr_left fun e he => (h.elt e he).2.1
  exact List.Nodup.of_map eval (heq ▸ hvals)

omit [LinearOrder V] in
/-- A term of a set with a property, with the other terms of the set that have it. -/
theorem insert_filter_ne {s : Finset T} {p : T → Prop} [DecidablePred p] {a : T} (ha : a ∈ s)
    (hp : p a) : insert a (s.filter fun t => p t ∧ t ≠ a) = s.filter p := by
  ext t
  by_cases ht : t = a
  · subst ht
    simp [ha, hp]
  · simp [ht]

/-- The chain of `split` before the renaming: the representative, inserted last with the terms of
its class that keep its value, completes the chain of the other values into a partition of the
representative and its class. -/
theorem chainOf_splitSorted (rep : T) :
    ChainOf eval (insert rep cls)
      (chainInsert rep (eval rep) (splitSorted eval (eval rep) cls).2
        (splitSorted eval (eval rep) cls).1) := by
  have h : SortedAcc eval (eval rep) cls cls.sort (splitSorted eval (eval rep) cls) :=
    sortedAcc_splitSorted
  generalize splitSorted eval (eval rep) cls = acc at h ⊢
  -- every term of the class has been met: what is left are the terms of the representative's value
  have hrest : acc.2 = cls.filter fun t => eval t = eval rep := by
    rw [h.rest]
    exact Finset.filter_congr fun t ht => by simp [Finset.mem_sort, ht]
  have hmembers : ∀ b ∈ acc.1, b.2.2 = cls.filter fun t => eval t = b.2.1 ∧ t ≠ b.1 := by
    simpa only [Finset.sort_toFinset] using h.members
  refine ⟨h.desc.chainInsert, fun e he => ?_, fun t ht => ?_⟩
  · rcases mem_chainInsert h.desc he with ⟨he, hne⟩ | ⟨r, s, hm, -⟩ | ⟨-, rfl⟩
    · -- a class of another value, as the fold made it
      obtain ⟨hev, -, hP⟩ := h.val e he
      have hmem : e.1 ∈ cls := (Finset.mem_sort _).1 hP
      refine ⟨Finset.mem_insert_of_mem hmem, hev, ?_⟩
      rw [Finset.filter_insert, if_neg fun hq => hne hq.symm, hmembers e he]
      exact insert_filter_ne hmem hev
    · exact absurd rfl (h.val _ hm).2.1
    · -- the class of the representative's value
      refine ⟨Finset.mem_insert_self _ _, rfl, ?_⟩
      rw [hrest, Finset.filter_insert, if_pos rfl]
  · rw [value_mem_chainInsert]
    by_cases hv : eval t = eval rep
    · exact .inl hv
    · have hmem : t ∈ cls := (Finset.mem_insert.1 ht).resolve_left fun he => hv (he ▸ rfl)
      exact .inr (h.cover t ((Finset.mem_sort _).2 hmem) hv)

end Split

end Make
end InvGen
end Kind2
