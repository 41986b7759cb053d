import Kind2.Terms.Ltree.Map

/-!
# Destructing let-bound terms

`destruct t` (`src/terms/ltree.ml:1750`) gives the top symbol of a term with its subterms,
looking through let bindings and annotations. `destruct'` (line 1669) pushes a let binding down
to the top symbol: a let over a let is flattened by destructing the inner one first, a let over a
bound variable of the binding is its definition, a bound variable of an outer binding loses the
levels of the binding, a let over an annotation goes under the annotation, and a let over an
application is distributed over the arguments. Each argument gets the bindings it uses only
(`trim_let_domain`, line 1471): those are picked with the property `bound_vars` of the argument,
and the bound variables of the argument are renumbered for the bindings that are left.

`bound_vars` is a property that the hash-consing computes when a term is built; here it is the
function `boundVars`. A set of integers (`IntegerSet`) is given by a list of its elements.
`List.nth` raises `Failure` past the end of a list, which `DestructExn` adds to the exceptions of
the other functions.

`destruct_unlet` says what `destruct` gives for a well-formed term without loose indices: the top
node of its let-free form `unlet [] t`, with arguments whose let-free forms are the arguments of
that node. Its invariant is `destruct'_spec`: under any environment of let-free definitions for
the loose levels, `destruct'` keeps the let-free form of a term and brings a node other than a
let binding to the top. The renumbering of `trim_let_domain` is correct by
`unlet_mapRecM_adjustBoundIndex`.
-/

namespace Kind2
namespace Ltree

variable {T : BaseTypes} {α : Type}

/-! ## The bound variables of a term -/

/-- `IntegerSet.elements`: the integers of a set, in increasing order. A set is given by a list
of its elements; `IntegerSet.union` is then `++`. -/
def elements (s : List Int) : List Int := s.dedup.insertionSort (· ≤ ·)

/-- `bound_vars_of_terms accum t`: the bound variables of the terms (given by their lists) added
to the set `accum`, in increasing order. -/
def boundVarsOfTerms (accum : List Int) (t : List (List Int)) : List Int :=
  elements (t.foldl (fun a bv => a ++ bv) accum)

/-- `bound_vars_outside_lambda l b`: the variables of `b` that are bound outside a lambda of `l`
variables, with their indexes from outside it, in their order. -/
def boundVarsOutsideLambda (l : Int) (b : List Int) : List Int :=
  (b.foldl (fun a i => if i > l then (i - l) :: a else a) []).reverse

/-- The property `bound_vars` of a term (`bound_vars_of_term_node`): the indexes of its bound
variables that are bound outside it. A let binding binds as many variables as it has
definitions. -/
def boundVars : Term T → List Int
  | .freeVar _ | .leaf _ => []
  | .boundVar i => [i]
  | .node _ l => boundVarsOfTerms [] (l.attach.map fun a => boundVars a.1)
  | .letE _ body l =>
    boundVarsOfTerms (boundVarsOutsideLambda l.length (boundVars body))
      (l.attach.map fun a => boundVars a.1)
  | .existsE i body | .forallE i body => boundVarsOutsideLambda i.length (boundVars body)
  | .annot t _ => boundVars t
termination_by t => sizeOf t
decreasing_by
  all_goals simp_wf
  all_goals first
    | omega
    | (have hlt := List.sizeOf_lt_of_mem a.2; omega)

section
variable {s : T.symbol} {n : List T.sort} {body : Term T} {l : List (Term T)}

theorem boundVars_node : boundVars (.node s l) = boundVarsOfTerms [] (l.map boundVars) := by
  rw [boundVars, List.map_attach_eq_pmap, List.pmap_eq_map]

theorem boundVars_letE : boundVars (.letE n body l) =
    boundVarsOfTerms (boundVarsOutsideLambda l.length (boundVars body)) (l.map boundVars) := by
  rw [boundVars, List.map_attach_eq_pmap, List.pmap_eq_map]

end

/-! ## `trim_let_domain` -/

/-- The local `aux'` of `list_extract_indexes`: from the element with index `count` on, drop the
elements before the next index and take the element at it. -/
def listExtractIndexesAux (count : Int) (accum : List α) : List Int → List α → Except Exn (List α)
  | [], _ => .ok accum.reverse
  | _ :: _, [] => .ok accum.reverse
  | i :: itl, h :: ltl =>
    if count < i then listExtractIndexesAux (count + 1) accum (i :: itl) ltl
    else if count = i then listExtractIndexesAux (count + 1) (h :: accum) itl ltl
    else .error .assertFailure

/-- `list_extract_indexes indexes list`: the elements of `list` at the sorted `indexes`, the
first element having index 1. -/
def listExtractIndexes (indexes : List Int) (list : List α) : Except Exn (List α) :=
  listExtractIndexesAux 1 [] indexes list

/-- The map `bound_var_map` of `trim_let_domain`: the `n`-th bound variable of the binding of
`nTerms` variables that occurs in the term is mapped to `n`. -/
def boundVarMap (nTerms : Int) (boundVars : List Int) : List (Int × Int) :=
  (boundVars.foldl (fun (ca : Int × List (Int × Int)) i =>
    if i > nTerms then ca else (ca.1 + 1, (i, ca.1) :: ca.2)) (1, [])).2

/-- The function of `term_adjust_bound_indexes` that `map` applies under `o` binders: a
variable bound outside the binding of `nTerms` variables loses the eliminated ones, a variable of
the binding gets its index from `boundVarMap` (`List.assoc` raises `Not_found`, which becomes
`assert false`), and a variable bound inside the term is kept. -/
def adjustBoundIndex (nTerms : Int) (boundVarMap : List (Int × Int)) (o : Int) :
    Term T → Except Exn (Term T)
  | .boundVar i =>
    if i > o + nTerms then .ok (.boundVar (i - (nTerms - boundVarMap.length)))
    else if i > o then
      match boundVarMap.lookup (i - o) with
      | some j => .ok (.boundVar (j + o))
      | none => .error .assertFailure
    else .ok (.boundVar i)
  | t => .ok t

/-- `trim_let_domain offset bvar_types bvar_terms term`: the let binding of `bvar_terms` (of sorts
`bvar_types`) over `term`, with the bindings that `term` does not use eliminated, and no let
binding if it uses none. -/
def trimLetDomain (fuel : Nat) (_offset : Int) (bvarTypes : List T.sort) (bvarTerms : List (Term T))
    (term : Term T) : Option (Except Exn (Term T)) :=
  let boundVarMap := boundVarMap bvarTerms.length (boundVars term)
  match map fuel (adjustBoundIndex bvarTerms.length boundVarMap) term with
  | none => none
  | some (.error e) => some (.error e)
  | some (.ok term') =>
    match listExtractIndexes (boundVars term) bvarTerms.reverse with
    | .error e => some (.error e)
    | .ok bvarTerms' =>
      match listExtractIndexes (boundVars term) bvarTypes.reverse with
      | .error e => some (.error e)
      | .ok bvarTypes' =>
        match bvarTerms'.reverse with
        | [] => some (.ok term')
        | bvarTerms'' => some (.ok (.letE bvarTypes'.reverse term' bvarTerms''))

/-- `List.map (fun r -> trim_let_domain ofs i b r) l`, left to right. -/
def trimLetDomainList (fuel : Nat) (ofs : Int) (i : List T.sort) (b : List (Term T)) :
    List (Term T) → Option (Except Exn (List (Term T)))
  | [] => some (.ok [])
  | r :: l =>
    match trimLetDomain fuel ofs i b r with
    | none => none
    | some (.error e) => some (.error e)
    | some (.ok r') => (trimLetDomainList fuel ofs i b l).map (Except.map (r' :: ·))

/-! ## `destruct` -/

/-- The exceptions of `destruct`: those of the functions it calls, and `Failure`, which
`List.nth` raises past the end of a list. -/
inductive DestructExn where
  | exn (e : Exn)
  | failure (msg : String)

/-- OCaml's `List.nth l n`. -/
def nth (l : List α) (n : Int) : Except DestructExn α :=
  if n < 0 then .error (.exn (.invalidArgument "List.nth"))
  else
    match l[n.toNat]? with
    | some a => .ok a
    | none => .error (.failure "nth")

/-- `destruct' ofs t`, with at most `fuel` nested calls; `none` when the fuel runs out. The result
has no let binding at the top. -/
def destruct' : Nat → Int → Term T → Option (Except DestructExn (Term T))
  | 0, _, _ => none
  | fuel + 1, ofs, t =>
    match t with
    | .boundVar i => some (.ok (.boundVar i))
    | .leaf s | .letE _ (.leaf s) _ => some (.ok (.leaf s))
    | .freeVar v | .letE _ (.freeVar v) _ => some (.ok (.freeVar v))
    | .node s l => some (.ok (.node s l))
    | .letE i (.node s l) b =>
      -- distribute the binding over the arguments
      (trimLetDomainList fuel ofs i b l).map fun r => (r.map (.node s)).mapError .exn
    | .letE i (.letE i' t' b') b =>
      -- destruct the inner binding, then this one over its result
      match destruct' fuel (ofs + i.length) (.letE i' t' b') with
      | some (.ok u) => destruct' fuel ofs (.letE i u b)
      | r => r
    | .letE _ (.boundVar i) l =>
      if i > l.length then some (.ok (.boundVar (i - l.length)))
      else
        match nth l (l.length - i) with
        | .ok a => destruct' fuel ofs a
        | .error e => some (.error e)
    | .letE i (.annot t a) b => some (.ok (.annot (.letE i t b) a))
    | .existsE _ _ | .forallE _ _ | .letE _ (.existsE _ _) _ | .letE _ (.forallE _ _) _ =>
      some (.error (.exn (.invalidArgument "destruct: quantified term")))
    | .annot t a => some (.ok (.annot t a))

/-- `destruct t`, with at most `fuel` nested calls: the top symbol and subterms of a term,
skipping annotations. -/
def destruct : Nat → Term T → Option (Except DestructExn (Flat T))
  | 0, _ => none
  | fuel + 1, t =>
    match destruct' fuel 0 t with
    | some (.ok (.leaf s)) => some (.ok (.const s))
    | some (.ok (.freeVar v)) => some (.ok (.var v))
    | some (.ok (.node s l)) => some (.ok (.app s l))
    | some (.ok (.boundVar _)) => some (.error (.exn (.invalidArgument "destruct: bound variable")))
    | some (.ok (.annot t _)) => destruct fuel t
    | some (.ok _) => some (.error (.exn .assertFailure))
    | some (.error e) => some (.error e)
    | none => none

/-! ## The bound variables of a term, as a set -/

theorem mem_elements {k : Int} {s : List Int} : k ∈ elements s ↔ k ∈ s := by
  rw [elements, List.mem_insertionSort, List.mem_dedup]

/-- `IntegerSet.elements` lists a set in strictly increasing order. -/
theorem pairwise_elements (s : List Int) : (elements s).Pairwise (· < ·) := by
  have hnd : (elements s).Nodup :=
    ((List.perm_insertionSort _ _).nodup_iff).2 (List.nodup_dedup s)
  exact ((List.pairwise_insertionSort _ _).and hnd).imp fun h => lt_of_le_of_ne h.1 h.2

theorem mem_boundVarsOfTerms {k : Int} {accum : List Int} {t : List (List Int)} :
    k ∈ boundVarsOfTerms accum t ↔ k ∈ accum ∨ ∃ bv ∈ t, k ∈ bv := by
  rw [boundVarsOfTerms, mem_elements]
  induction t generalizing accum with
  | nil => simp
  | cons bv t ih =>
    rw [List.foldl_cons, ih, List.mem_append]
    simp only [List.mem_cons, exists_eq_or_imp]
    tauto

/-- The variables bound outside a lambda of `l` variables are those above `l`, shifted down. -/
theorem boundVarsOutsideLambda_eq (l : Int) (b : List Int) :
    boundVarsOutsideLambda l b = (b.filter (· > l)).map (· - l) := by
  suffices h : ∀ a, b.foldl (fun a i => if i > l then (i - l) :: a else a) a =
      ((b.filter (· > l)).map (· - l)).reverse ++ a by
    rw [boundVarsOutsideLambda, h, List.append_nil, List.reverse_reverse]
  induction b with
  | nil => simp
  | cons i b ih =>
    intro a
    by_cases hi : i > l
    · simp [hi, ih]
    · simp [hi, ih]

theorem mem_boundVarsOutsideLambda {k l : Int} {b : List Int} :
    k ∈ boundVarsOutsideLambda l b ↔ 0 < k ∧ k + l ∈ b := by
  rw [boundVarsOutsideLambda_eq]
  simp only [List.mem_map, List.mem_filter, decide_eq_true_eq]
  constructor
  · rintro ⟨i, ⟨hi, hgt⟩, rfl⟩
    exact ⟨by omega, by rwa [sub_add_cancel]⟩
  · rintro ⟨hk, hmem⟩
    exact ⟨k + l, ⟨hmem, by omega⟩, by ring⟩

theorem pairwise_boundVarsOutsideLambda (l : Int) {b : List Int} (hb : b.Pairwise (· < ·)) :
    (boundVarsOutsideLambda l b).Pairwise (· < ·) := by
  rw [boundVarsOutsideLambda_eq, List.pairwise_map]
  exact (hb.filter _).imp fun h => by omega

section
variable {s : T.symbol} {n : List T.sort} {body a : Term T} {l : List (Term T)} {k : Int}

theorem mem_boundVars_node : k ∈ boundVars (.node s l) ↔ ∃ a ∈ l, k ∈ boundVars a := by
  simp [boundVars_node, mem_boundVarsOfTerms]

/-- The bound variables of a let binding: those of its body bound outside it, and those of its
definitions. -/
theorem mem_boundVars_letE : k ∈ boundVars (.letE n body l) ↔
    (0 < k ∧ k + l.length ∈ boundVars body) ∨ ∃ a ∈ l, k ∈ boundVars a := by
  simp [boundVars_letE, mem_boundVarsOfTerms, mem_boundVarsOutsideLambda]

theorem boundVars_annot (t : Term T) (x : T.attr) : boundVars (.annot t x) = boundVars t := by
  rw [boundVars]

end

/-- The bound variables of a term are listed in strictly increasing order. -/
theorem pairwise_boundVars : ∀ t : Term T, (boundVars t).Pairwise (· < ·)
  | .freeVar _ | .leaf _ => by simp [boundVars]
  | .boundVar _ => by simp [boundVars]
  | .node _ _ => by
    rw [boundVars_node]
    exact pairwise_elements _
  | .letE _ _ _ => by
    rw [boundVars_letE]
    exact pairwise_elements _
  | .existsE _ body | .forallE _ body => by
    rw [boundVars]
    exact pairwise_boundVarsOutsideLambda _ (pairwise_boundVars body)
  | .annot t _ => by
    rw [boundVars_annot]
    exact pairwise_boundVars t

mutual
/-- The bound variables of a well-formed term under `d` levels refer to those levels. -/
theorem boundVars_range : ∀ (t : Term T) (d : Int), t.wellFormed d →
    ∀ k ∈ boundVars t, 1 ≤ k ∧ k ≤ d
  | .freeVar _, _, _ | .leaf _, _, _ => by simp [boundVars]
  | .boundVar i, d, hwf => by
    simp only [Term.wellFormed, Bool.and_eq_true, decide_eq_true_eq] at hwf
    simp only [boundVars, List.mem_singleton]
    rintro k rfl
    exact hwf
  | .node _ args, d, hwf => by
    intro k hk
    obtain ⟨a, ha, hka⟩ := mem_boundVars_node.1 hk
    exact boundVars_range_list args d (Term.wellFormed_node_iff.1 hwf) a ha k hka
  | .letE n body defs, d, hwf => by
    obtain ⟨hlen, hbody, hdefs⟩ := Term.wellFormed_letE_iff.1 hwf
    intro k hk
    rcases mem_boundVars_letE.1 hk with ⟨hpos, hmem⟩ | ⟨a, ha, hka⟩
    · have := boundVars_range body _ hbody _ hmem
      omega
    · exact boundVars_range_list defs d hdefs a ha k hka
  | .existsE _ _, _, hwf | .forallE _ _, _, hwf => by simp [Term.wellFormed] at hwf
  | .annot t _, d, hwf => by
    rw [boundVars_annot]
    exact boundVars_range t d (by simpa [Term.wellFormed] using hwf)

theorem boundVars_range_list : ∀ (ts : List (Term T)) (d : Int), (∀ a ∈ ts, a.wellFormed d) →
    ∀ a ∈ ts, ∀ k ∈ boundVars a, 1 ≤ k ∧ k ≤ d
  | [], _, _ => by simp
  | t :: ts, d, h => by
    intro a ha k hk
    rcases List.mem_cons.1 ha with hat | ha
    · rw [hat] at hk
      exact boundVars_range t d (h t List.mem_cons_self) k hk
    · exact boundVars_range_list ts d (fun b hb => h b (List.mem_cons_of_mem t hb)) a ha k hk
end

/-! ## The bindings a term uses, and their new indexes -/

/-- `list_extract_indexes` from the element with index `count` on, for strictly increasing indexes
from `count` on: the elements at those indexes. By induction on the list. -/
theorem listExtractIndexesAux_eq :
    ∀ (count : Int) (accum : List α) (L : List Int) (l : List α),
      L.Pairwise (· < ·) → (∀ k ∈ L, count ≤ k) →
      listExtractIndexesAux count accum L l =
        .ok (accum.reverse ++ L.filterMap fun k => l[(k - count).toNat]?)
  | _, accum, [], _, _, _ => by simp [listExtractIndexesAux]
  | _, accum, _ :: _, [], _, _ => by simp [listExtractIndexesAux]
  | count, accum, i :: itl, h :: ltl, hL, hc => by
    have hi := hc i List.mem_cons_self
    have hitl : ∀ k ∈ itl, i < k := (List.pairwise_cons.1 hL).1
    rw [listExtractIndexesAux]
    by_cases hlt : count < i
    · -- the element at `count` is dropped
      have hgt : ∀ k ∈ i :: itl, count + 1 ≤ k := by
        intro k hk
        rcases List.mem_cons.1 hk with rfl | hk
        · omega
        · have := hitl k hk
          omega
      rw [if_pos hlt, listExtractIndexesAux_eq (count + 1) accum (i :: itl) ltl hL hgt]
      congr 2
      refine List.filterMap_congr fun k hk => ?_
      have := hgt k hk
      rw [show (k - count).toNat = (k - (count + 1)).toNat + 1 by omega, List.getElem?_cons_succ]
    · -- the element at `count` is taken
      have heq : count = i := by omega
      subst heq
      have hgt : ∀ k ∈ itl, count + 1 ≤ k := fun k hk => hitl k hk
      rw [if_neg hlt, if_pos rfl, listExtractIndexesAux_eq (count + 1) (h :: accum) itl ltl
        (List.pairwise_cons.1 hL).2 hgt, List.filterMap_cons, sub_self]
      simp only [Int.toNat_zero, List.getElem?_cons_zero, List.reverse_cons, List.append_assoc,
        List.singleton_append]
      congr 3
      refine List.filterMap_congr fun k hk => ?_
      have := hgt k hk
      rw [show (k - count).toNat = (k - (count + 1)).toNat + 1 by omega, List.getElem?_cons_succ]

/-- `list_extract_indexes` for strictly increasing indexes from 1 on. -/
theorem listExtractIndexes_eq (L : List Int) (l : List α) (hL : L.Pairwise (· < ·))
    (h1 : ∀ k ∈ L, 1 ≤ k) : listExtractIndexes L l = .ok (L.filterMap fun k => l[(k - 1).toNat]?) := by
  rw [listExtractIndexes, listExtractIndexesAux_eq 1 [] L l hL h1, List.reverse_nil, List.nil_append]

/-- The fold of `boundVarMap` from the counter `c` on. -/
theorem foldl_boundVarMap (nTerms : Int) :
    ∀ (L : List Int) (c : Int) (a : List (Int × Int)),
      L.foldl (fun (ca : Int × List (Int × Int)) i =>
          if i > nTerms then ca else (ca.1 + 1, (i, ca.1) :: ca.2)) (c, a) =
        (c + (L.filter (· ≤ nTerms)).length,
          ((L.filter (· ≤ nTerms)).mapIdx fun j k => (k, c + j)).reverse ++ a)
  | [], c, a => by simp
  | i :: L, c, a => by
    by_cases hi : i > nTerms
    · rw [List.foldl_cons, if_pos hi, foldl_boundVarMap nTerms L c a,
        List.filter_cons_of_neg (by simpa using hi)]
    · rw [List.foldl_cons, if_neg hi, foldl_boundVarMap nTerms L (c + 1) ((i, c) :: a),
        List.filter_cons_of_pos (by simpa using hi), List.length_cons, List.mapIdx_cons,
        List.reverse_cons, List.append_assoc, List.singleton_append]
      have hfun : (fun (j : Nat) (k : Int) => (k, c + 1 + j)) =
          fun j k => (k, c + ((j + 1 : Nat) : Int)) := by
        funext j k
        push_cast
        ring_nf
      simp only [hfun, Nat.cast_zero, add_zero]
      congr 1
      push_cast
      ring

/-- `bound_var_map`: the `j`-th variable of the binding that the term uses gets index `j + 1`. -/
theorem boundVarMap_eq (nTerms : Int) (L : List Int) :
    boundVarMap nTerms L = ((L.filter (· ≤ nTerms)).mapIdx fun j k => (k, 1 + (j : Int))).reverse := by
  rw [boundVarMap, foldl_boundVarMap, List.append_nil]

theorem length_boundVarMap (nTerms : Int) (L : List Int) :
    (boundVarMap nTerms L).length = (L.filter (· ≤ nTerms)).length := by
  rw [boundVarMap_eq, List.length_reverse, List.length_mapIdx]

/-- The index of a variable of the binding in `bound_var_map`. -/
theorem lookup_boundVarMap {nTerms : Int} {L : List Int} (hL : L.Pairwise (· < ·)) {j : Nat}
    {k : Int} (hj : (L.filter (· ≤ nTerms))[j]? = some k) :
    (boundVarMap nTerms L).lookup k = some (1 + j) := by
  have hnd : (L.filter (· ≤ nTerms)).Nodup := (hL.filter _).imp ne_of_lt
  rw [boundVarMap_eq]
  refine AssocList.lookup_eq_some_of_mem ?_ ?_
  · have hkeys : ((L.filter (· ≤ nTerms)).mapIdx fun j k => (k, 1 + (j : Int))).map Prod.fst =
        L.filter (· ≤ nTerms) := by
      apply List.ext_getElem?
      intro m
      simp [List.getElem?_mapIdx, Function.comp_def]
    rw [List.map_reverse, hkeys]
    exact List.nodup_reverse.2 hnd
  · rw [List.mem_reverse, List.mem_iff_getElem?]
    exact ⟨j, by simp [List.getElem?_mapIdx, hj]⟩

/-! ## Renumbering the bound variables of a term -/

/-- A bound variable names a level counted from the innermost one. -/
theorem unlet_boundVar_of_reverse {env : List (Term T)} {i : Int} {u : Term T} (h1 : 1 ≤ i)
    (h : env.reverse[(i - 1).toNat]? = some u) : unlet env (.boundVar i) = u := by
  have hlt : (i - 1).toNat < env.length := by
    have := (List.getElem?_eq_some_iff.1 h).1
    rwa [List.length_reverse] at this
  rw [List.getElem?_reverse hlt] at h
  have hidx : env.length - 1 - (i - 1).toNat = (env.length - i).toNat := by omega
  rw [unlet, if_pos ⟨h1, by omega⟩, List.getD_eq_getElem?_getD, ← hidx, h, Option.getD_some]

/-- Two bound variables that name levels with the same definition have the same let-free form,
and the first one refers to one of its levels. -/
theorem unlet_boundVar_congr {env env' : List (Term T)} {i i' : Int} (h1 : 1 ≤ i) (h1' : 1 ≤ i')
    (hlt : (i - 1).toNat < env.length)
    (h : env'.reverse[(i' - 1).toNat]? = env.reverse[(i - 1).toNat]?) :
    unlet env' (.boundVar i') = unlet env (.boundVar i) ∧
      (Term.boundVar i' : Term T).wellFormed env'.length := by
  have hlt₀ : (i - 1).toNat < env.reverse.length := by rwa [List.length_reverse]
  obtain ⟨u, hu⟩ : ∃ u, env.reverse[(i - 1).toNat]? = some u :=
    ⟨env.reverse[(i - 1).toNat], List.getElem?_eq_getElem hlt₀⟩
  rw [hu] at h
  have hlt' : (i' - 1).toNat < env'.length := by
    have := (List.getElem?_eq_some_iff.1 h).1
    rwa [List.length_reverse] at this
  refine ⟨by rw [unlet_boundVar_of_reverse h1' h, unlet_boundVar_of_reverse h1 hu], ?_⟩
  simp only [Term.wellFormed, Bool.and_eq_true, decide_eq_true_eq]
  omega

theorem getElem?_reverse_append_inner (X inner : List (Term T)) {m : Int} (hm : 0 ≤ m) :
    (X ++ inner).reverse[((inner.length : Int) + m).toNat]? = X.reverse[m.toNat]? := by
  have hidx : ((inner.length : Int) + m).toNat = inner.reverse.length + m.toNat := by
    rw [List.length_reverse]
    omega
  rw [List.reverse_append, hidx, List.getElem?_append_right (Nat.le_add_right _ _),
    Nat.add_sub_cancel_left]

theorem getElem?_reverse_append_of_lt (X inner : List (Term T)) {m : Nat} (hm : m < inner.length) :
    (X ++ inner).reverse[m]? = inner.reverse[m]? := by
  rw [List.reverse_append, List.getElem?_append_left (by rwa [List.length_reverse])]

/-- `E'` is `E` with the levels of a binding of `nTerms` variables renumbered by `boundVarMap`,
for a term that uses the levels `S`: a level `k ≤ nTerms` of `S` is the level of `E'` that
`boundVarMap` gives for it, and a level above the binding loses the levels that are
eliminated. -/
structure Renumbering (E E' : List (Term T)) (nTerms : Int) (boundVarMap : List (Int × Int))
    (S : List Int) : Prop where
  nonneg : 0 ≤ nTerms
  inside : ∀ k ∈ S, k ≤ nTerms → ∀ j, boundVarMap.lookup k = some j →
    1 ≤ j ∧ E'.reverse[(j - 1).toNat]? = E.reverse[(k - 1).toNat]?
  outside : ∀ k, nTerms < k → k ≤ E.length →
    1 ≤ k - (nTerms - boundVarMap.length) ∧
      E'.reverse[(k - (nTerms - boundVarMap.length) - 1).toNat]? = E.reverse[(k - 1).toNat]?

section Renumber

variable {E E' : List (Term T)} {nTerms : Int} {bvm : List (Int × Int)} {S : List Int}

/-- A bound variable renumbered by `adjustBoundIndex` under the inner levels `inner` names a
level with the same definition. -/
theorem unlet_adjustBoundIndex_boundVar (hR : Renumbering E E' nTerms bvm S)
    (inner : List (Term T)) {i : Int} {s' : Term T}
    (hwf : (Term.boundVar i : Term T).wellFormed (E ++ inner).length)
    (hS : (inner.length : Int) < i → i - inner.length ∈ S)
    (h : adjustBoundIndex nTerms bvm inner.length (.boundVar i) = .ok s') :
    unlet (E' ++ inner) s' = unlet (E ++ inner) (.boundVar i) ∧
      s'.wellFormed (E' ++ inner).length := by
  simp only [Term.wellFormed, Bool.and_eq_true, decide_eq_true_eq, List.length_append,
    Nat.cast_add] at hwf
  obtain ⟨h1, hi⟩ := hwf
  have hlt : (i - 1).toNat < (E ++ inner).length := by
    rw [List.length_append]
    omega
  rw [adjustBoundIndex] at h
  split_ifs at h with hout hin
  · -- a level above the binding
    cases h
    have hN := hR.nonneg
    obtain ⟨h1', hlev⟩ := hR.outside (i - inner.length) (by omega) (by omega)
    refine unlet_boundVar_congr h1 (by omega) hlt ?_
    rw [show i - (nTerms - bvm.length) - 1 =
        (inner.length : Int) + (i - inner.length - (nTerms - bvm.length) - 1) by ring,
      getElem?_reverse_append_inner _ _ (by omega),
      show i - 1 = (inner.length : Int) + (i - inner.length - 1) by ring,
      getElem?_reverse_append_inner _ _ (by omega)]
    exact hlev
  · -- a level of the binding, which the term uses
    cases hj : bvm.lookup (i - inner.length) with
    | none => rw [hj] at h; cases h
    | some j =>
      rw [hj] at h
      cases h
      obtain ⟨hj1, hlev⟩ := hR.inside _ (hS hin) (by omega) j hj
      refine unlet_boundVar_congr h1 (by omega) hlt ?_
      rw [show j + inner.length - 1 = (inner.length : Int) + (j - 1) by ring,
        getElem?_reverse_append_inner _ _ (by omega),
        show i - 1 = (inner.length : Int) + (i - inner.length - 1) by ring,
        getElem?_reverse_append_inner _ _ (by omega)]
      exact hlev
  · -- a level inside the term
    cases h
    refine unlet_boundVar_congr h1 h1 hlt ?_
    rw [getElem?_reverse_append_of_lt _ _ (by omega), getElem?_reverse_append_of_lt _ _ (by omega)]

mutual
/-- The renumbering of `trim_let_domain` keeps the let-free form of a term: under the inner
levels of the term, a term renumbered by `adjustBoundIndex` has the same let-free form under
`E'` as the term under `E`. By induction on the term; a let binding adds its definitions to the
inner levels. -/
theorem unlet_mapRecM_adjustBoundIndex (hR : Renumbering E E' nTerms bvm S) :
    ∀ (s : Term T) (inner : List (Term T)) (s' : Term T),
      s.wellFormed (E ++ inner).length →
      (∀ k ∈ boundVars s, (inner.length : Int) < k → k - inner.length ∈ S) →
      mapRecM (adjustBoundIndex nTerms bvm) inner.length s = .ok s' →
      unlet (E' ++ inner) s' = unlet (E ++ inner) s ∧ s'.wellFormed (E' ++ inner).length
  | .freeVar _, _, _, _, _, h | .leaf _, _, _, _, _, h => by
    simp only [mapRecM_freeVar, mapRecM_leaf] at h
    cases h
    exact ⟨by rw [unlet, unlet], by simp [Term.wellFormed]⟩
  | .boundVar i, inner, s', hwf, hS, h => by
    rw [mapRecM_boundVar] at h
    exact unlet_adjustBoundIndex_boundVar hR inner hwf
      (fun hlt => hS i (by simp [boundVars]) hlt) h
  | .node o args, inner, s', hwf, hS, h => by
    rw [mapRecM] at h
    obtain ⟨args', hargs, h⟩ := Kind2.Term.except_bind_eq_ok.1 h
    change Except.ok (Term.node o args') = Except.ok s' at h
    cases h
    obtain ⟨hmap, hwf'⟩ := unlet_mapRecM_adjustBoundIndex_list hR args inner args'
      (Term.wellFormed_node_iff.1 hwf)
      (fun a ha k hk => hS k (mem_boundVars_node.2 ⟨a, ha, hk⟩)) hargs
    exact ⟨by rw [unlet, unlet, hmap], Term.wellFormed_node_iff.2 hwf'⟩
  | .letE n body defs, inner, s', hwf, hS, h => by
    obtain ⟨hlen, hbody, hdefs⟩ := Term.wellFormed_letE_iff.1 hwf
    rw [mapRecM] at h
    obtain ⟨defs', hdefs', h⟩ := Kind2.Term.except_bind_eq_ok.1 h
    obtain ⟨body', hbody', h⟩ := Kind2.Term.except_bind_eq_ok.1 h
    change Except.ok (Term.letE n body' defs') = Except.ok s' at h
    cases h
    obtain ⟨hmap, hwfd⟩ := unlet_mapRecM_adjustBoundIndex_list hR defs inner defs' hdefs
      (fun a ha k hk => hS k (mem_boundVars_letE.2 (.inr ⟨a, ha, hk⟩))) hdefs'
    -- the definitions of the let binding are the next inner levels
    have hlen' : ((inner ++ defs.map (unlet (E ++ inner))).length : Int) =
        inner.length + n.length := by
      simp [hlen]
    have hdlen : defs'.length = defs.length := by
      simpa using congrArg List.length hmap
    have hwfb : body.wellFormed (E ++ (inner ++ defs.map (unlet (E ++ inner)))).length := by
      have : (((E ++ inner) ++ defs.map (unlet (E ++ inner))).length : Int) =
          (E ++ inner).length + n.length := by simp [hlen, add_assoc]
      rw [← List.append_assoc, this]
      exact hbody
    -- a loose index of the body above the definitions is a loose index of the let
    have hSb : ∀ k ∈ boundVars body, ((inner ++ defs.map (unlet (E ++ inner))).length : Int) < k →
        k - (inner ++ defs.map (unlet (E ++ inner))).length ∈ S := by
      intro k hk hlt
      have hl : ((inner ++ defs.map (unlet (E ++ inner))).length : Int) =
          inner.length + defs.length := by simp
      rw [hl] at hlt ⊢
      have hmem : k - defs.length ∈ boundVars (.letE n body defs) :=
        mem_boundVars_letE.2 (.inl ⟨by omega, by rwa [sub_add_cancel]⟩)
      have := hS _ hmem (by omega)
      rwa [show k - (inner.length + defs.length : Int) = k - defs.length - inner.length by ring]
    obtain ⟨hu, hw⟩ := unlet_mapRecM_adjustBoundIndex hR body _ body' hwfb hSb
      (by rw [hlen']; exact hbody')
    refine ⟨?_, Term.wellFormed_letE_iff.2 ⟨by omega, ?_, hwfd⟩⟩
    · rw [unlet, unlet, hmap, List.append_assoc, List.append_assoc]
      exact hu
    · have : ((E' ++ (inner ++ defs.map (unlet (E ++ inner)))).length : Int) =
          (E' ++ inner).length + n.length := by simp [hlen, add_assoc]
      rw [← this]
      exact hw
  | .existsE _ _, _, _, hwf, _, _ | .forallE _ _, _, _, hwf, _, _ => by
    simp [Term.wellFormed] at hwf
  | .annot t a, inner, s', hwf, hS, h => by
    rw [mapRecM] at h
    obtain ⟨t', ht, h⟩ := Kind2.Term.except_bind_eq_ok.1 h
    change Except.ok (Term.annot t' a) = Except.ok s' at h
    cases h
    obtain ⟨hu, hw⟩ := unlet_mapRecM_adjustBoundIndex hR t inner t'
      (by simpa [Term.wellFormed] using hwf) (by rwa [boundVars_annot] at hS) ht
    exact ⟨by rw [unlet, unlet]; exact hu, by simpa [Term.wellFormed] using hw⟩

/-- `unlet_mapRecM_adjustBoundIndex` for each term of a list. -/
theorem unlet_mapRecM_adjustBoundIndex_list (hR : Renumbering E E' nTerms bvm S) :
    ∀ (ts : List (Term T)) (inner : List (Term T)) (ts' : List (Term T)),
      (∀ a ∈ ts, a.wellFormed (E ++ inner).length) →
      (∀ a ∈ ts, ∀ k ∈ boundVars a, (inner.length : Int) < k → k - inner.length ∈ S) →
      mapRecMList (adjustBoundIndex nTerms bvm) inner.length ts = .ok ts' →
      ts'.map (unlet (E' ++ inner)) = ts.map (unlet (E ++ inner)) ∧
        ∀ a ∈ ts', a.wellFormed (E' ++ inner).length
  | [], _, _, _, _, h => by
    rw [mapRecMList] at h
    cases h
    simp
  | t :: ts, inner, ts', hwf, hS, h => by
    rw [mapRecMList] at h
    obtain ⟨ts'', hts, h⟩ := Kind2.Term.except_bind_eq_ok.1 h
    obtain ⟨t', ht, h⟩ := Kind2.Term.except_bind_eq_ok.1 h
    cases h
    obtain ⟨hu, hw⟩ := unlet_mapRecM_adjustBoundIndex hR t inner t' (hwf t List.mem_cons_self)
      (hS t List.mem_cons_self) ht
    obtain ⟨hus, hws⟩ := unlet_mapRecM_adjustBoundIndex_list hR ts inner ts''
      (fun a ha => hwf a (List.mem_cons_of_mem t ha))
      (fun a ha => hS a (List.mem_cons_of_mem t ha)) hts
    refine ⟨by rw [List.map_cons, List.map_cons, hu, hus], ?_⟩
    intro a ha
    rcases List.mem_cons.1 ha with rfl | ha
    · exact hw
    · exact hws a ha
end

mutual
/-- `adjustBoundIndex` raises nothing when `boundVarMap` has an index for every variable of the
binding that the term uses. -/
theorem mapRecM_adjustBoundIndex_ok
    (hS : ∀ k ∈ S, 1 ≤ k → k ≤ nTerms → (bvm.lookup k).isSome) :
    ∀ (s : Term T) (o d : Int), 0 ≤ o → s.wellFormed d →
      (∀ k ∈ boundVars s, o < k → k - o ∈ S) →
      ∃ s', mapRecM (adjustBoundIndex nTerms bvm) o s = .ok s'
  | .freeVar _, _, _, _, _, _ | .leaf _, _, _, _, _, _ => by simp [adjustBoundIndex]
  | .boundVar i, o, _, _, _, hS' => by
    rw [mapRecM_boundVar, adjustBoundIndex]
    split_ifs with hout hin
    · exact ⟨_, rfl⟩
    · obtain ⟨j, hj⟩ := Option.isSome_iff_exists.1
        (hS _ (hS' i (by simp [boundVars]) hin) (by omega) (by omega))
      rw [hj]
      exact ⟨_, rfl⟩
    · exact ⟨_, rfl⟩
  | .node o' args, o, d, ho, hwf, hS' => by
    obtain ⟨args', h⟩ := mapRecMList_adjustBoundIndex_ok hS args o d ho
      (Term.wellFormed_node_iff.1 hwf) fun a ha k hk => hS' k (mem_boundVars_node.2 ⟨a, ha, hk⟩)
    exact ⟨_, by rw [mapRecM, h]; rfl⟩
  | .letE n body defs, o, d, ho, hwf, hS' => by
    obtain ⟨hlen, hbody, hdefs⟩ := Term.wellFormed_letE_iff.1 hwf
    obtain ⟨defs', h₁⟩ := mapRecMList_adjustBoundIndex_ok hS defs o d ho hdefs
      fun a ha k hk => hS' k (mem_boundVars_letE.2 (.inr ⟨a, ha, hk⟩))
    -- a variable of the body bound outside the let is one of the let binding
    obtain ⟨body', h₂⟩ := mapRecM_adjustBoundIndex_ok hS body (o + n.length) (d + n.length)
      (by omega) hbody (by
        intro k hk hlt
        have hmem : k - defs.length ∈ boundVars (.letE n body defs) :=
          mem_boundVars_letE.2 (.inl ⟨by omega, by rwa [sub_add_cancel]⟩)
        have := hS' _ hmem (by omega)
        rwa [show k - (o + n.length) = k - defs.length - o by rw [hlen]; ring])
    exact ⟨_, by rw [mapRecM, h₁]; simp only [h₂]; rfl⟩
  | .existsE _ _, _, _, _, hwf, _ | .forallE _ _, _, _, _, hwf, _ => by
    simp [Term.wellFormed] at hwf
  | .annot t a, o, d, ho, hwf, hS' => by
    obtain ⟨t', h⟩ := mapRecM_adjustBoundIndex_ok hS t o d ho
      (by simpa [Term.wellFormed] using hwf) (by rwa [boundVars_annot] at hS')
    exact ⟨_, by rw [mapRecM, h]; rfl⟩

theorem mapRecMList_adjustBoundIndex_ok
    (hS : ∀ k ∈ S, 1 ≤ k → k ≤ nTerms → (bvm.lookup k).isSome) :
    ∀ (ts : List (Term T)) (o d : Int), 0 ≤ o → (∀ a ∈ ts, a.wellFormed d) →
      (∀ a ∈ ts, ∀ k ∈ boundVars a, o < k → k - o ∈ S) →
      ∃ ts', mapRecMList (adjustBoundIndex nTerms bvm) o ts = .ok ts'
  | [], _, _, _, _, _ => ⟨[], by rw [mapRecMList]⟩
  | t :: ts, o, d, ho, hwf, hS' => by
    obtain ⟨ts', h₁⟩ := mapRecMList_adjustBoundIndex_ok hS ts o d ho
      (fun a ha => hwf a (List.mem_cons_of_mem t ha)) (fun a ha => hS' a (List.mem_cons_of_mem t ha))
    obtain ⟨t', h₂⟩ := mapRecM_adjustBoundIndex_ok hS t o d ho (hwf t List.mem_cons_self)
      (hS' t List.mem_cons_self)
    exact ⟨_, by rw [mapRecMList, h₁]; simp only [h₂]; rfl⟩
end

end Renumber

/-! ## `trim_let_domain` keeps the let binding it trims -/

/-- What `list_extract_indexes` extracts from `l` at indexes from 1 on: one element for each index
up to the length of `l`, the `j`-th for the `j`-th such index. By induction on the indexes. -/
theorem filterMap_getElem?_spec (l : List α) : ∀ (L : List Int), (∀ k ∈ L, 1 ≤ k) →
    (L.filterMap fun k => l[(k - 1).toNat]?).length = (L.filter (· ≤ (l.length : Int))).length ∧
      ∀ (j : Nat) (k : Int), (L.filter (· ≤ (l.length : Int)))[j]? = some k →
        (L.filterMap fun k => l[(k - 1).toNat]?)[j]? = l[(k - 1).toNat]?
  | [], _ => by simp
  | k₀ :: L, h1 => by
    obtain ⟨ihlen, ihget⟩ :=
      filterMap_getElem?_spec l L fun k hk => h1 k (List.mem_cons_of_mem _ hk)
    have hk₀ := h1 k₀ List.mem_cons_self
    by_cases hle : k₀ ≤ l.length
    · -- the index is in the list: its element is extracted
      have hlt : (k₀ - 1).toNat < l.length := by omega
      rw [List.filterMap_cons_some (f := fun k : Int => l[(k - 1).toNat]?) (List.getElem?_eq_getElem hlt),
        List.filter_cons_of_pos (by simpa using hle)]
      refine ⟨by rw [List.length_cons, List.length_cons, ihlen], ?_⟩
      intro j k hj
      cases j with
      | zero =>
        simp only [List.getElem?_cons_zero, Option.some.injEq] at hj
        subst hj
        simp
      | succ j => simpa using ihget j k (by simpa using hj)
    · have hnone : l[(k₀ - 1).toNat]? = none := List.getElem?_eq_none (by omega)
      rw [List.filterMap_cons_none (f := fun k : Int => l[(k - 1).toNat]?) hnone,
        List.filter_cons_of_neg (by simpa using hle)]
      exact ⟨ihlen, ihget⟩

/-- The renumbering of `trim_let_domain` for the definitions `b` and the term `r`: the levels of
the binding are replaced by those of the definitions extracted at the variables that `r` uses. -/
theorem renumbering_trim (env b : List (Term T)) (r : Term T) (h1 : ∀ k ∈ boundVars r, 1 ≤ k) :
    Renumbering (env ++ b.map (unlet env))
      (env ++ ((boundVars r).filterMap fun k => b.reverse[(k - 1).toNat]?).reverse.map (unlet env))
      b.length (boundVarMap b.length (boundVars r)) (boundVars r) := by
  obtain ⟨hblen, hbget⟩ := filterMap_getElem?_spec b.reverse (boundVars r) h1
  rw [List.length_reverse] at hblen hbget
  refine ⟨by omega, ?_, ?_⟩
  · -- a variable of the binding that `r` uses: the kept definition of its new index
    intro k hk hkN j hj
    have hmem : k ∈ (boundVars r).filter (· ≤ (b.length : Int)) :=
      List.mem_filter.2 ⟨hk, by simpa using hkN⟩
    obtain ⟨idx, hidx⟩ := List.mem_iff_getElem?.1 hmem
    obtain rfl := Option.some.inj ((lookup_boundVarMap (pairwise_boundVars r) hidx).symm.trans hj)
    have hidxlt : idx < ((boundVars r).filterMap fun k => b.reverse[(k - 1).toNat]?).length := by
      rw [hblen]
      exact (List.getElem?_eq_some_iff.1 hidx).1
    have hk1 := h1 k hk
    refine ⟨by omega, ?_⟩
    simp only [List.reverse_append, List.map_reverse, List.reverse_reverse]
    rw [show (((1 + idx : Nat) : Int) - 1).toNat = idx by omega,
      List.getElem?_append_left (by rwa [List.length_map]), List.getElem?_map, hbget idx k hidx,
      List.getElem?_append_left (by simp; omega), ← List.map_reverse, List.getElem?_map]
  · -- a variable bound outside the binding: the eliminated levels are dropped
    intro k hk hkE
    rw [length_boundVarMap, ← hblen]
    simp only [List.length_append, List.length_map] at hkE
    refine ⟨by omega, ?_⟩
    simp only [List.reverse_append, List.map_reverse, List.reverse_reverse]
    rw [show (k - (b.length -
          ((boundVars r).filterMap fun k => b.reverse[(k - 1).toNat]?).length) - 1).toNat =
        (((boundVars r).filterMap fun k => b.reverse[(k - 1).toNat]?).map (unlet env)).length +
          (k - b.length - 1).toNat by simp; omega,
      List.getElem?_append_right (Nat.le_add_right _ _), Nat.add_sub_cancel_left,
      show (k - 1).toNat = (b.map (unlet env)).reverse.length + (k - b.length - 1).toNat by
        simp; omega,
      List.getElem?_append_right (Nat.le_add_right _ _), Nat.add_sub_cancel_left]

/-- `trim_let_domain` keeps the meaning of the let binding of `b` over `r`: from some fuel on it
gives a well-formed term whose let-free form under any environment is that of the binding. -/
theorem trimLetDomain_spec {d : Nat} (ofs : Int) {i : List T.sort} {b : List (Term T)}
    {r : Term T} (hlen : i.length = b.length) (hb : ∀ a ∈ b, a.wellFormed d)
    (hr : r.wellFormed (d + b.length)) :
    ∃ r', (∃ n, ∀ fuel, n ≤ fuel → trimLetDomain fuel ofs i b r = some (.ok r')) ∧
      r'.wellFormed d ∧
      ∀ env : List (Term T), env.length = d → unlet env r' = unlet (env ++ b.map (unlet env)) r := by
  have hL := pairwise_boundVars r
  have h1 : ∀ k ∈ boundVars r, 1 ≤ k := fun k hk => (boundVars_range r _ hr k hk).1
  obtain ⟨hblen, -⟩ := filterMap_getElem?_spec b.reverse (boundVars r) h1
  obtain ⟨hilen, -⟩ := filterMap_getElem?_spec i.reverse (boundVars r) h1
  rw [List.length_reverse] at hblen hilen
  -- the renumbering finds an index for each variable of the binding that `r` uses
  have hS : ∀ k ∈ boundVars r, 1 ≤ k → k ≤ (b.length : Int) →
      ((boundVarMap b.length (boundVars r)).lookup k).isSome := by
    intro k hk _ hkN
    have hmem : k ∈ (boundVars r).filter (· ≤ (b.length : Int)) :=
      List.mem_filter.2 ⟨hk, by simpa using hkN⟩
    obtain ⟨j, hj⟩ := List.mem_iff_getElem?.1 hmem
    rw [lookup_boundVarMap hL hj]
    rfl
  obtain ⟨r', hr'⟩ := mapRecM_adjustBoundIndex_ok hS r 0 _ le_rfl hr
    fun k hk _ => by rwa [sub_zero]
  obtain ⟨n, hn⟩ := map_eq_mapRecM (adjustBoundIndex b.length (boundVarMap b.length (boundVars r))) r
  -- the renumbered term under the levels of the kept definitions
  have hsem : ∀ env : List (Term T), env.length = d →
      unlet (env ++ ((boundVars r).filterMap fun k => b.reverse[(k - 1).toNat]?).reverse.map
          (unlet env)) r' = unlet (env ++ b.map (unlet env)) r ∧
        r'.wellFormed (d + ((boundVars r).filterMap fun k => b.reverse[(k - 1).toNat]?).length) := by
    intro env henv
    have h := unlet_mapRecM_adjustBoundIndex (renumbering_trim env b r h1) r [] r'
      (by simpa [henv] using hr) (fun k hk _ => by simpa using hk) (by simpa using hr')
    simp only [List.append_nil, List.length_append, List.length_map, List.length_reverse,
      henv, Nat.cast_add] at h
    exact h
  have hwf' := (hsem (List.replicate d (.boundVar 0)) (by simp)).2
  -- the kept definitions are definitions of the binding
  have hkept : ∀ a ∈ ((boundVars r).filterMap fun k => b.reverse[(k - 1).toNat]?).reverse,
      a.wellFormed d := by
    intro a ha
    obtain ⟨k, -, hk⟩ := List.mem_filterMap.1 (List.mem_reverse.1 ha)
    exact hb a (List.mem_reverse.1 (List.mem_of_getElem? hk))
  cases hbt : ((boundVars r).filterMap fun k => b.reverse[(k - 1).toNat]?).reverse with
  | nil =>
    -- no definition is kept: the renumbered term itself
    have hnil : ((boundVars r).filterMap fun k => b.reverse[(k - 1).toNat]?) = [] :=
      List.reverse_eq_nil_iff.1 hbt
    refine ⟨r', ⟨n, fun fuel hfuel => ?_⟩, ?_, fun env henv => ?_⟩
    · simp only [trimLetDomain, hn fuel hfuel, hr', listExtractIndexes_eq _ _ hL h1, hbt]
    · rw [hnil, List.length_nil, Nat.cast_zero, add_zero] at hwf'
      exact hwf'
    · have := (hsem env henv).1
      rwa [hbt, List.map_nil, List.append_nil] at this
  | cons a as =>
    refine ⟨.letE ((boundVars r).filterMap fun k => i.reverse[(k - 1).toNat]?).reverse r' (a :: as),
      ⟨n, fun fuel hfuel => ?_⟩, ?_, fun env henv => ?_⟩
    · simp only [trimLetDomain, hn fuel hfuel, hr', listExtractIndexes_eq _ _ hL h1, hbt]
    · -- as many sorts are kept as definitions
      rw [hlen] at hilen
      have htylen : ((boundVars r).filterMap fun k => i.reverse[(k - 1).toNat]?).reverse.length =
          ((boundVars r).filterMap fun k => b.reverse[(k - 1).toNat]?).length := by
        rw [List.length_reverse, hilen, hblen]
      refine Term.wellFormed_letE_iff.2 ⟨?_, by rw [htylen]; exact hwf', by rw [← hbt]; exact hkept⟩
      rw [htylen, ← List.length_reverse, hbt]
    · rw [unlet, ← hbt]
      exact (hsem env henv).1

/-- `trimLetDomainList` keeps the meaning of the binding over each argument. -/
theorem trimLetDomainList_spec {d : Nat} (ofs : Int) {i : List T.sort} {b : List (Term T)}
    (hlen : i.length = b.length) (hb : ∀ a ∈ b, a.wellFormed d) :
    ∀ l : List (Term T), (∀ r ∈ l, r.wellFormed (d + b.length)) →
      ∃ l', (∃ n, ∀ fuel, n ≤ fuel → trimLetDomainList fuel ofs i b l = some (.ok l')) ∧
        (∀ r' ∈ l', r'.wellFormed d) ∧
        ∀ env : List (Term T), env.length = d →
          l'.map (unlet env) = l.map (unlet (env ++ b.map (unlet env)))
  | [], _ => ⟨[], ⟨0, fun _ _ => rfl⟩, by simp, fun _ _ => rfl⟩
  | r :: l, h => by
    obtain ⟨r', ⟨n₁, hn₁⟩, hwf₁, hsem₁⟩ := trimLetDomain_spec ofs hlen hb (h r List.mem_cons_self)
    obtain ⟨l', ⟨n₂, hn₂⟩, hwf₂, hsem₂⟩ :=
      trimLetDomainList_spec ofs hlen hb l fun r' hr' => h r' (List.mem_cons_of_mem r hr')
    refine ⟨r' :: l', ⟨max n₁ n₂, fun fuel hfuel => ?_⟩, ?_, fun env henv => ?_⟩
    · rw [trimLetDomainList, hn₁ fuel (le_of_max_le_left hfuel),
        hn₂ fuel (le_of_max_le_right hfuel)]
      rfl
    · intro x hx
      rcases List.mem_cons.1 hx with rfl | hx
      · exact hwf₁
      · exact hwf₂ x hx
    · rw [List.map_cons, List.map_cons, hsem₁ env henv, hsem₂ env henv]

/-! ## `destruct'` -/

/-- The annotations of a term that `destruct` can reach: those of its body and definitions
through let bindings and annotations, and none under an application. It bounds the calls of
`destruct` on the annotated terms that `destruct'` returns. -/
def annotCount : Term T → Nat
  | .letE _ body l => annotCount body + (l.map annotCount).sum
  | .existsE _ body | .forallE _ body => annotCount body
  | .annot t _ => annotCount t + 1
  | _ => 0

theorem annotCount_letE (n : List T.sort) (t : Term T) (b : List (Term T)) :
    annotCount (.letE n t b) = annotCount t + (b.map annotCount).sum := by
  rw [annotCount]

/-- What `destruct' ofs t` gives under `d` levels: from some fuel on, a term with no let binding
at the top, well-formed, with no more annotations to reach than `t`, and with the let-free form
of `t` under any environment of the levels. -/
def DestructOK (ofs : Int) (d : Nat) (t : Term T) : Prop :=
  ∃ u, (∃ n, ∀ fuel, n ≤ fuel → destruct' fuel ofs t = some (.ok u)) ∧
    (∀ n l b, u ≠ .letE n l b) ∧ u.wellFormed d ∧ annotCount u ≤ annotCount t ∧
    ∀ env : List (Term T), env.length = d → unlet env u = unlet env t

/-- A term that `destruct'` returns as it is. -/
theorem destructOK_self {ofs : Int} {d : Nat} {t : Term T} (hwf : t.wellFormed d)
    (hlet : ∀ n l b, t ≠ .letE n l b) (h : ∀ fuel, destruct' (fuel + 1) ofs t = some (.ok t)) :
    DestructOK ofs d t := by
  exact ⟨t, ⟨1, Machine.forall_fuel_of_succ fun f _ => h f⟩, hlet, hwf, le_rfl, fun _ _ => rfl⟩

theorem unlet_letE (env : List (Term T)) (n : List T.sort) (t : Term T) (b : List (Term T)) :
    unlet env (.letE n t b) = unlet (env ++ b.map (unlet env)) t := by
  rw [unlet]

/-- A let binding over a term with no let binding at the top, when each definition is destructed
correctly: `destruct'` resolves a bound variable, pushes the binding under an annotation, or
distributes it over the arguments of an application. -/
theorem destructOK_letE {ofs : Int} {d : Nat} {n : List T.sort} {b : List (Term T)}
    (hlen : n.length = b.length) (hb : ∀ a ∈ b, a.wellFormed d)
    (ihb : ∀ a ∈ b, ∀ ofs, DestructOK ofs d a) {u : Term T} (hu : ∀ n l b, u ≠ .letE n l b)
    (huwf : u.wellFormed (d + b.length)) : DestructOK ofs d (.letE n u b) := by
  cases u with
  | leaf c =>
    exact ⟨.leaf c, ⟨1, Machine.forall_fuel_of_succ fun _ _ => rfl⟩, by simp,
      by simp [Term.wellFormed], by simp [annotCount], fun env _ => by rw [unlet, unlet, unlet]⟩
  | freeVar v =>
    exact ⟨.freeVar v, ⟨1, Machine.forall_fuel_of_succ fun _ _ => rfl⟩, by simp,
      by simp [Term.wellFormed], by simp [annotCount], fun env _ => by rw [unlet, unlet, unlet]⟩
  | node s args =>
    -- the binding is distributed over the arguments
    obtain ⟨args', ⟨n₁, hn₁⟩, hwf', hsem⟩ :=
      trimLetDomainList_spec ofs hlen hb args (Term.wellFormed_node_iff.1 huwf)
    refine ⟨.node s args', ⟨n₁ + 1, Machine.forall_fuel_of_succ fun f hf => ?_⟩, by simp,
      Term.wellFormed_node_iff.2 hwf', by simp [annotCount], fun env henv => ?_⟩
    · rw [destruct', hn₁ f (by omega)]
      rfl
    · rw [unlet, unlet, unlet, hsem env henv]
  | boundVar j =>
    simp only [Term.wellFormed, Bool.and_eq_true, decide_eq_true_eq] at huwf
    by_cases hout : j > b.length
    · -- a variable bound outside the binding
      refine ⟨.boundVar (j - b.length), ⟨1, Machine.forall_fuel_of_succ fun _ _ => ?_⟩, by simp, ?_,
        by simp [annotCount], fun env henv => ?_⟩
      · simp [destruct', hout]
      · simp only [Term.wellFormed, Bool.and_eq_true, decide_eq_true_eq]
        omega
      · have h := @unlet_append_boundVar_outer T env (b.map (unlet env)) (j - b.length)
          (by omega) (by omega)
        rw [List.length_map, add_sub_cancel] at h
        rw [unlet_letE, h]
    · -- a variable of the binding: its definition
      have hidx : (b.length - j).toNat < b.length := by omega
      obtain ⟨u, ⟨n₁, hn₁⟩, hlet, hwf, hc, hsem⟩ :=
        ihb b[(b.length - j).toNat] (List.getElem_mem hidx) ofs
      have hnth : nth b (b.length - j) = .ok b[(b.length - j).toNat] := by
        rw [nth, if_neg (by omega), List.getElem?_eq_getElem hidx]
      refine ⟨u, ⟨n₁ + 1, Machine.forall_fuel_of_succ fun f hf => ?_⟩, hlet, hwf, ?_,
        fun env henv => ?_⟩
      · simp only [destruct', if_neg hout, hnth]
        exact hn₁ f (by omega)
      · have := List.le_sum_of_mem (List.mem_map_of_mem (f := annotCount) (List.getElem_mem hidx))
        rw [annotCount_letE]
        omega
      · have hlev : unlet (env ++ b.map (unlet env)) (.boundVar j) =
            unlet env b[(b.length - j).toNat] := by
          rw [unlet_append_boundVar_inner (by omega) (by simpa using (by omega : j ≤ b.length)),
            unlet, if_pos ⟨by omega, by simpa using (by omega : j ≤ b.length)⟩,
            List.getD_eq_getElem?_getD, List.length_map,
            List.getElem?_map, List.getElem?_eq_getElem hidx]
          rfl
        rw [hsem env henv, unlet_letE, hlev]
  | annot t a =>
    -- the binding goes under the annotation
    have htwf : t.wellFormed (d + b.length) := by simpa [Term.wellFormed] using huwf
    refine ⟨.annot (.letE n t b) a, ⟨1, Machine.forall_fuel_of_succ fun _ _ => rfl⟩, by simp,
      ?_, ?_, fun env _ => ?_⟩
    · have : (Term.letE n t b).wellFormed d :=
        Term.wellFormed_letE_iff.2 ⟨hlen, by rwa [hlen], hb⟩
      simpa [Term.wellFormed] using this
    · simp [annotCount]
    · rw [unlet, unlet, unlet, unlet]
  | letE n' l' b' => exact absurd rfl (hu n' l' b')
  | existsE _ _ | forallE _ _ => simp [Term.wellFormed] at huwf

/-- Every well-formed term is destructed correctly, by strong induction on its size: a let
binding over a bound variable of the binding goes on with its definition, which is not a subterm
of the body. -/
theorem destruct'_spec (t : Term T) (d : Nat) (ofs : Int) (hwf : t.wellFormed d) :
    DestructOK ofs d t := by
  induction hN : sizeOf t using Nat.strongRecOn generalizing t d ofs with
  | ind N ih =>
    cases t with
    | boundVar i => exact destructOK_self hwf (by simp) fun _ => rfl
    | leaf c => exact destructOK_self hwf (by simp) fun _ => rfl
    | freeVar v => exact destructOK_self hwf (by simp) fun _ => rfl
    | node s l => exact destructOK_self hwf (by simp) fun _ => rfl
    | annot t a => exact destructOK_self hwf (by simp) fun _ => rfl
    | existsE _ _ | forallE _ _ => simp [Term.wellFormed] at hwf
    | letE n l b =>
      obtain ⟨hlen, hl, hb⟩ := Term.wellFormed_letE_iff.1 hwf
      have ihb : ∀ a ∈ b, ∀ ofs, DestructOK ofs d a := by
        intro a ha ofs
        have hlt : sizeOf a < N := by
          have := List.sizeOf_lt_of_mem ha
          rw [← hN, Term.letE.sizeOf_spec]
          omega
        exact ih _ hlt a d ofs (hb a ha) rfl
      have hl' : l.wellFormed (d + b.length) := by rwa [← hlen]
      cases l
      case letE n' l' b' =>
        -- the inner binding first, then this one over what it gives
        have hlt : sizeOf (Term.letE n' l' b') < N := by
          rw [← hN]
          simp only [Term.letE.sizeOf_spec]
          omega
        obtain ⟨u, ⟨n₁, hn₁⟩, hlet, huwf, hc, hsem⟩ :=
          ih _ hlt _ (d + n.length) (ofs + n.length) (by rwa [Nat.cast_add]) rfl
        have hr : DestructOK ofs d (.letE n u b) :=
          destructOK_letE hlen hb ihb hlet (by rwa [← hlen, ← Nat.cast_add])
        obtain ⟨r, ⟨n₂, hn₂⟩, hrlet, hrwf, hrc, hrsem⟩ := hr
        refine ⟨r, ⟨max n₁ n₂ + 1, Machine.forall_fuel_of_succ fun f hf => ?_⟩, hrlet, hrwf, ?_,
          fun env henv => ?_⟩
        · simp only [destruct', hn₁ f (by omega)]
          exact hn₂ f (by omega)
        · rw [annotCount_letE] at hrc ⊢
          omega
        · rw [hrsem env henv, unlet_letE, unlet_letE]
          exact hsem _ (by simp [henv, hlen])
      all_goals exact destructOK_letE hlen hb ihb (by simp) hl'

/-! ## `destruct` -/

/-- `f` is the top of the let-free term `u`: its variable, its constant, or its symbol with
arguments without loose indices whose let-free forms are the arguments of `u`. -/
def TopOf : Flat T → Term T → Prop
  | .var v, u => u = .freeVar v
  | .const s, u => u = .leaf s
  | .app s args, u => u = .node s (args.map (unlet [])) ∧ ∀ a ∈ args, a.wellFormed 0
  | .attr _ _, _ => False

/-- `destruct` gives the top of the let-free form of every well-formed term without loose
indices, by strong induction on the annotations it can reach: each call after the first is on
the term under an annotation that `destruct'` brought to the top. -/
theorem destruct_spec (t : Term T) (hwf : t.wellFormed 0) :
    ∃ f, (∃ n, ∀ fuel, n ≤ fuel → destruct fuel t = some (.ok f)) ∧ TopOf f (unlet [] t) := by
  induction hN : annotCount t using Nat.strongRecOn generalizing t with
  | ind N ih =>
    obtain ⟨u, ⟨n₁, hn₁⟩, hlet, huwf, hc, hsem⟩ := destruct'_spec t 0 0 hwf
    have hu : unlet [] u = unlet [] t := hsem [] rfl
    cases u with
    | leaf c =>
      refine ⟨.const c, ⟨n₁ + 1, Machine.forall_fuel_of_succ fun f hf => ?_⟩, ?_⟩
      · simp only [destruct, hn₁ f (by omega)]
      · rw [TopOf, ← hu, unlet]
    | freeVar v =>
      refine ⟨.var v, ⟨n₁ + 1, Machine.forall_fuel_of_succ fun f hf => ?_⟩, ?_⟩
      · simp only [destruct, hn₁ f (by omega)]
      · rw [TopOf, ← hu, unlet]
    | node s args =>
      refine ⟨.app s args, ⟨n₁ + 1, Machine.forall_fuel_of_succ fun f hf => ?_⟩, ?_,
        Term.wellFormed_node_iff.1 huwf⟩
      · simp only [destruct, hn₁ f (by omega)]
      · rw [← hu, unlet]
    | annot t' a =>
      -- the next call is on the annotated term, with fewer annotations to reach
      have ht' : t'.wellFormed 0 := by simpa [Term.wellFormed] using huwf
      have hlt : annotCount t' < N := by
        rw [annotCount] at hc
        omega
      obtain ⟨f, ⟨n₂, hn₂⟩, htop⟩ := ih _ hlt t' ht' rfl
      refine ⟨f, ⟨max n₁ n₂ + 1, Machine.forall_fuel_of_succ fun k hk => ?_⟩, ?_⟩
      · simp only [destruct, hn₁ k (by omega)]
        exact hn₂ k (by omega)
      · rwa [← hu, unlet]
    | boundVar i =>
      simp only [Term.wellFormed, Bool.and_eq_true, decide_eq_true_eq, Nat.cast_zero] at huwf
      omega
    | letE n l b => exact absurd rfl (hlet n l b)
    | existsE _ _ | forallE _ _ => simp [Term.wellFormed] at huwf

/-- `destruct` distributes let bindings correctly: on a well-formed term without loose indices it
gives a variable, a constant or an application exactly when the let-free form of the term is
that variable, that constant, or a node of that symbol whose arguments are the let-free forms of
the arguments given, which have no loose indices. -/
theorem destruct_unlet (t : Term T) (ht : t.wellFormed 0) :
    ∃ f, (∃ n, ∀ fuel, n ≤ fuel → destruct fuel t = some (.ok f)) ∧
      (∀ v, f = .var v ↔ unlet [] t = .freeVar v) ∧
      (∀ s, f = .const s ↔ unlet [] t = .leaf s) ∧
      (∀ s us, (∃ args, f = .app s args ∧ args.map (unlet []) = us) ↔
        unlet [] t = .node s us) ∧
      ∀ s args, f = .app s args → ∀ a ∈ args, a.wellFormed 0 := by
  obtain ⟨f, hrun, htop⟩ := destruct_spec t ht
  refine ⟨f, hrun, ?_⟩
  cases f with
  | var v =>
    rw [TopOf] at htop
    simp [htop]
  | const c =>
    rw [TopOf] at htop
    simp [htop]
  | app s args =>
    obtain ⟨htop, hargs⟩ := htop
    refine ⟨by simp [htop], by simp [htop], fun s' us => ?_, ?_⟩
    · simp only [htop, Flat.app.injEq, Term.node.injEq]
      constructor
      · rintro ⟨args', ⟨rfl, rfl⟩, rfl⟩
        exact ⟨rfl, rfl⟩
      · rintro ⟨rfl, rfl⟩
        exact ⟨args, ⟨rfl, rfl⟩, rfl⟩
    · rintro s' args' ⟨-, rfl⟩
      exact hargs
  | attr _ _ => exact htop.elim

/-- `let x = c in f(x, y)` is destructed to `f(c', y)`, where `c'` is the definition `c` moved into
the argument. -/
theorem destruct_unlet_letNode :
    (Term.letE [()] (.node 0 [.boundVar 1, .freeVar 5]) [.leaf 3] :
      Term ⟨Nat, Nat, Unit, Unit⟩).wellFormed 0 ∧
      ∃ f, (∃ n, ∀ fuel, n ≤ fuel → destruct fuel
          (Term.letE [()] (.node 0 [.boundVar 1, .freeVar 5]) [.leaf 3] :
            Term ⟨Nat, Nat, Unit, Unit⟩) = some (.ok f)) ∧
        (∀ v, f = .var v ↔ unlet [] (Term.letE [()] (.node 0 [.boundVar 1, .freeVar 5]) [.leaf 3] :
            Term ⟨Nat, Nat, Unit, Unit⟩) = .freeVar v) ∧
        (∀ s, f = .const s ↔ unlet [] (Term.letE [()] (.node 0 [.boundVar 1, .freeVar 5]) [.leaf 3] :
            Term ⟨Nat, Nat, Unit, Unit⟩) = .leaf s) ∧
        (∀ s us, (∃ args, f = .app s args ∧ args.map (unlet []) = us) ↔
          unlet [] (Term.letE [()] (.node 0 [.boundVar 1, .freeVar 5]) [.leaf 3] :
            Term ⟨Nat, Nat, Unit, Unit⟩) = .node s us) ∧
        ∀ s args, f = .app s args → ∀ a ∈ args, a.wellFormed 0 :=
  ⟨by decide +kernel, destruct_unlet _ (by decide +kernel)⟩

end Ltree
end Kind2
