import Kind2.Lustre.Slicing.Order

/-!
# The dependencies of the state variables of a node

`node_state_var_dependencies' init output_input_deps node accum work`
(`src/lustre/lustreSlicing.ml:252`) computes, for every state variable of the work list, the state
variables it depends on at the current instant, transitively. It is a depth-first walk over the
work list. A variable whose children (`childrenOfStateVar`: what its equations read, and the
inputs and clocks of the node calls that define it) all have entries gets an entry: its children
with their dependencies. Otherwise its children without an entry are pushed above it, each with
the paths of its parents, which the walk checks for cycles.

`ChildOf x y` says that `y` is a child of `x`. When the children of every variable are computed
and the relation is well-founded, as it is on a node whose dependencies at the current instant
have no cycle, the paths of parents of a variable hold strict ancestors only (`Ancestors`), so the
cycle checks never fire (`hasCycle_of_ancestors`, `breakCycle_of_ancestors`). Visiting a variable
then comes back to the work list below it with the variable and everything it depends on finished
(`finishes_single`, by well-founded induction), and the finished entries list exactly what their
variable depends on, transitively (`AccumOK`). The walk from the variables a node defines then
returns a dependency list as `order_state_vars` needs it (`nodeStateVarDependencies'_transitive`).
On it `order_equations` ends and sorts the equations of the node so that every equation comes after
the equations of the state variables it depends on (`orderEquations_topological`), and it maps
every output to the inputs it depends on (`orderEquations_outputInputDep`). `chainNode` is a node of
three variables on which these hypotheses hold.
-/

namespace Kind2
namespace Slicing

open DepOrder

variable {SV : Type} {L : Lang SV} [LinearOrder SV]

/-! ## Dependencies and ancestors -/

section Defs

variable (L) (init : Bool) (oid : OutputInputDeps L) (node : Node L)

/-- `y` is a child of `x`: the equations or the node calls that define `x` read `y` at the
current instant. -/
def ChildOf (x y : SV) : Prop :=
  ∃ d, childrenOfStateVar L init oid node x = .ok d ∧ y ∈ d.map Prod.fst

/-- What the finished entries satisfy: the entries of the dependencies of an entry are below it,
and each entry lists exactly the state variables its variable depends on, transitively. -/
structure AccumOK (accum : List (SV × Deps L)) : Prop where
  below : DepsBelow accum
  closure : ∀ e ∈ accum, ∀ y,
    y ∈ e.2.map Prod.fst ↔ Relation.TransGen (ChildOf L init oid node) e.1 y

/-- The paths of parents of `x` hold strict ancestors of `x` only. -/
def Ancestors (x : SV) (parents : List (Path L)) : Prop :=
  ∀ p ∈ parents, ∀ e ∈ p, Relation.TransGen (ChildOf L init oid node) e.1 x

/-- The entry that `node_state_var_dependencies'` records for a variable whose children all have
entries in `accum`: the children, merged with the dependencies recorded for each. -/
def depsOfVisited (accum : List (SV × Deps L)) (children : Deps L) : Deps L :=
  children.foldl (fun a b =>
    OrdMap.merge mergeDeps ((accum.find? fun e => decide (e.1 = b.1)).elim [] Prod.snd)
      (OrdMap.merge mergeDeps a [b])) []

/-- Working off the list `work` from finished entries comes back to the work list below it with
new finished entries: an entry of every variable of `work` among them or before, and each of a
variable that a variable of `work` is or depends on. -/
def Finishes (work : List (SV × List (Path L))) : Prop :=
  ∀ accum tl, AccumOK L init oid node accum → ∃ new,
    Machine.Reaches (depStep L init oid node) ⟨accum, work ++ tl⟩ ⟨new ++ accum, tl⟩ ∧
      AccumOK L init oid node (new ++ accum) ∧
      (∀ w ∈ work, w.1 ∈ (new ++ accum).map Prod.fst) ∧
      ∀ e ∈ new, ∃ w ∈ work, Relation.ReflTransGen (ChildOf L init oid node) w.1 e.1

end Defs

/-- `List.exists` on the variables of entries is membership among their keys. -/
theorem any_fst_eq {β : Type} (l : List (SV × β)) (y : SV) :
    (l.any fun e => decide (e.1 = y)) = decide (y ∈ l.map Prod.fst) := by
  rw [Bool.eq_iff_iff]
  simp [List.any_eq_true]

/-! ## The cycle checks -/

/-- Without `sv` on the path, `gather_up_to` finds no cycle. -/
theorem gatherUpTo_of_not_mem (sv : SV) (bigAcc : List (Path L)) :
    ∀ (smallAcc path : Path L), (∀ e ∈ path, e.1 ≠ sv) →
      gatherUpTo L sv bigAcc smallAcc path = some bigAcc
  | _, [], _ => by rw [gatherUpTo]
  | smallAcc, (sv', some off) :: r, h => by
    rw [gatherUpTo, if_neg (h _ List.mem_cons_self)]
    exact gatherUpTo_of_not_mem sv bigAcc _ r fun e he => h e (List.mem_cons_of_mem _ he)
  | smallAcc, (sv', none) :: r, h => by
    rw [gatherUpTo, if_neg (h _ List.mem_cons_self)]
    exact gatherUpTo_of_not_mem sv bigAcc _ r fun e he => h e (List.mem_cons_of_mem _ he)

theorem hasCyclePath_of_not_mem {sv : SV} {path : Path L} (h : ∀ e ∈ path, e.1 ≠ sv) :
    hasCyclePath L sv path = .ok false := by
  rw [hasCyclePath, gatherOffsetsOnCycles, gatherUpTo_of_not_mem sv [] [] path h]
  rfl

section Acyclic

variable {init : Bool} {oid : OutputInputDeps L} {node : Node L}
  (hwf : WellFounded fun y x => ChildOf L init oid node x y)
include hwf

/-- A variable is none of its strict ancestors. -/
theorem ne_of_ancestors {x : SV} {parents : List (Path L)}
    (h : Ancestors L init oid node x parents) : ∀ p ∈ parents, ∀ e ∈ p, e.1 ≠ x := by
  intro p hp e he hx
  have hcyc := h p hp e he
  rw [hx] at hcyc
  -- a cycle through `x` is a cycle of the well-founded relation
  have hcyc' : Relation.TransGen (fun y x => ChildOf L init oid node x y) x x :=
    Relation.transGen_swap.2 hcyc
  exact hwf.transGen.asymmetric x x hcyc' hcyc'

/-- `has_cycle` finds no cycle through a variable whose parents are its strict ancestors. -/
theorem hasCycle_of_ancestors {x : SV} {parents : List (Path L)}
    (h : Ancestors L init oid node x parents) : hasCycle L x parents = .ok none := by
  have hne := ne_of_ancestors hwf h
  unfold hasCycle
  induction parents with
  | nil => rfl
  | cons p ps ih =>
    rw [List.findM?, hasCyclePath_of_not_mem (hne p List.mem_cons_self)]
    exact ih (fun q hq => h q (List.mem_cons_of_mem _ hq))
      (fun q hq => hne q (List.mem_cons_of_mem _ hq))

/-- `break_cycle` holds of a child exactly when the child has an entry: no path of parents holds
the variable itself. -/
theorem breakCycle_of_ancestors {x : SV} {parents : List (Path L)}
    (h : Ancestors L init oid node x parents) (accum : List (SV × Deps L)) (sv : SV) :
    breakCycle L accum parents x sv = accum.any fun e => decide (e.1 = sv) := by
  have hne := ne_of_ancestors hwf h
  have hpaths : (parents.any fun path => (path.any fun e => decide (e.1 = x)) &&
      path.any fun e => decide (e.1 = sv)) = false := by
    refine List.any_eq_false.2 fun p hp => ?_
    have hx : (p.any fun e => decide (e.1 = x)) = false :=
      List.any_eq_false.2 fun e he => by simpa using hne p hp e he
    rw [hx, Bool.false_and]
    exact Bool.false_ne_true
  rw [breakCycle, hpaths, Bool.or_false]

/-! ## Steps of the walk -/

variable {accum : List (SV × Deps L)} {x : SV} {ps : List (Path L)}
  {tl : List (SV × List (Path L))} {d : Deps L}

/-- A variable whose children all have entries gets its entry. -/
theorem depStep_finish (hps : Ancestors L init oid node x ps)
    (hd : childrenOfStateVar L init oid node x = .ok d)
    (hall : ∀ b ∈ d, b.1 ∈ accum.map Prod.fst) :
    depStep L init oid node ⟨accum, (x, ps) :: tl⟩ =
      .next ⟨(x, depsOfVisited L accum d) :: accum, tl⟩ := by
  have hvis : ∀ b ∈ d, breakCycle L accum ps x b.1 = true := fun b hb => by
    rw [breakCycle_of_ancestors hwf hps]
    simpa using hall b hb
  have hnot : (d.filter fun b => !breakCycle L accum ps x b.1) = [] :=
    List.filter_eq_nil_iff.2 fun b hb => by simp [hvis b hb]
  have hyes : (d.filter fun b => breakCycle L accum ps x b.1) = d := List.filter_eq_self.2 hvis
  simp only [depStep, hasCycle_of_ancestors hwf hps, hd, hnot, hyes, List.isEmpty_nil, if_true]
  rfl

/-- The children of a variable without an entry are pushed above it, each with the paths of its
parents extended by the variable. -/
theorem depStep_expand (hps : Ancestors L init oid node x ps)
    (hd : childrenOfStateVar L init oid node x = .ok d)
    (hsome : ∃ b ∈ d, b.1 ∉ accum.map Prod.fst) :
    depStep L init oid node ⟨accum, (x, ps) :: tl⟩ =
      .next ⟨accum, ((d.filter fun b => b.1 ∉ accum.map Prod.fst).map
        fun b => (b.1, addDepToParents L x b.2 ps)).reverse ++ (x, ps) :: tl⟩ := by
  have hfilter : (d.filter fun b => !breakCycle L accum ps x b.1) =
      d.filter fun b => b.1 ∉ accum.map Prod.fst := by
    refine List.filter_congr fun b _ => ?_
    rw [breakCycle_of_ancestors hwf hps, any_fst_eq, decide_not]
  have hne : (d.filter fun b => b.1 ∉ accum.map Prod.fst).isEmpty = false := by
    obtain ⟨b, hb, hnb⟩ := hsome
    exact List.isEmpty_eq_false_iff.2 (List.ne_nil_of_mem (List.mem_filter.2 ⟨hb, by simpa using hnb⟩))
  simp only [depStep, hasCycle_of_ancestors hwf hps, hd, hfilter, hne, Bool.false_eq_true,
    if_false, List.foldl_flip_cons_eq_append]

end Acyclic

/-! ## The paths of children -/

omit [LinearOrder SV] in
/-- What a fold that puts a list in front of the accumulator for each element holds. -/
theorem mem_foldl_prepend {β γ : Type} (g : β → List γ) (c : γ) :
    ∀ (l : List β) (acc : List γ), c ∈ l.foldl (fun acc i => g i ++ acc) acc ↔
      c ∈ acc ∨ ∃ i ∈ l, c ∈ g i
  | [], _ => by simp
  | i :: l, acc => by
    rw [List.foldl_cons, mem_foldl_prepend g c l, List.mem_append, List.exists_mem_cons_iff]
    tauto

omit [LinearOrder SV] in
/-- Each path that `add_dep_to_parents sv` gives a child is a path of the parents of `sv`, or the
empty path, extended by `sv`. -/
theorem mem_addDepToParents {sv : SV} {indgrps : List (List L.iexpr)} {parents : List (Path L)}
    {path : Path L} (h : path ∈ addDepToParents L sv indgrps parents) :
    ∃ o p, path = (sv, o) :: p ∧ (p ∈ parents ∨ p = []) := by
  have hext : ∀ o, path ∈ (if parents.isEmpty then [[(sv, o)]] else
      parents.map ((sv, o) :: ·)) → ∃ o p, path = (sv, o) :: p ∧ (p ∈ parents ∨ p = []) := by
    intro o ho
    split at ho
    · exact ⟨o, [], List.mem_singleton.1 ho, .inr rfl⟩
    · obtain ⟨p, hp, rfl⟩ := List.mem_map.1 ho
      exact ⟨o, p, rfl, .inl hp⟩
  unfold addDepToParents at h
  split at h
  · exact hext none h
  · simp only [List.reverseAux_eq] at h
    rcases (mem_foldl_prepend _ _ _ []).1 h with h | ⟨i, -, hi⟩
    · simp at h
    · exact hext (some i) (List.mem_reverse.1 hi)

/-- The paths of a child hold its strict ancestors. -/
theorem ancestors_addDepToParents {init : Bool} {oid : OutputInputDeps L} {node : Node L}
    {x c : SV} {parents : List (Path L)} (hx : Ancestors L init oid node x parents)
    (hc : ChildOf L init oid node x c) (indgrps : List (List L.iexpr)) :
    Ancestors L init oid node c (addDepToParents L x indgrps parents) := by
  intro path hpath e he
  obtain ⟨o, p, rfl, hp⟩ := mem_addDepToParents hpath
  rcases List.mem_cons.1 he with rfl | he
  · exact .single hc
  · rcases hp with hp | rfl
    · exact (hx p hp e he).tail hc
    · simp at he

/-! ## Finished entries -/

omit [LinearOrder SV] in
/-- `merge_deps` gives no binding exactly where neither map has one. -/
theorem mergeDeps_eq_none_iff {α : Type} (k : SV) (o₁ o₂ : Option (List α)) :
    mergeDeps k o₁ o₂ = none ↔ o₁ = none ∧ o₂ = none := by
  cases o₁ <;> cases o₂ <;> simp [mergeDeps]

/-- Merging child by child gives the variables of the start, of the children, and of what
`found` gives each child. -/
theorem mem_keys_foldl_merge (found : SV → Deps L) (y : SV) : ∀ (l a : Deps L),
    y ∈ (l.foldl (fun a b => OrdMap.merge mergeDeps (found b.1) (OrdMap.merge mergeDeps a [b]))
        a).map Prod.fst ↔
      y ∈ a.map Prod.fst ∨ ∃ b ∈ l, y = b.1 ∨ y ∈ (found b.1).map Prod.fst
  | [], a => by simp
  | b :: l, a => by
    rw [List.foldl_cons, mem_keys_foldl_merge found y l,
      OrdMap.mem_map_fst_merge _ _ _ mergeDeps_eq_none_iff,
      OrdMap.mem_map_fst_merge _ _ _ mergeDeps_eq_none_iff, List.exists_mem_cons_iff]
    simp only [List.map_cons, List.map_nil, List.mem_singleton, or_assoc, or_comm, or_left_comm]

/-- The entry of a variable whose children all have entries lists its children and the variables
their entries list. -/
theorem mem_keys_depsOfVisited (accum : List (SV × Deps L)) (children : Deps L) (y : SV) :
    y ∈ (depsOfVisited L accum children).map Prod.fst ↔ ∃ b ∈ children, y = b.1 ∨
      y ∈ ((accum.find? fun e => decide (e.1 = b.1)).elim [] Prod.snd).map Prod.fst := by
  rw [depsOfVisited, mem_keys_foldl_merge
    (fun v => (accum.find? fun e => decide (e.1 = v)).elim [] Prod.snd) y children []]
  simp

/-- `find` gives a variable with an entry its first entry. -/
theorem find?_entry {β : Type} {l : List (SV × β)} {v : SV} (h : v ∈ l.map Prod.fst) :
    ∃ e ∈ l, e.1 = v ∧ (l.find? fun e => decide (e.1 = v)) = some e := by
  cases hf : l.find? (fun e => decide (e.1 = v)) with
  | none =>
    obtain ⟨e, he, rfl⟩ := List.mem_map.1 h
    exact absurd (List.find?_eq_none.1 hf e he) (by simp)
  | some e => exact ⟨e, List.mem_of_find?_eq_some hf, by simpa using List.find?_some hf, rfl⟩

section Accum

variable {init : Bool} {oid : OutputInputDeps L} {node : Node L} {accum : List (SV × Deps L)}

theorem AccumOK.nil : AccumOK L init oid node [] :=
  ⟨trivial, fun _ h => absurd h List.not_mem_nil⟩

/-- Everything reached from a variable with an entry has an entry. -/
theorem AccumOK.mem_keys (hacc : AccumOK L init oid node accum) {x y : SV}
    (hx : x ∈ accum.map Prod.fst) (h : Relation.ReflTransGen (ChildOf L init oid node) x y) :
    y ∈ accum.map Prod.fst := by
  rcases Relation.reflTransGen_iff_eq_or_transGen.1 h with rfl | h
  · exact hx
  · obtain ⟨e, he, rfl⟩ := List.mem_map.1 hx
    obtain ⟨b, hb, rfl⟩ := List.mem_map.1 ((hacc.closure e he y).2 h)
    exact hacc.below.key_mem he hb

/-- The first entry of a variable with an entry lists what the variable depends on. -/
theorem AccumOK.found (hacc : AccumOK L init oid node accum) {v : SV}
    (hv : v ∈ accum.map Prod.fst) (y : SV) :
    y ∈ ((accum.find? fun e => decide (e.1 = v)).elim [] Prod.snd).map Prod.fst ↔
      Relation.TransGen (ChildOf L init oid node) v y := by
  obtain ⟨e, he, rfl, hf⟩ := find?_entry hv
  rw [hf]
  exact hacc.closure e he y

/-- The entries of a variable list the same variables, those it depends on. -/
theorem AccumOK.sameDeps (hacc : AccumOK L init oid node accum) : SameDeps accum := by
  intro e he e' he' hx b hb
  have hb' : b.1 ∈ e'.2.map Prod.fst :=
    (hacc.closure e' he' b.1).2 (hx ▸ (hacc.closure e he b.1).1 (List.mem_map_of_mem hb))
  exact List.mem_map.1 hb'

/-- On the finished entries, `DependsOn` is the transitive closure of the children relation. -/
theorem AccumOK.dependsOn (hacc : AccumOK L init oid node accum) {x y : SV}
    (hx : x ∈ accum.map Prod.fst) (h : Relation.TransGen (ChildOf L init oid node) x y) :
    DependsOn accum x y := by
  obtain ⟨e, he, rfl⟩ := List.mem_map.1 hx
  exact ⟨e.2, he, List.mem_map.1 ((hacc.closure e he y).2 h)⟩

/-- Finishing a variable whose children all have entries keeps the finished entries as they should
be: the new entry lists the children and what their entries list, which is everything the
variable depends on. -/
theorem AccumOK.cons (hacc : AccumOK L init oid node accum) {x : SV} {d : Deps L}
    (hd : childrenOfStateVar L init oid node x = .ok d)
    (hall : ∀ b ∈ d, b.1 ∈ accum.map Prod.fst) :
    AccumOK L init oid node ((x, depsOfVisited L accum d) :: accum) := by
  have hchild : ∀ y, ChildOf L init oid node x y ↔ ∃ b ∈ d, b.1 = y := by
    intro y
    constructor
    · rintro ⟨d', hd', hy⟩
      rw [hd] at hd'
      cases hd'
      exact List.mem_map.1 hy
    · rintro ⟨b, hb, rfl⟩
      exact ⟨d, hd, List.mem_map_of_mem hb⟩
  have hkeys : ∀ y, y ∈ (depsOfVisited L accum d).map Prod.fst ↔
      Relation.TransGen (ChildOf L init oid node) x y := by
    intro y
    rw [mem_keys_depsOfVisited, Relation.TransGen.head'_iff]
    constructor
    · rintro ⟨b, hb, rfl | hy⟩
      · exact ⟨b.1, (hchild _).2 ⟨b, hb, rfl⟩, .refl⟩
      · exact ⟨b.1, (hchild _).2 ⟨b, hb, rfl⟩, ((hacc.found (hall b hb) y).1 hy).to_reflTransGen⟩
    · rintro ⟨c, hc, hcy⟩
      obtain ⟨b, hb, rfl⟩ := (hchild c).1 hc
      rcases Relation.reflTransGen_iff_eq_or_transGen.1 hcy with rfl | hcy
      · exact ⟨b, hb, .inl rfl⟩
      · exact ⟨b, hb, .inr ((hacc.found (hall b hb) y).2 hcy)⟩
  refine ⟨⟨fun b hb => ?_, hacc.below⟩, fun e he => ?_⟩
  · -- what the new entry lists is reached from a child, which has an entry
    obtain ⟨c, hc, hcb⟩ := Relation.TransGen.head'_iff.1 ((hkeys b.1).1 (List.mem_map_of_mem hb))
    obtain ⟨b', hb', rfl⟩ := (hchild c).1 hc
    exact List.mem_map.1 (hacc.mem_keys (hall b' hb') hcb)
  · rcases List.mem_cons.1 he with rfl | he
    · exact hkeys
    · exact hacc.closure e he

end Accum

/-! ## Runs of the walk -/

section Walk

variable {init : Bool} {oid : OutputInputDeps L} {node : Node L}

theorem Finishes.nil : Finishes L init oid node [] :=
  fun _ _ hacc => ⟨[], .refl _, hacc, by simp, by simp⟩

/-- Working off a list is working off its head, then its tail. -/
theorem Finishes.cons {w : SV × List (Path L)} {work : List (SV × List (Path L))}
    (h : Finishes L init oid node [w]) (h' : Finishes L init oid node work) :
    Finishes L init oid node (w :: work) := by
  intro accum tl hacc
  obtain ⟨new₁, hr₁, hacc₁, hmem₁, hdep₁⟩ := h accum (work ++ tl) hacc
  obtain ⟨new₂, hr₂, hacc₂, hmem₂, hdep₂⟩ := h' (new₁ ++ accum) tl hacc₁
  refine ⟨new₂ ++ new₁, ?_, ?_, fun v hv => ?_, fun e he => ?_⟩
  · rw [List.append_assoc]
    exact hr₁.trans hr₂
  · rwa [List.append_assoc]
  · rw [List.append_assoc]
    rcases List.mem_cons.1 hv with rfl | hv
    · rw [List.map_append]
      exact List.mem_append_right _ (hmem₁ v List.mem_cons_self)
    · exact hmem₂ v hv
  · rcases List.mem_append.1 he with he | he
    · obtain ⟨v, hv, hr⟩ := hdep₂ e he
      exact ⟨v, List.mem_cons_of_mem _ hv, hr⟩
    · obtain ⟨v, hv, hr⟩ := hdep₁ e he
      exact ⟨v, List.mem_cons.2 (.inl (List.mem_singleton.1 hv)), hr⟩

theorem finishes_of_forall : ∀ {work : List (SV × List (Path L))},
    (∀ w ∈ work, Finishes L init oid node [w]) → Finishes L init oid node work
  | [], _ => Finishes.nil
  | w :: _, h =>
    (h w List.mem_cons_self).cons (finishes_of_forall fun v hv => h v (List.mem_cons_of_mem _ hv))

/-- A variable without parents has no ancestors to check. -/
theorem ancestors_of_eq_nil {x : SV} {ps : List (Path L)} (h : ps = []) :
    Ancestors L init oid node x ps :=
  fun _ hp => absurd (h ▸ hp) List.not_mem_nil

variable (hok : ∀ x, ∃ d, childrenOfStateVar L init oid node x = .ok d)
  (hwf : WellFounded fun y x => ChildOf L init oid node x y)
include hok hwf

/-- Visiting a variable whose paths hold its strict ancestors finishes it and everything it
depends on. By well-founded induction on the variable: the children without an entry are pushed
and finished by the induction hypothesis, and the variable, visited again with every child
finished, gets its entry. -/
theorem finishes_single (x : SV) :
    ∀ ps, Ancestors L init oid node x ps → Finishes L init oid node [(x, ps)] := by
  induction x using hwf.induction with
  | h x ih =>
  intro ps hps accum tl hacc
  obtain ⟨d, hd⟩ := hok x
  have hchild : ∀ b ∈ d, ChildOf L init oid node x b.1 := fun b hb =>
    ⟨d, hd, List.mem_map_of_mem hb⟩
  by_cases hall : ∀ b ∈ d, b.1 ∈ accum.map Prod.fst
  · refine ⟨[(x, depsOfVisited L accum d)], .single (depStep_finish hwf hps hd hall),
      hacc.cons hd hall, by simp, fun e he => ?_⟩
    rw [List.mem_singleton.1 he]
    exact ⟨(x, ps), List.mem_singleton_self _, .refl⟩
  · simp only [not_forall, exists_prop] at hall
    set pushed := ((d.filter fun b => b.1 ∉ accum.map Prod.fst).map
      fun b => (b.1, addDepToParents L x b.2 ps)).reverse with hpushed
    have hmem_pushed : ∀ w ∈ pushed, ∃ b, (b ∈ d ∧ b.1 ∉ accum.map Prod.fst) ∧
        (b.1, addDepToParents L x b.2 ps) = w := by
      intro w hw
      simpa [pushed] using hw
    have hfin : Finishes L init oid node pushed := finishes_of_forall fun w hw => by
      obtain ⟨b, ⟨hb, -⟩, rfl⟩ := hmem_pushed w hw
      exact ih b.1 (hchild b hb) _ (ancestors_addDepToParents hps (hchild b hb) b.2)
    obtain ⟨new, hr, hacc', hmem, hdep⟩ := hfin accum ((x, ps) :: tl) hacc
    -- every child now has an entry: it had one, or it was pushed
    have hall' : ∀ b ∈ d, b.1 ∈ (new ++ accum).map Prod.fst := by
      intro b hb
      by_cases hb' : b.1 ∈ accum.map Prod.fst
      · rw [List.map_append]
        exact List.mem_append_right _ hb'
      · exact hmem (b.1, addDepToParents L x b.2 ps)
          (List.mem_reverse.2 (List.mem_map.2 ⟨b, List.mem_filter.2 ⟨hb, by simpa using hb'⟩, rfl⟩))
    refine ⟨(x, depsOfVisited L (new ++ accum) d) :: new,
      .head (depStep_expand hwf hps hd hall) (hr.trans (.single (depStep_finish hwf hps hd hall'))),
      hacc'.cons hd hall', by simp, fun e he => ⟨(x, ps), List.mem_singleton_self _, ?_⟩⟩
    rcases List.mem_cons.1 he with rfl | he
    · exact .refl
    · obtain ⟨w, hw, hwe⟩ := hdep e he
      obtain ⟨b, ⟨hb, -⟩, rfl⟩ := hmem_pushed w hw
      exact .head (hchild b hb) hwe

/-- From no finished entries, `node_state_var_dependencies'` works off a work list whose paths hold
strict ancestors: it returns finished entries, of exactly the variables reached from the work
list. -/
theorem nodeStateVarDependencies'_spec (work : List (SV × List (Path L)))
    (hwork : ∀ w ∈ work, Ancestors L init oid node w.1 w.2) :
    ∃ deps, AccumOK L init oid node deps ∧
      (∀ y, y ∈ deps.map Prod.fst ↔
        ∃ w ∈ work, Relation.ReflTransGen (ChildOf L init oid node) w.1 y) ∧
      ∃ n, ∀ fuel, n ≤ fuel → nodeStateVarDependencies' L fuel init oid node [] work = .ok deps := by
  have hfin : Finishes L init oid node work :=
    finishes_of_forall fun w hw => finishes_single hok hwf w.1 w.2 (hwork w hw)
  obtain ⟨deps, hr, hacc, hmem, hdep⟩ := hfin [] [] AccumOK.nil
  simp only [List.append_nil] at hr hacc hmem
  -- the work list is empty: the walk halts with the finished entries
  obtain ⟨n, hn⟩ := Machine.run_of_reaches_halt hr rfl
  refine ⟨deps, hacc, fun y => ⟨fun hy => ?_, fun ⟨w, hw, hwy⟩ => hacc.mem_keys (hmem w hw) hwy⟩,
    n, fun fuel hfuel => ?_⟩
  · obtain ⟨e, he, rfl⟩ := List.mem_map.1 hy
    exact hdep e he
  · rw [nodeStateVarDependencies', hn fuel hfuel]
    rfl

end Walk

/-! ## The stages of `order_equations` -/

omit [LinearOrder SV] in
/-- The variables `order_equations` starts the walk from: those of the equations, of the outputs
and of the outputs of the node calls, each without parents. -/
theorem mem_definedStateVars {node : Node L} {w : SV × List (Path L)} :
    w ∈ definedStateVars L node ↔ w.2 = [] ∧ (w.1 ∈ node.equations.map (·.1.1) ∨
      w.1 ∈ node.outputs.map Prod.snd ∨ ∃ c ∈ node.calls, w.1 ∈ c.callOutputs.map Prod.snd) := by
  obtain ⟨v, ps⟩ := w
  simp only [definedStateVars, List.foldl_flip_cons_eq_append]
  rw [mem_foldl_prepend]
  simp only [List.mem_append, List.mem_reverse, List.mem_map, Prod.mk.injEq]
  constructor
  · rintro ((⟨o, ho, rfl, rfl⟩ | ⟨e, he, rfl, rfl⟩) | ⟨c, hc, o, ho, rfl, rfl⟩)
    · exact ⟨rfl, .inr (.inl ⟨o, ho, rfl⟩)⟩
    · exact ⟨rfl, .inl ⟨e, he, rfl⟩⟩
    · exact ⟨rfl, .inr (.inr ⟨c, hc, o, ho, rfl⟩)⟩
  · rintro ⟨rfl, ⟨e, he, rfl⟩ | ⟨o, ho, rfl⟩ | ⟨c, hc, o, ho, rfl⟩⟩
    · exact .inl (.inr ⟨e, he, rfl, rfl⟩)
    · exact .inl (.inl ⟨o, ho, rfl, rfl⟩)
    · exact .inr ⟨c, hc, o, ho, rfl, rfl⟩

/-- With distinct input variables, a variable is the variable of at most one input. -/
theorem length_filter_inputs_le {inputs : List (L.index × SV)} (hin : (inputs.map Prod.snd).Nodup)
    (v : SV) : (inputs.filter fun i => decide (i.2 = v)).length ≤ 1 := by
  have hnd : ((inputs.filter fun i => decide (i.2 = v)).map Prod.snd).Nodup :=
    hin.sublist (List.filter_sublist.map _)
  have hrep : (inputs.filter fun i => decide (i.2 = v)).map Prod.snd =
      List.replicate (inputs.filter fun i => decide (i.2 = v)).length v := by
    rw [List.eq_replicate_iff]
    simp
  rw [hrep, List.nodup_replicate] at hnd
  exact hnd

/-- `output_input_dep_of_dependencies` on distinct input variables and outputs with entries: each
output with the indexes of the inputs whose variables its first entry lists. -/
theorem outputInputDepOfDependencies_spec {deps : List (SV × Deps L)}
    {inputs outputs : List (L.index × SV)} (hin : (inputs.map Prod.snd).Nodup)
    (hout : ∀ o ∈ outputs, o.2 ∈ deps.map Prod.fst) :
    ∃ oi, outputInputDepOfDependencies L deps inputs outputs = .ok oi ∧
      List.Forall₂ (fun o r => r.1 = o.1 ∧ ∃ e ∈ deps, e.1 = o.2 ∧
        ∀ i, i ∈ r.2 ↔ ∃ inp ∈ inputs, inp.1 = i ∧ inp.2 ∈ e.2.map Prod.fst) outputs oi := by
  refine OrdMap.mapM_except_forall₂ fun o ho => ?_
  obtain ⟨e, he, hkey, hf⟩ := find?_entry (hout o ho)
  refine ⟨(o.1, e.2.reverse.flatMap fun d =>
    (inputs.filter fun i => decide (i.2 = d.1)).map Prod.fst), ?_, rfl, e, he, hkey, fun i => ?_⟩
  · -- each dependency adds the index of the one input of its variable, if there is one
    simp only [hf, pure_bind]
    rw [OrdMap.foldlM_except_prepend _ (fun a d _ => ?_) [], List.append_nil]
    · rfl
    have hl := length_filter_inputs_le hin d.1
    cases hfl : inputs.filter (fun i => decide (i.2 = d.1)) with
    | nil => rfl
    | cons j r =>
      cases r with
      | nil => rfl
      | cons _ _ => simp [hfl] at hl
  · simp only [List.mem_flatMap, List.mem_reverse, List.mem_map, List.mem_filter, decide_eq_true_eq]
    constructor
    · rintro ⟨d, hd, inp, ⟨hinp, hv⟩, rfl⟩
      exact ⟨inp, hinp, rfl, d, hd, hv.symm⟩
    · rintro ⟨inp, hinp, rfl, d, hd, hv⟩
      exact ⟨d, hd, inp, ⟨hinp, hv.symm⟩, rfl⟩

section Pipeline

variable {init : Bool} {oid : OutputInputDeps L} {node : Node L}
  (hok : ∀ x, ∃ d, childrenOfStateVar L init oid node x = .ok d)
  (hwf : WellFounded fun y x => ChildOf L init oid node x y)
  (hin : (node.inputs.map Prod.snd).Nodup)
include hok hwf hin

/-- The three stages of `order_equations` on a node whose children are computed and have no cycle,
with distinct input variables: the dependencies of the variables defined in the node are finished
entries, `order_state_vars` sorts their variables, and every output gets its inputs. -/
theorem orderEquations_spec :
    ∃ deps out oi, AccumOK L init oid node deps ∧ DepOrdered (DependsOn deps) out ∧
      (∀ x, x ∈ out ↔ x ∈ deps.map Prod.fst) ∧
      (∀ w ∈ definedStateVars L node, w.1 ∈ deps.map Prod.fst) ∧
      List.Forall₂ (fun o r => r.1 = o.1 ∧ ∃ e ∈ deps, e.1 = o.2 ∧
        ∀ i, i ∈ r.2 ↔ ∃ inp ∈ node.inputs, inp.1 = i ∧ inp.2 ∈ e.2.map Prod.fst) node.outputs oi ∧
      ∃ n, ∀ fuel, n ≤ fuel →
        orderEquations L fuel init oid node = .ok (collectEquations L out node.equations, oi) := by
  obtain ⟨deps, hacc, hkeys, n₁, hn₁⟩ := nodeStateVarDependencies'_spec hok hwf
    (definedStateVars L node) fun w hw => ancestors_of_eq_nil (mem_definedStateVars.1 hw).1
  have hdef : ∀ w ∈ definedStateVars L node, w.1 ∈ deps.map Prod.fst :=
    fun w hw => (hkeys w.1).2 ⟨w, hw, .refl⟩
  obtain ⟨out, hord, hout, n₂, hn₂⟩ := orderStateVars_spec hacc.below hacc.sameDeps
  obtain ⟨oi, hoi, hR⟩ := outputInputDepOfDependencies_spec hin fun o ho =>
    hdef (o.2, []) (mem_definedStateVars.2 ⟨rfl, .inr (.inl (List.mem_map_of_mem ho))⟩)
  refine ⟨deps, out, oi, hacc, hord, hout, hdef, hR, max n₁ n₂, fun fuel hfuel => ?_⟩
  simp only [orderEquations, hn₁ fuel (le_of_max_le_left hfuel), bind, Except.bind,
    hn₂ fuel (le_of_max_le_right hfuel), hoi]
  rfl

end Pipeline

/-! ## Dependency order of a node -/

/-- A language whose expressions are the state variables they read, without arrays. -/
def readsLang : Lang Nat where
  expr := List Nat
  iexpr := Unit
  term := Unit
  index := Nat
  ident := Unit
  decEqIndex := inferInstance
  decEqIdent := inferInstance
  baseStateVarsOfInitExpr := id
  curStateVarsOfStepExpr := id
  indexesOfStateVarsInInit := fun _ _ => []
  indexesOfStateVarsInStep := fun _ _ => []
  stateVarsOfIexpr := fun _ => []
  offsetOfIndex := fun _ => ()
  simplifyPlus := fun _ => ()
  sumOffsetsNegative := fun _ => false

/-- A node with the input `0`, the local `1 = f 0` and the output `2 = g 1 0`, its equations given
output first. -/
def chainNode : Node readsLang where
  inputs := [((0 : Nat), 0)]
  outputs := [((0 : Nat), 2)]
  equations := [((2, []), ([1, 0] : List Nat)), ((1, []), ([0] : List Nat))]
  calls := []

theorem chainNode_ok (x : Nat) : ∃ d, childrenOfStateVar readsLang false [] chainNode x = .ok d :=
  ⟨_, rfl⟩

/-- Each variable of `chainNode` reads smaller ones only. -/
theorem chainNode_childOf_lt {x y : Nat} (h : ChildOf readsLang false [] chainNode x y) : y < x := by
  obtain ⟨d, hd, hy⟩ := h
  have hd' : childrenOfStateVar readsLang false [] chainNode x =
      .ok (equationChildren readsLang false x chainNode.equations) := rfl
  rw [hd'] at hd
  cases hd
  -- the variables with an equation read smaller ones; the others have no children
  rcases x with _ | _ | _ | x
  · have h0 : equationChildren readsLang false 0 chainNode.equations = [] := by decide
    simp [h0] at hy
  · have h1 : equationChildren readsLang false 1 chainNode.equations = [(0, [])] := rfl
    simp [h1] at hy
    omega
  · have h2 : equationChildren readsLang false 2 chainNode.equations = [(0, []), (1, [])] := rfl
    simp [h2] at hy
    omega
  · have hnone : (chainNode.equations.filter fun e => decide (e.1.1 = x + 3)) = [] := by
      simp [chainNode]
    simp [equationChildren, hnone] at hy

theorem chainNode_wf : WellFounded fun y x => ChildOf readsLang false [] chainNode x y :=
  Subrelation.wf (fun h => chainNode_childOf_lt h) wellFounded_lt

section Order

variable {init : Bool} {oid : OutputInputDeps L} {node : Node L}

/-- Dependencies of state variables: on a node whose children are computed and have no cycle,
`node_state_var_dependencies'` ends on every work list without parents. Its entries are those of
the variables reached from the work list, each listing exactly what its variable depends on,
transitively, and they form a dependency list as `order_state_vars` needs it. -/
theorem nodeStateVarDependencies'_transitive
    (hok : ∀ x, ∃ d, childrenOfStateVar L init oid node x = .ok d)
    (hwf : WellFounded fun y x => ChildOf L init oid node x y)
    (work : List (SV × List (Path L))) (hwork : ∀ w ∈ work, w.2 = []) :
    ∃ deps, (∃ n, ∀ fuel, n ≤ fuel →
        nodeStateVarDependencies' L fuel init oid node [] work = .ok deps) ∧
      DepsBelow deps ∧ SameDeps deps ∧
      (∀ y, y ∈ deps.map Prod.fst ↔
        ∃ w ∈ work, Relation.ReflTransGen (ChildOf L init oid node) w.1 y) ∧
      ∀ e ∈ deps, ∀ y, y ∈ e.2.map Prod.fst ↔ Relation.TransGen (ChildOf L init oid node) e.1 y := by
  obtain ⟨deps, hacc, hkeys, hrun⟩ :=
    nodeStateVarDependencies'_spec hok hwf work fun w hw => ancestors_of_eq_nil (hwork w hw)
  exact ⟨deps, hrun, hacc.below, hacc.sameDeps, hkeys, hacc.closure⟩

/-- The dependencies of the variables `chainNode` defines, from the start `order_equations` gives
the walk. -/
theorem nodeStateVarDependencies'_transitive_chainNode :
    (∀ x, ∃ d, childrenOfStateVar readsLang false [] chainNode x = .ok d) ∧
      (WellFounded fun y x => ChildOf readsLang false [] chainNode x y) ∧
      (∀ w ∈ definedStateVars readsLang chainNode, w.2 = []) ∧
      ∃ deps, (∃ n, ∀ fuel, n ≤ fuel → nodeStateVarDependencies' readsLang fuel false [] chainNode
          [] (definedStateVars readsLang chainNode) = .ok deps) ∧ DepsBelow deps ∧ SameDeps deps := by
  have hwork : ∀ w ∈ definedStateVars readsLang chainNode, w.2 = [] :=
    fun w hw => (mem_definedStateVars.1 hw).1
  obtain ⟨deps, hrun, hbelow, hsame, -⟩ :=
    nodeStateVarDependencies'_transitive chainNode_ok chainNode_wf _ hwork
  exact ⟨chainNode_ok, chainNode_wf, hwork, deps, hrun, hbelow, hsame⟩

/-- Equation order: on a node whose children are computed and have no cycle, with distinct input
variables, `order_equations` ends. It returns the equations of the node, each once, and every
equation comes after the equations of the variables its own variable depends on. -/
theorem orderEquations_topological
    (hok : ∀ x, ∃ d, childrenOfStateVar L init oid node x = .ok d)
    (hwf : WellFounded fun y x => ChildOf L init oid node x y)
    (hin : (node.inputs.map Prod.snd).Nodup) :
    ∃ equations oi, (∃ n, ∀ fuel, n ≤ fuel →
        orderEquations L fuel init oid node = .ok (equations, oi)) ∧
      equations.Perm node.equations ∧
      ∀ r₁ e r₂, equations = r₁ ++ e :: r₂ → ∀ e' ∈ node.equations,
        Relation.TransGen (ChildOf L init oid node) e.1.1 e'.1.1 → e' ∈ r₁ := by
  obtain ⟨deps, out, oi, hacc, hord, hout, hdef, -, hrun⟩ := orderEquations_spec hok hwf hin
  -- on the sorted variables, depending on through the entries is depending on through the children
  have hord' : DepOrdered (Relation.TransGen (ChildOf L init oid node)) out :=
    hord.mono fun x hx _ hxy => hacc.dependsOn ((hout x).1 hx) hxy
  have heqs : ∀ e ∈ node.equations, e.1.1 ∈ out := fun e he =>
    (hout _).2 (hdef (e.1.1, []) (mem_definedStateVars.2 ⟨rfl, .inl (List.mem_map_of_mem he)⟩))
  exact ⟨_, oi, hrun, collectEquations_spec hord' node.equations heqs⟩

/-- `order_equations` returns the two equations of `chainNode`. -/
theorem orderEquations_topological_chainNode :
    (∀ x, ∃ d, childrenOfStateVar readsLang false [] chainNode x = .ok d) ∧
      (WellFounded fun y x => ChildOf readsLang false [] chainNode x y) ∧
      (chainNode.inputs.map Prod.snd).Nodup ∧
      ∃ equations oi, (∃ n, ∀ fuel, n ≤ fuel →
          orderEquations readsLang fuel false [] chainNode = .ok (equations, oi)) ∧
        equations.Perm chainNode.equations := by
  have hin : (chainNode.inputs.map Prod.snd).Nodup := by decide
  obtain ⟨equations, oi, hrun, hperm, -⟩ :=
    orderEquations_topological chainNode_ok chainNode_wf hin
  exact ⟨chainNode_ok, chainNode_wf, hin, equations, oi, hrun, hperm⟩

/-- Output dependencies: on such a node, `order_equations` maps every output to the indexes of
exactly the inputs it depends on at the current instant, transitively. -/
theorem orderEquations_outputInputDep
    (hok : ∀ x, ∃ d, childrenOfStateVar L init oid node x = .ok d)
    (hwf : WellFounded fun y x => ChildOf L init oid node x y)
    (hin : (node.inputs.map Prod.snd).Nodup) :
    ∃ equations oi, (∃ n, ∀ fuel, n ≤ fuel →
        orderEquations L fuel init oid node = .ok (equations, oi)) ∧
      List.Forall₂ (fun o r => r.1 = o.1 ∧ ∀ i, i ∈ r.2 ↔
        ∃ inp ∈ node.inputs, inp.1 = i ∧ Relation.TransGen (ChildOf L init oid node) o.2 inp.2)
        node.outputs oi := by
  obtain ⟨deps, out, oi, hacc, -, -, -, hR, hrun⟩ := orderEquations_spec hok hwf hin
  refine ⟨_, oi, hrun, hR.imp fun o r h => ?_⟩
  obtain ⟨h₁, e, he, hkey, hi⟩ := h
  refine ⟨h₁, fun i => ?_⟩
  rw [hi, ← hkey]
  simp only [hacc.closure e he]

/-- `order_equations` maps the output of `chainNode` to its input, which the output reads through
the local. -/
theorem orderEquations_outputInputDep_chainNode :
    (∀ x, ∃ d, childrenOfStateVar readsLang false [] chainNode x = .ok d) ∧
      (WellFounded fun y x => ChildOf readsLang false [] chainNode x y) ∧
      (chainNode.inputs.map Prod.snd).Nodup ∧
      ∃ equations oi, (∃ n, ∀ fuel, n ≤ fuel →
          orderEquations readsLang fuel false [] chainNode = .ok (equations, oi)) ∧
        ∃ r ∈ oi, r.1 = (0 : Nat) ∧ (0 : Nat) ∈ r.2 := by
  have hin : (chainNode.inputs.map Prod.snd).Nodup := by decide
  obtain ⟨equations, oi, hrun, hR⟩ := orderEquations_outputInputDep chainNode_ok chainNode_wf hin
  obtain ⟨r, _, ⟨hr, hi⟩, -, rfl⟩ := List.forall₂_cons_left_iff.1 hR
  have hchild : ChildOf readsLang false [] chainNode 2 0 := ⟨[(0, []), (1, [])], rfl, by simp⟩
  exact ⟨chainNode_ok, chainNode_wf, hin, equations, _, hrun, r, List.mem_cons_self, hr,
    (hi (0 : Nat)).2 ⟨((0 : Nat), 0), List.mem_cons_self, rfl, .single hchild⟩⟩

end Order

end Slicing
end Kind2
