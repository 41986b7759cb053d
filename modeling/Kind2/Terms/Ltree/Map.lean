import Kind2.Terms.Ltree

/-!
# The map over terms, and let bindings of free variables

`map f t` (`src/terms/ltree.ml:839`) rebuilds a term bottom-up, right to left, with an explicit
machine of two stacks: the instructions (subterms to visit, and the nodes to rebuild from the
values of their subterms, each with the number of binders above it) and the results (a list of
values for each node under construction). At each node `f` gets that number of binders and the
rebuilt node, and may raise an exception, which ends the map. `mapStep` is the loop body and
`Machine.run` iterates it with fuel; `mapRecM` says what the machine computes, by recursion on
the term, and `map_eq_mapRecM` proves that it does. `mapRec` is the same for a function that
raises nothing.

`bind dbm t` maps the free variables of `dbm` to bound variables: the variable with relative
index `dbt` under `db` binders becomes the bound variable `db + 1 + dbt`. `mk_lambda x t` binds
the variables `x` in `t`, the last one with index 1, and `mk_let b t` binds them to the terms
of `b`. The variables of the source are hash-consed and `List.assq` compares them physically,
which is equality here.

`mkLet_substFree` says what a let binding made by `mk_let` means under the index convention of
`unlet` (that of `eval_t`, `Ltree.evalT_eq_foldFlat_unlet`): the simultaneous substitution of
the definitions for the variables.
-/

namespace Kind2
namespace Ltree

variable {T : BaseTypes}

/-! ## The machine -/

/-- The instructions of `map` (`mapstack`). -/
inductive Mapstack (T : BaseTypes) where
  | mTree (t : Term T)
  | mNode (s : T.symbol)
  | mLet (x : List T.sort)
  | mExists (x : List T.sort)
  | mForall (x : List T.sort)
  | mAnnot (a : T.attr)

/-- The local `push` of `map`: the subterms go onto the instruction stack in reverse order. -/
def mapPush (db : Int) : List (Term T) → List (Int × Mapstack T) → List (Int × Mapstack T)
  | [], st => st
  | h :: t, st => mapPush db t ((db, .mTree h) :: st)

/-- The two stacks of `map`: results and instructions. -/
structure MapState (T : BaseTypes) where
  accum : List (List (Term T))
  stack : List (Int × Mapstack T)

/-- The recursive call `map f ((f db n :: h) :: d) s` of the local `map`: the result of `f` goes
onto the results of the node above, or the exception that `f` raises ends the map. -/
def mapApply (f : Int → Term T → Except Exn (Term T)) (db : Int) (n : Term T)
    (h : List (Term T)) (d : List (List (Term T))) (s : List (Int × Mapstack T)) :
    Machine.Step (MapState T) (Term T) Exn :=
  match f db n with
  | .ok r => .next ⟨(r :: h) :: d, s⟩
  | .error e => .fail e

/-- One iteration of the local `map f accum stack` of `map`: its recursive call becomes `.next`,
its result `.halt`, its `assert false` and the exceptions of `f` `.fail`. -/
def mapStep (f : Int → Term T → Except Exn (Term T)) :
    MapState T → Machine.Step (MapState T) (Term T) Exn
  | ⟨accum, []⟩ =>
    match accum with
    | [[n]] => .halt n
    | _ => .fail .assertFailure
  | ⟨accum, (db, .mTree n@(.freeVar _)) :: s⟩
  | ⟨accum, (db, .mTree n@(.boundVar _)) :: s⟩
  | ⟨accum, (db, .mTree n@(.leaf _)) :: s⟩ =>
    match accum with
    | h :: tl => mapApply f db n h tl s
    | _ => .fail .assertFailure
  | ⟨accum, (db, .mTree (.node o a)) :: s⟩ =>
    .next ⟨[] :: accum, mapPush db a ((db, .mNode o) :: s)⟩
  | ⟨accum, (db, .mTree (.annot t a)) :: s⟩ =>
    .next ⟨[] :: accum, (db, .mTree t) :: (db, .mAnnot a) :: s⟩
  | ⟨accum, (db, .mTree (.letE x t b)) :: s⟩ =>
    -- the definitions are visited under the binders of the let, its body under one more each
    .next ⟨[] :: accum, mapPush db b ((db + x.length, .mTree t) :: (db, .mLet x) :: s)⟩
  | ⟨accum, (db, .mTree (.existsE x t)) :: s⟩ =>
    .next ⟨[] :: accum, (db + x.length, .mTree t) :: (db, .mExists x) :: s⟩
  | ⟨accum, (db, .mTree (.forallE x t)) :: s⟩ =>
    .next ⟨[] :: accum, (db + x.length, .mTree t) :: (db, .mForall x) :: s⟩
  | ⟨accum, (db, .mNode op) :: s⟩ =>
    match accum with
    | h :: h' :: d => mapApply f db (.node op h) h' d s
    | _ => .fail .assertFailure
  | ⟨accum, (db, .mAnnot a) :: s⟩ =>
    match accum with
    | [h] :: h' :: d => mapApply f db (.annot h a) h' d s
    | _ => .fail .assertFailure
  | ⟨accum, (db, .mLet x) :: s⟩ =>
    match accum with
    | (t :: b) :: h' :: d => mapApply f db (.letE x t b) h' d s
    | _ => .fail .assertFailure
  | ⟨accum, (db, .mExists x) :: s⟩ =>
    match accum with
    | [t] :: h' :: d => mapApply f db (.existsE x t) h' d s
    | _ => .fail .assertFailure
  | ⟨accum, (db, .mForall x) :: s⟩ =>
    match accum with
    | [t] :: h' :: d => mapApply f db (.forallE x t) h' d s
    | _ => .fail .assertFailure

/-- `map f term`, run for at most `fuel` iterations; `none` when the fuel runs out. -/
def map (fuel : Nat) (f : Int → Term T → Except Exn (Term T)) (term : Term T) :
    Option (Except Exn (Term T)) :=
  Machine.run (mapStep f) fuel ⟨[[]], [(0, .mTree term)]⟩

mutual
/-- What `map f` computes under `db` binders: the term rebuilt bottom-up, with `f` applied at
each node to the number of binders above it and the node with its rebuilt subterms. The
subterms are rebuilt last to first, as the machine visits them, so that the exception raised is
the machine's. -/
def mapRecM (f : Int → Term T → Except Exn (Term T)) (db : Int) :
    Term T → Except Exn (Term T)
  | .node o a => do f db (.node o (← mapRecMList f db a))
  | .annot t a => do f db (.annot (← mapRecM f db t) a)
  | .letE x t b => do
    let b' ← mapRecMList f db b
    let t' ← mapRecM f (db + x.length) t
    f db (.letE x t' b')
  | .existsE x t => do f db (.existsE x (← mapRecM f (db + x.length) t))
  | .forallE x t => do f db (.forallE x (← mapRecM f (db + x.length) t))
  | t => f db t

/-- `mapRecM` over a list of subterms, last to first. -/
def mapRecMList (f : Int → Term T → Except Exn (Term T)) (db : Int) :
    List (Term T) → Except Exn (List (Term T))
  | [] => .ok []
  | t :: ts => do
    let ts' ← mapRecMList f db ts
    let t' ← mapRecM f db t
    pure (t' :: ts')
end

section
variable (f : Int → Term T → Except Exn (Term T)) (db : Int)

@[simp] theorem mapRecM_freeVar (v : T.var) : mapRecM f db (.freeVar v) = f db (.freeVar v) := by
  simp [mapRecM]

@[simp] theorem mapRecM_boundVar (i : Int) : mapRecM f db (.boundVar i) = f db (.boundVar i) := by
  simp [mapRecM]

@[simp] theorem mapRecM_leaf (c : T.symbol) : mapRecM f db (.leaf c) = f db (.leaf c) := by
  simp [mapRecM]

end

/-- What `map` computes with a function that raises no exception. -/
def mapRec (f : Int → Term T → Term T) (db : Int) : Term T → Term T
  | .node o a => f db (.node o (a.map (mapRec f db)))
  | .annot t a => f db (.annot (mapRec f db t) a)
  | .letE x t b => f db (.letE x (mapRec f (db + x.length) t) (b.map (mapRec f db)))
  | .existsE x t => f db (.existsE x (mapRec f (db + x.length) t))
  | .forallE x t => f db (.forallE x (mapRec f (db + x.length) t))
  | t => f db t

section
variable (f : Int → Term T → Term T) (db : Int)

@[simp] theorem mapRec_freeVar (v : T.var) : mapRec f db (.freeVar v) = f db (.freeVar v) := by
  simp [mapRec]

@[simp] theorem mapRec_boundVar (i : Int) : mapRec f db (.boundVar i) = f db (.boundVar i) := by
  simp [mapRec]

@[simp] theorem mapRec_leaf (c : T.symbol) : mapRec f db (.leaf c) = f db (.leaf c) := by
  simp [mapRec]

end

section
variable (f : Int → Term T → Term T)

mutual
/-- With a function that raises no exception, `mapRecM` is `mapRec`. -/
theorem mapRecM_ok : ∀ (db : Int) (t : Term T),
    mapRecM (fun db t => .ok (f db t)) db t = .ok (mapRec f db t)
  | db, .freeVar _ | db, .boundVar _ | db, .leaf _ => by simp
  | db, .node o a => by
    rw [mapRecM, mapRecMList_ok db a, mapRec]
    rfl
  | db, .annot t a => by
    rw [mapRecM, mapRecM_ok db t, mapRec]
    rfl
  | db, .letE x t b => by
    rw [mapRecM, mapRecMList_ok db b, mapRecM_ok (db + x.length) t, mapRec]
    rfl
  | db, .existsE x t => by
    rw [mapRecM, mapRecM_ok (db + x.length) t, mapRec]
    rfl
  | db, .forallE x t => by
    rw [mapRecM, mapRecM_ok (db + x.length) t, mapRec]
    rfl

theorem mapRecMList_ok : ∀ (db : Int) (ts : List (Term T)),
    mapRecMList (fun db t => .ok (f db t)) db ts = .ok (ts.map (mapRec f db))
  | _, [] => rfl
  | db, t :: ts => by
    rw [mapRecMList, mapRecMList_ok db ts, mapRecM_ok db t]
    rfl
end

end

/-! ## Runs of the machine -/

section Runs

variable (f : Int → Term T → Except Exn (Term T))

theorem mapApply_leads (db : Int) (n : Term T) (h : List (Term T)) (d : List (List (Term T)))
    (s : List (Int × Mapstack T)) {σ : MapState T}
    (hstep : mapStep f σ = mapApply f db n h d s) :
    Machine.Leads (mapStep f) σ (f db n) fun r => ⟨(r :: h) :: d, s⟩ := by
  refine Machine.Leads.of_step ?_
  rw [hstep, mapApply]
  cases f db n <;> rfl

mutual
/-- Visiting a term computes its rebuilt form and pushes it onto the results of the node above
it. -/
theorem leads_mTree :
    ∀ (t : Term T) (db : Int) (h : List (Term T)) (d : List (List (Term T)))
      (s : List (Int × Mapstack T)),
      Machine.Leads (mapStep f) ⟨h :: d, (db, .mTree t) :: s⟩ (mapRecM f db t)
        fun r => ⟨(r :: h) :: d, s⟩
  | .freeVar _, db, h, d, s | .boundVar _, db, h, d, s | .leaf _, db, h, d, s => by
    simp only [mapRecM_freeVar, mapRecM_boundVar, mapRecM_leaf]
    exact mapApply_leads f db _ h d s rfl
  | .node o a, db, h, d, s => by
    rw [mapRecM]
    refine Machine.Leads.head rfl (Machine.Leads.bind (leads_mapPush a db [] (h :: d) _) ?_)
    intro a' _
    rw [List.append_nil]
    exact mapApply_leads f db _ h d s rfl
  | .annot t a, db, h, d, s => by
    rw [mapRecM]
    refine Machine.Leads.head rfl (Machine.Leads.bind (leads_mTree t db [] (h :: d) _) ?_)
    intro t' _
    exact mapApply_leads f db _ h d s rfl
  | .letE x t b, db, h, d, s => by
    rw [mapRecM]
    refine Machine.Leads.head rfl (Machine.Leads.bind (leads_mapPush b db [] (h :: d) _) ?_)
    intro b' _
    rw [List.append_nil]
    refine Machine.Leads.bind (leads_mTree t (db + x.length) b' (h :: d) _) ?_
    intro t' _
    exact mapApply_leads f db _ h d s rfl
  | .existsE x t, db, h, d, s => by
    rw [mapRecM]
    refine Machine.Leads.head rfl
      (Machine.Leads.bind (leads_mTree t (db + x.length) [] (h :: d) _) ?_)
    intro t' _
    exact mapApply_leads f db _ h d s rfl
  | .forallE x t, db, h, d, s => by
    rw [mapRecM]
    refine Machine.Leads.head rfl
      (Machine.Leads.bind (leads_mTree t (db + x.length) [] (h :: d) _) ?_)
    intro t' _
    exact mapApply_leads f db _ h d s rfl

/-- The subterms pushed by `mapPush` are visited last to first, and their rebuilt forms end up
in order in front of the results. -/
theorem leads_mapPush :
    ∀ (a : List (Term T)) (db : Int) (h : List (Term T)) (d : List (List (Term T)))
      (st : List (Int × Mapstack T)),
      Machine.Leads (mapStep f) ⟨h :: d, mapPush db a st⟩ (mapRecMList f db a)
        fun a' => ⟨(a' ++ h) :: d, st⟩
  | [], _, _, _, _ => Machine.Reaches.refl _
  | t :: a, db, h, d, st => by
    rw [mapRecMList]
    refine Machine.Leads.bind (leads_mapPush a db h d _) fun a' _ => ?_
    refine Machine.Leads.bind (leads_mTree t db _ d st) fun t' _ => ?_
    exact Machine.Reaches.refl _
end

/-- The machine computes `mapRecM`: with enough fuel `map f t` is the term rebuilt by `f`, or
the exception `f` raises first. -/
theorem map_eq_mapRecM (t : Term T) :
    ∃ n, ∀ fuel, n ≤ fuel → map fuel f t = some (mapRecM f 0 t) :=
  Machine.run_of_leads (leads_mTree f t 0 [] [] []) fun _ => rfl

/-- With a function that raises no exception, `map` computes `mapRec`. -/
theorem map_eq_mapRec (g : Int → Term T → Term T) (t : Term T) :
    ∃ n, ∀ fuel, n ≤ fuel → map fuel (fun db t => .ok (g db t)) t = some (.ok (mapRec g 0 t)) := by
  obtain ⟨n, hn⟩ := map_eq_mapRecM (fun db t => .ok (g db t)) t
  exact ⟨n, fun fuel hfuel => by rw [hn fuel hfuel, mapRecM_ok]⟩

end Runs

/-! ## Binding free variables -/

/-- The simultaneous substitution of `σ v` for each free variable `v` with `σ v ≠ none`. The
terms substituted are put under binders as they are, which is right for terms without loose
indices. -/
def substFree (σ : T.var → Option (Term T)) : Term T → Term T
  | .freeVar v => (σ v).getD (.freeVar v)
  | .node s args => .node s (args.map (substFree σ))
  | .letE n l t => .letE n (substFree σ l) (t.map (substFree σ))
  | .existsE n l => .existsE n (substFree σ l)
  | .forallE n l => .forallE n (substFree σ l)
  | .annot t a => .annot (substFree σ t) a
  | t => t

section Bind

variable [DecidableEq T.var]

/-- The function that `bind dbm` maps over a term: a free variable of `dbm` with relative index
`dbt` under `db` binders becomes the bound variable `db + 1 + dbt`; every other node is kept. -/
def bindVar (dbm : List (T.var × Int)) (db : Int) : Term T → Term T
  | .freeVar v =>
    match dbm.lookup v with
    | some dbt => .boundVar (db + 1 + dbt)
    | none => .freeVar v
  | t => t

/-- `bind` changes free variables only. -/
theorem bindVar_of_ne {dbm : List (T.var × Int)} {db : Int} {t : Term T}
    (h : ∀ v, t ≠ .freeVar v) : bindVar dbm db t = t := by
  cases t with
  | freeVar v => exact absurd rfl (h v)
  | _ => rfl

/-- `bind dbm term` (`src/terms/ltree.ml:1386`). -/
def bind (fuel : Nat) (dbm : List (T.var × Int)) (term : Term T) : Option (Except Exn (Term T)) :=
  map fuel (fun db t => .ok (bindVar dbm db t)) term

/-- `mk_lambda x t`: the sorts of `x` (`T.sort_of_var`) and `t` with the variables of `x` bound,
each with its relative index from the end of `x`. -/
def mkLambda (fuel : Nat) (sortOfVar : T.var → T.sort) (x : List T.var) (t : Term T) :
    Option (Except Exn (List T.sort × Term T)) :=
  let dbm := x.reverse.mapIdx fun i v => (v, (i : Int))
  (bind fuel dbm t).map (Except.map fun t' => (x.map sortOfVar, t'))

/-- `mk_let b t`: the let binding of the variables of `b` to their terms in `t`. -/
def mkLet (fuel : Nat) (sortOfVar : T.var → T.sort) (b : List (T.var × Term T)) (t : Term T) :
    Option (Except Exn (Term T)) :=
  let (x, b) := b.unzip
  (mkLambda fuel sortOfVar x t).map (Except.map fun l => .letE l.1 l.2 b)

end Bind

/-! ## What a bound variable stands for in `unlet` -/

section Levels

variable {env inner : List (Term T)} {i : Int}

/-- A level of the inner environment is found there. -/
theorem unlet_append_boundVar_inner (h₁ : 1 ≤ i) (h₂ : i ≤ inner.length) :
    unlet (env ++ inner) (.boundVar i) = unlet inner (.boundVar i) := by
  have hidx : ((env ++ inner).length - i).toNat = env.length + (inner.length - i).toNat := by
    simp only [List.length_append]
    omega
  rw [unlet, unlet, if_pos ⟨h₁, by simp; omega⟩, if_pos ⟨h₁, h₂⟩, hidx,
    List.getD_eq_getElem?_getD, List.getD_eq_getElem?_getD,
    List.getElem?_append_right (Nat.le_add_right _ _), Nat.add_sub_cancel_left]

/-- A level of the outer environment is found there, past the inner levels. -/
theorem unlet_append_boundVar_outer (h₁ : 1 ≤ i) (h₂ : i ≤ env.length) :
    unlet (env ++ inner) (.boundVar (inner.length + i)) = unlet env (.boundVar i) := by
  have hidx : ((env ++ inner).length - (inner.length + i)).toNat = (env.length - i).toNat := by
    simp only [List.length_append]
    omega
  have hlt : (env.length - i).toNat < env.length := by omega
  rw [unlet, unlet, if_pos ⟨by omega, by simp; omega⟩, if_pos ⟨h₁, h₂⟩, hidx,
    List.getD_eq_getElem?_getD, List.getD_eq_getElem?_getD, List.getElem?_append_left hlt,
    List.getElem?_eq_getElem hlt, Option.getD_some, Option.getD_some]

/-- The levels of a mapped environment are the mapped levels. -/
theorem unlet_map_boundVar (g : Term T → Term T) (h₁ : 1 ≤ i) (h₂ : i ≤ inner.length) :
    unlet (inner.map g) (.boundVar i) = g (unlet inner (.boundVar i)) := by
  have hlt : (inner.length - i).toNat < inner.length := by omega
  simp only [unlet, List.length_map, List.getD_eq_getElem?_getD, List.getElem?_map,
    List.getElem?_eq_getElem hlt, Option.map_some, Option.getD_some]
  rw [if_pos ⟨h₁, h₂⟩, if_pos ⟨h₁, h₂⟩]

/-- A level right above the environment `us` is the definition pushed there. -/
theorem unlet_cons_boundVar_length (u : Term T) (us : List (Term T)) :
    unlet (u :: us) (.boundVar (us.length + 1)) = u := by
  have h := @unlet_append_boundVar_outer T [u] us 1 le_rfl (by simp)
  rw [List.singleton_append] at h
  rw [h]
  simp [unlet]

end Levels

/-! ## `bind` is a substitution -/

section Subst

variable [DecidableEq T.var]

/-- The substitution that the relative indices `dbm` stand for when the levels they refer to
have the let-free definitions `env`: the variable with index `dbt` gets the definition of level
`dbt + 1`, and a variable without an index is kept. -/
structure BindsTo (env : List (Term T)) (dbm : List (T.var × Int))
    (σ : T.var → Option (Term T)) : Prop where
  bound : ∀ v dbt, dbm.lookup v = some dbt →
    0 ≤ dbt ∧ dbt < env.length ∧ σ v = some (unlet env (.boundVar (1 + dbt)))
  free : ∀ v, dbm.lookup v = none → σ v = none

variable {env : List (Term T)} {dbm : List (T.var × Int)} {σ : T.var → Option (Term T)}

/-- A free variable bound by `bind` under the inner levels is its substitute. -/
theorem unlet_bindVar_freeVar (hσ : BindsTo env dbm σ) (inner : List (Term T)) (v : T.var) :
    unlet (env ++ inner) (bindVar dbm inner.length (.freeVar v)) = (σ v).getD (.freeVar v) := by
  cases hv : dbm.lookup v with
  | none =>
    rw [hσ.free v hv]
    simp [bindVar, hv, unlet]
  | some dbt =>
    obtain ⟨h₀, hlt, hσv⟩ := hσ.bound v dbt hv
    have hidx : (inner.length : Int) + 1 + dbt = inner.length + (1 + dbt) := by omega
    simp only [bindVar, hv, hidx, hσv, Option.getD_some]
    exact unlet_append_boundVar_outer (by omega) (by omega)

mutual
/-- Under the inner levels `inner` of the body, the let-free form of a term with its free
variables bound is the let-free form of the term with `σ` applied, the inner definitions
substituted too. By induction on the term; a let binding adds its definitions to the inner
levels. -/
theorem unlet_mapRec_bindVar (hσ : BindsTo env dbm σ) :
    ∀ (s : Term T) (inner : List (Term T)), s.wellFormed inner.length →
      unlet (env ++ inner.map (substFree σ)) (mapRec (bindVar dbm) inner.length s) =
        substFree σ (unlet inner s)
  | .freeVar v, inner, _ => by
    have h := unlet_bindVar_freeVar hσ (inner.map (substFree σ)) v
    rw [List.length_map] at h
    rw [mapRec_freeVar, h, unlet, substFree]
  | .boundVar i, inner, hwf => by
    simp only [Term.wellFormed, Bool.and_eq_true, decide_eq_true_eq] at hwf
    obtain ⟨h₁, h₂⟩ := hwf
    have hlen : i ≤ (inner.map (substFree σ)).length := by rwa [List.length_map]
    rw [mapRec_boundVar, bindVar_of_ne (by simp), unlet_append_boundVar_inner h₁ hlen,
      unlet_map_boundVar _ h₁ h₂]
  | .leaf _, _, _ => by
    rw [mapRec_leaf, bindVar_of_ne (by simp), unlet, unlet]
    simp [substFree]
  | .node o a, inner, hwf => by
    rw [Term.wellFormed_node_iff] at hwf
    have ha := unlet_mapRec_bindVar_list hσ a inner hwf
    simp only [mapRec, bindVar, unlet, substFree, List.map_map]
    rw [Function.comp_def, ha, Function.comp_def]
  | .letE n l t, inner, hwf => by
    obtain ⟨hlen, hl, ht⟩ := Term.wellFormed_letE_iff.1 hwf
    -- the definitions of the let, let-free and substituted, are the next inner levels
    have henv : env ++ inner.map (substFree σ) ++
        (t.map (mapRec (bindVar dbm) inner.length)).map
          (unlet (env ++ inner.map (substFree σ))) =
        env ++ (inner ++ t.map (unlet inner)).map (substFree σ) := by
      rw [List.map_map, Function.comp_def, unlet_mapRec_bindVar_list hσ t inner ht,
        List.map_append, List.map_map, List.append_assoc]
      rfl
    have hdepth : ((inner ++ t.map (unlet inner)).length : Int) = inner.length + n.length := by
      simp [hlen]
    have hbody := unlet_mapRec_bindVar hσ l (inner ++ t.map (unlet inner)) (by rwa [hdepth])
    rw [hdepth] at hbody
    simp only [mapRec, bindVar, unlet]
    rw [henv, hbody]
  | .existsE _ _, _, hwf | .forallE _ _, _, hwf => by simp [Term.wellFormed] at hwf
  | .annot t a, inner, hwf => by
    simp only [mapRec, bindVar, unlet]
    exact unlet_mapRec_bindVar hσ t inner (by simpa [Term.wellFormed] using hwf)

/-- `unlet_mapRec_bindVar` for each term of a list. -/
theorem unlet_mapRec_bindVar_list (hσ : BindsTo env dbm σ) :
    ∀ (a : List (Term T)) (inner : List (Term T)), (∀ s ∈ a, s.wellFormed inner.length) →
      a.map (fun s => unlet (env ++ inner.map (substFree σ))
        (mapRec (bindVar dbm) inner.length s)) = a.map fun s => substFree σ (unlet inner s)
  | [], _, _ => rfl
  | s :: a, inner, h => by
    rw [List.map_cons, List.map_cons, unlet_mapRec_bindVar hσ s inner (h s List.mem_cons_self),
      unlet_mapRec_bindVar_list hσ a inner fun s' hs' => h s' (List.mem_cons_of_mem s hs')]
end

/-- The relative indices of `mk_lambda` for the variables of `b`, whose levels hold the let-free
terms of `b`, stand for the substitution of those terms. By induction on `b`: the first variable
gets the last index, that of the outermost level. -/
theorem bindsTo_mkLambda (b : List (T.var × Term T)) (hnd : (b.map Prod.fst).Nodup) :
    BindsTo ((b.map Prod.snd).map (unlet []))
      ((b.map Prod.fst).reverse.mapIdx fun i v => (v, (i : Int)))
      (fun v => (b.lookup v).map (unlet [])) := by
  induction b with
  | nil => exact ⟨fun v dbt h => by simp at h, fun v _ => rfl⟩
  | cons p b ih =>
    obtain ⟨y, t⟩ := p
    rw [List.map_cons, List.nodup_cons] at hnd
    obtain ⟨hy, hnd⟩ := hnd
    have hb := ih hnd
    have hidx : ((((y, t) :: b).map Prod.fst).reverse.mapIdx fun i v => (v, (i : Int))) =
        ((b.map Prod.fst).reverse.mapIdx fun i v => (v, (i : Int))) ++ [(y, (b.length : Int))] := by
      rw [List.map_cons, List.reverse_cons, List.mapIdx_concat]
      simp
    -- `y` has no index among those of `b`, since `b` does not bind it
    have hyb : (b.lookup y).map (unlet []) = none := by
      have hnone : b.lookup y = none := List.lookup_eq_none_iff.2 fun p hp => by
        have hne : y ≠ p.1 := fun h => hy (by
          show y ∈ b.map Prod.fst
          rw [h]
          exact List.mem_map_of_mem hp)
        simpa using hne
      rw [hnone]
      rfl
    have hyi : ((b.map Prod.fst).reverse.mapIdx fun i v => (v, (i : Int))).lookup y = none := by
      cases h : ((b.map Prod.fst).reverse.mapIdx fun i v => (v, (i : Int))).lookup y with
      | none => rfl
      | some dbt =>
        obtain ⟨-, -, hσ⟩ := hb.bound y dbt h
        rw [hyb] at hσ
        cases hσ
    have hus : ((b.map Prod.snd).map (unlet [])).length = b.length := by simp
    constructor
    · intro v dbt h
      rw [hidx, List.lookup_append] at h
      by_cases hv : v = y
      · -- the first variable: the outermost level
        subst hv
        rw [hyi] at h
        simp only [List.lookup_cons, BEq.rfl, Option.none_or, Option.some.injEq] at h
        subst h
        refine ⟨by omega, by simp, ?_⟩
        simp only [List.map_cons, List.lookup_cons, BEq.rfl, Option.map_some]
        rw [add_comm, ← hus, unlet_cons_boundVar_length]
      · -- another variable: a level of `b`, below the outermost one
        simp only [List.lookup_cons, beq_false_of_ne hv, List.lookup_nil, Option.or_none] at h
        obtain ⟨h₀, hlt, hσ⟩ := hb.bound v dbt h
        refine ⟨h₀, by simp; omega, ?_⟩
        simp only [List.map_cons, List.lookup_cons, beq_false_of_ne hv]
        rw [hσ, ← List.singleton_append, unlet_append_boundVar_inner (by omega) (by omega)]
    · intro v h
      rw [hidx, List.lookup_append] at h
      by_cases hv : v = y
      · subst hv
        simp at h
      · simp only [List.lookup_cons, beq_false_of_ne hv, List.lookup_nil, Option.or_none] at h
        simp only [List.lookup_cons, beq_false_of_ne hv]
        exact hb.free v h

/-- `mk_let` binds its variables simultaneously: the let-free form of the let binding of the
distinct variables of `b` in a well-formed term `s` is the let-free form of `s` with the let-free
form of the term of each variable substituted for it. -/
theorem mkLet_substFree (sortOfVar : T.var → T.sort) (b : List (T.var × Term T)) (s : Term T)
    (hnd : (b.map Prod.fst).Nodup) (hs : s.wellFormed 0) :
    ∃ r, (∃ n, ∀ fuel, n ≤ fuel → mkLet fuel sortOfVar b s = some (.ok r)) ∧
      unlet [] r = substFree (fun v => (b.lookup v).map (unlet [])) (unlet [] s) := by
  obtain ⟨n, hn⟩ := map_eq_mapRecM
    (fun db t => .ok (bindVar ((b.map Prod.fst).reverse.mapIdx fun i v => (v, (i : Int))) db t)) s
  rw [mapRecM_ok] at hn
  refine ⟨.letE ((b.map Prod.fst).map sortOfVar)
      (mapRec (bindVar ((b.map Prod.fst).reverse.mapIdx fun i v => (v, (i : Int)))) 0 s)
      (b.map Prod.snd), ⟨n, fun fuel hfuel => ?_⟩, ?_⟩
  · simp only [mkLet, mkLambda, bind, List.unzip_fst, List.unzip_snd, hn fuel hfuel]
    rfl
  · have h := unlet_mapRec_bindVar (bindsTo_mkLambda b hnd) s [] (by rwa [List.length_nil])
    simp only [List.map_nil, List.append_nil, List.length_nil, Nat.cast_zero] at h
    rw [unlet, List.nil_append, h]

/-- `let x = y, y = x in f(x, y)` swaps `x` and `y`. -/
theorem mkLet_substFree_swap :
    (([(0, .freeVar 1), (1, .freeVar 0)] : List (Nat × Term ⟨Nat, Nat, Unit, Unit⟩)).map
        Prod.fst).Nodup ∧
      (Term.node 7 [.freeVar 0, .freeVar 1] : Term ⟨Nat, Nat, Unit, Unit⟩).wellFormed 0 ∧
      ∃ r, (∃ n, ∀ fuel, n ≤ fuel → mkLet (T := ⟨Nat, Nat, Unit, Unit⟩) fuel (fun _ => ())
          [(0, .freeVar 1), (1, .freeVar 0)] (.node 7 [.freeVar 0, .freeVar 1]) = some (.ok r)) ∧
        unlet [] r = substFree (T := ⟨Nat, Nat, Unit, Unit⟩)
          (fun v => (([(0, .freeVar 1), (1, .freeVar 0)] :
            List (Nat × Term ⟨Nat, Nat, Unit, Unit⟩)).lookup v).map (unlet []))
          (unlet [] (.node 7 [.freeVar 0, .freeVar 1])) :=
  ⟨by decide, by decide +kernel, mkLet_substFree (T := ⟨Nat, Nat, Unit, Unit⟩) (fun _ => ())
    [(0, .freeVar 1), (1, .freeVar 0)] (.node 7 [.freeVar 0, .freeVar 1]) (by decide)
    (by decide +kernel)⟩

/- The binding built for the swap: `y` has index 1 and `x` index 2. -/
example : mkLet (T := ⟨Nat, Nat, Unit, Unit⟩) 20 (fun _ => ()) [(0, .freeVar 1), (1, .freeVar 0)]
    (.node 7 [.freeVar 0, .freeVar 1]) =
    some (.ok (.letE [(), ()] (.node 7 [.boundVar 2, .boundVar 1]) [.freeVar 1, .freeVar 0])) := rfl

end Subst

end Ltree
end Kind2
