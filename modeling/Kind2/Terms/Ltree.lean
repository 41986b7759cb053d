import Kind2.Terms.Term
import Kind2.Lib.Machine
import Kind2.Lib.AssocList

/-!
# Let-bound evaluation of terms

`Ltree` (`src/terms/ltree.ml`) is the term representation beneath `Term`: a term is a free
variable, a de Bruijn indexed bound variable, a constant, an application, a let binding, a
quantifier or an annotated term. `eval_t f t` folds `f` over `t` bottom-up with an explicit
machine (`fold`, line 1032) of three stacks:

* the instructions: subterms to visit (`FTree` with the number of binders above them),
  applications to build (`FNode`), scopes to leave (`FPop`) and values to record (`FCtx`);
* the results: a list of values for each application under construction;
* the context: for each bound level, the definition of a let-bound variable (`S`, with the
  depth of its binding), the value of that definition once it has been evaluated (`E`), or a
  quantified variable (`Skip`). A definition is evaluated at the first use of its variable, in
  the context of that use, and its value is then stored by replacing the first binding of the
  level.

Hash-consing is left out: terms are a plain inductive type and `construct` builds a term from
its top node. A lambda `L (sorts, body)` is written into the binder that carries it. The fold is
the source's loop body, `foldStep`, iterated with fuel by `Machine.run`.

The meaning of the fold is stated with two definitions of our own: `unlet env t`, the let-free
term with every let-bound variable replaced by its definition and the annotations dropped, and
`Term.foldFlat f`, the plain bottom-up fold of `f` over a let-free term. `reaches_fTree` is the
big-step lemma: under a context that agrees with the environment (`Good`), visiting a well-formed
term pushes the fold of its let-free form and changes the context only by storing values of
definitions (`Later`). It is proved by strong induction on `cost`, which counts a definition
again at each use.
-/

namespace Kind2
namespace Ltree

/-- The parameters of the functor `Ltree.Make` (`BaseTypes`): symbols, variables, sorts and
attributes. -/
structure BaseTypes where
  symbol : Type
  var : Type
  sort : Type
  attr : Type

/-- Terms (`t_node`). The binders `Let`, `Exists` and `Forall` carry the sorts of the variables
they bind and the term under them; `Let` also carries one definition for each variable. -/
inductive Term (T : BaseTypes) where
  | freeVar (v : T.var)
  | boundVar (i : Int)
  | leaf (s : T.symbol)
  | node (s : T.symbol) (args : List (Term T))
  | letE (n : List T.sort) (l : Term T) (t : List (Term T))
  | existsE (n : List T.sort) (l : Term T)
  | forallE (n : List T.sort) (l : Term T)
  | annot (t : Term T) (a : T.attr)

/-- The top node of a term with its subterms (`flat`). -/
inductive Flat (T : BaseTypes) where
  | var (v : T.var)
  | const (s : T.symbol)
  | app (s : T.symbol) (args : List (Term T))
  | attr (t : Term T) (a : T.attr)

variable {T : BaseTypes} {α β γ δ : Type}

/-- `construct`: the term with the given top node. -/
def construct : Flat T → Term T
  | .var v => .freeVar v
  | .const c => .leaf c
  | .app s l => .node s l
  | .attr t a => .annot t a

/-! ## The fold -/

/-- The context entry of a bound level (`s_or_e`): the definition of a let-bound variable and
the depth of its binding (`S`), the stored value of that definition (`E`), or a quantified
variable (`Skip`). -/
inductive SOrE (T : BaseTypes) (β : Type) where
  | s (db : Int) (t : Term T)
  | e (l : β)
  | skip

/-- The instructions of the fold (`fold_tstack`). -/
inductive FoldTstack (T : BaseTypes) where
  | fTree (db : Int) (t : Term T)
  | fNode (op : T.symbol) (args : List (Term T))
  | fPop (i : Int)
  | fCtx (i : Int)

/-- `int_seq' a s n` adds the `n` integers ending with `s` to `a`. The count is a list length
at every call, so it is a natural number here. -/
def intSeq' (a : List Int) (s : Int) : Nat → List Int
  | 0 => a
  | i + 1 => intSeq' (s :: a) (s - 1) i

/-- `int_seq s n`: the `n` integers from `s` on. -/
def intSeq (s : Int) (n : Nat) : List Int := intSeq' [] (s + n - 1) n

/-- OCaml's `List.map2`, which raises `Invalid_argument` on lists of different lengths. -/
def map2 (g : β → γ → δ) : List β → List γ → Except Exn (List δ)
  | [], [] => .ok []
  | b :: bs, c :: cs => (g b c :: ·) <$> map2 g bs cs
  | _, _ => .error (.invalidArgument "List.map2")

/-- The local `push` of `fold`: the arguments go onto the instruction stack in reverse order,
so that the last argument is visited first. -/
def push (db : Int) : List (Term T) → List (FoldTstack T) → List (FoldTstack T)
  | [], st => st
  | h :: t, st => push db t (.fTree db h :: st)

/-- The local `aux` of the `FCtx` case of `fold`: store the value `t` in the first binding of
level `i`. -/
def ctxAux (i : Int) (t : β) (accum : List (Int × SOrE T β)) :
    List (Int × SOrE T β) → List (Int × SOrE T β)
  | [] => accum.reverse
  | (v, e) :: tl => if v = i then List.reverseAux ((v, .e t) :: accum) tl
      else ctxAux i t ((v, e) :: accum) tl

/-- The three stacks of `fold`: context, results and instructions. -/
structure FoldState (T : BaseTypes) (α : Type) where
  subst : List (Int × SOrE T (Flat T × α))
  accum : List (List (Flat T × α))
  stack : List (FoldTstack T)

/-- One iteration of `fold fail_quant f subst accum stack` (`src/terms/ltree.ml:1032`): each
case is a case of the source, its recursive call becomes `.next`, its result `.halt` and its
`assert false` or exception `.fail`. -/
def foldStep (failQuant : Bool) (f : Flat T → List α → α) :
    FoldState T α → Machine.Step (FoldState T α) α Exn
  | ⟨_, accum, []⟩ =>
    -- the result stack holds exactly the singleton list of the result
    match accum with
    | [[(_, res)]] => .halt res
    | _ => .fail .assertFailure
  | ⟨subst, accum, .fTree _ (.leaf op) :: tl⟩ =>
    let t := Flat.const op
    match accum with
    | h :: d => .next ⟨subst, ((t, f t []) :: h) :: d, tl⟩
    | _ => .fail .assertFailure
  | ⟨subst, accum, .fTree _ (.freeVar v) :: tl⟩ =>
    let t := Flat.var v
    match accum with
    | h :: d => .next ⟨subst, ((t, f t []) :: h) :: d, tl⟩
    | _ => .fail .assertFailure
  | ⟨subst, accum, .fTree db (.node op args) :: tl⟩ =>
    .next ⟨subst, [] :: accum, push db args (.fNode op args :: tl)⟩
  | ⟨subst, accum, .fTree db (.annot t _) :: tl⟩ =>
    .next ⟨subst, accum, .fTree db t :: tl⟩
  | ⟨subst, accum, .fTree dbm (.boundVar db) :: tl⟩ =>
    match subst.lookup (dbm - db + 1) with
    | some (.s dbl t) =>
      -- evaluate the definition as a top term, store its value, visit the variable again
      .next ⟨subst, [] :: accum,
        .fTree dbl t :: .fCtx (dbm - db + 1) :: .fTree dbm (.boundVar db) :: tl⟩
    | some (.e l) =>
      match accum with
      | es :: d => .next ⟨subst, (l :: es) :: d, tl⟩
      | _ => .fail .assertFailure
    | some .skip => .next ⟨subst, accum, tl⟩
    | none => .fail .assertFailure
  | ⟨subst, accum, .fTree db (.letE n l t) :: tl⟩ =>
    match map2 (fun dbi a => (dbi, SOrE.s db a)) (intSeq (db + 1) n.length) t with
    | .ok s => .next ⟨s ++ subst, accum, .fTree (db + n.length) l :: .fPop n.length :: tl⟩
    | .error _ => .fail .assertFailure
  | ⟨subst, accum, .fTree db (.existsE n l) :: tl⟩
  | ⟨subst, accum, .fTree db (.forallE n l) :: tl⟩ =>
    if failQuant then .fail (.invalidArgument "Ltree.fold : quantified term")
    else
      let s := (intSeq (db + 1) n.length).map fun dbi => (dbi, SOrE.skip)
      .next ⟨s ++ subst, accum, .fTree (db + n.length) l :: .fPop n.length :: tl⟩
  | ⟨subst, accum, .fNode op _ :: tl⟩ =>
    match accum with
    | es :: es' :: d =>
      let t := Flat.app op (es.unzip.1.map construct)
      .next ⟨subst, ((t, f t es.unzip.2) :: es') :: d, tl⟩
    | _ => .fail .assertFailure
  | ⟨subst, accum, .fPop i :: tl⟩ =>
    if i = 0 then .next ⟨subst, accum, tl⟩
    else if 0 < i then
      match subst with
      | _ :: subst' => .next ⟨subst', accum, .fPop (i - 1) :: tl⟩
      | [] => .fail .assertFailure
    else .fail .assertFailure
  | ⟨subst, accum, .fCtx i :: itl⟩ =>
    match accum with
    | [t] :: atl => .next ⟨ctxAux i t [] subst, atl, itl⟩
    | [] :: atl => .next ⟨subst, atl, itl⟩
    | _ => .fail .assertFailure

/-- `fold fail_quant f subst accum stack`, run for at most `fuel` iterations; `none` when the
fuel runs out. -/
def fold (fuel : Nat) (failQuant : Bool) (f : Flat T → List α → α)
    (subst : List (Int × SOrE T (Flat T × α))) (accum : List (List (Flat T × α)))
    (stack : List (FoldTstack T)) : Option (Except Exn α) :=
  Machine.run (foldStep failQuant f) fuel ⟨subst, accum, stack⟩

/-- `eval_t ~fail_on_quantifiers f t` (`src/terms/ltree.ml:1291`). -/
def evalT (fuel : Nat) (failOnQuantifiers : Bool) (f : Flat T → List α → α) (t : Term T) :
    Option (Except Exn α) :=
  fold fuel failOnQuantifiers f [] [[]] [.fTree 0 t]

/-! ## Let-free terms and the plain fold -/

/-- The let-free form of a term under `env`, the let-free definitions of the bound levels from
level 1 on: a bound variable becomes the definition of its level, a let binding its body with
the definitions added as the next levels, an annotated term the term. A quantified term is
outside this specification and kept as it is. -/
def unlet (env : List (Term T)) : Term T → Term T
  | .freeVar v => .freeVar v
  | .boundVar i =>
    if 1 ≤ i ∧ i ≤ env.length then env.getD (env.length - i).toNat (.boundVar i) else .boundVar i
  | .leaf s => .leaf s
  | .node s args => .node s (args.map (unlet env))
  | .letE _ l t => unlet (env ++ t.map (unlet env)) l
  | .existsE n l => .existsE n l
  | .forallE n l => .forallE n l
  | .annot t _ => unlet env t

/-- The plain bottom-up fold of `f` over a let-free term: at each node `f` gets the node and
the values of its arguments. A bound variable, a binder or an annotation has no value. -/
def Term.foldFlat (f : Flat T → List α → α) : Term T → Option α
  | .freeVar v => some (f (.var v) [])
  | .leaf s => some (f (.const s) [])
  | .node s args => (args.mapM fun (a : Term T) => a.foldFlat f).map (f (.app s args))
  | _ => none

/-- A well-formed quantifier-free term under `d` binders: each bound variable refers to one of
the `d` levels above it, and each let binding has one definition for each of its variables. -/
def Term.wellFormed (d : Int) : Term T → Bool
  | .freeVar _ => true
  | .boundVar i => decide (1 ≤ i) && decide (i ≤ d)
  | .leaf _ => true
  | .node _ args => args.attach.all fun a => a.1.wellFormed d
  | .letE n l t => n.length == t.length && l.wellFormed (d + n.length) &&
      t.attach.all fun a => a.1.wellFormed d
  | .existsE _ _ => false
  | .forallE _ _ => false
  | .annot t _ => t.wellFormed d
termination_by t => sizeOf t
decreasing_by
  all_goals simp_wf
  all_goals first
    | omega
    | (have hlt := List.sizeOf_lt_of_mem a.2; omega)

theorem Term.wellFormed_node_iff {d : Int} {s : T.symbol} {args : List (Term T)} :
    (Term.node s args).wellFormed d ↔ ∀ a ∈ args, a.wellFormed d := by
  simp only [Term.wellFormed, List.all_eq_true]
  exact ⟨fun h a ha => h ⟨a, ha⟩ (List.mem_attach _ _), fun h a _ => h a.1 a.2⟩

theorem Term.wellFormed_letE_iff {d : Int} {n : List T.sort} {l : Term T} {t : List (Term T)} :
    (Term.letE n l t).wellFormed d ↔
      n.length = t.length ∧ l.wellFormed (d + n.length) ∧ ∀ a ∈ t, a.wellFormed d := by
  simp only [Term.wellFormed, Bool.and_eq_true, beq_iff_eq, List.all_eq_true, and_assoc]
  exact and_congr_right fun _ => and_congr_right fun _ =>
    ⟨fun h a ha => h ⟨a, ha⟩ (List.mem_attach _ _), fun h a _ => h a.1 a.2⟩

/-- The number of instructions `fold` visits for a term if the definition of a let-bound
variable were visited again at each use; `cs` holds that number for the bound levels. -/
def cost (cs : List Nat) : Term T → Nat
  | .boundVar i => if 1 ≤ i ∧ i ≤ cs.length then cs.getD (cs.length - i).toNat 0 + 1 else 1
  | .node _ args => (args.map (cost cs)).sum + 1
  | .letE _ l t => cost (cs ++ t.map (cost cs)) l + 1
  | .annot t _ => cost cs t + 1
  | _ => 1

/-! ## Spec lemmas of the helpers -/

theorem intSeq'_eq (a : List Int) (s : Int) (n : Nat) :
    intSeq' a s n = (List.range n).map (fun j : Nat => s - n + 1 + j) ++ a := by
  induction n generalizing a s with
  | zero => rfl
  | succ n ih =>
    rw [intSeq', ih, List.range_succ, List.map_append, List.append_assoc]
    have hfun : (fun j : Nat => s - 1 - (n : Int) + 1 + j) =
        fun j : Nat => s - ((n + 1 : Nat) : Int) + 1 + j := by
      funext j; push_cast; ring
    simp only [hfun, List.map_cons, List.map_nil, List.singleton_append]
    congr 2
    push_cast
    ring

theorem intSeq_eq (s : Int) (n : Nat) : intSeq s n = (List.range n).map (fun j : Nat => s + j) := by
  rw [intSeq, intSeq'_eq, List.append_nil]
  congr 1
  funext j
  ring

theorem mem_intSeq {x s : Int} {n : Nat} : x ∈ intSeq s n ↔ s ≤ x ∧ x < s + n := by
  rw [intSeq_eq, List.mem_map]
  constructor
  · rintro ⟨j, hj, rfl⟩
    rw [List.mem_range] at hj
    omega
  · rintro ⟨h₁, h₂⟩
    exact ⟨(x - s).toNat, List.mem_range.2 (by omega), by omega⟩

theorem intSeq_succ (s : Int) (n : Nat) : intSeq s (n + 1) = s :: intSeq (s + 1) n := by
  rw [intSeq_eq, intSeq_eq, List.range_succ_eq_map, List.map_cons, List.map_map]
  congr 1
  · simp
  · congr 1
    funext j
    simp only [Function.comp, Nat.cast_succ]
    ring

/-- The bindings a let pushes: level `s + j` gets the definition `t[j]`. -/
theorem map2_intSeq (db : Int) (t : List (Term T)) (s : Int) :
    ∃ r, map2 (fun dbi a => (dbi, (SOrE.s db a : SOrE T β))) (intSeq s t.length) t = .ok r ∧
      r.map Prod.fst = intSeq s t.length ∧
      ∀ (j : Nat) a, t[j]? = some a → r.lookup (s + j) = some (.s db a) := by
  induction t generalizing s with
  | nil => exact ⟨[], rfl, rfl, fun j a h => by simp at h⟩
  | cons a t ih =>
    obtain ⟨r, hr, hkeys, hlook⟩ := ih (s + 1)
    refine ⟨(s, .s db a) :: r, ?_, ?_, ?_⟩
    · rw [List.length_cons, intSeq_succ, map2, hr]
      rfl
    · rw [List.length_cons, intSeq_succ, List.map_cons, hkeys]
    · intro j a' h
      cases j with
      | zero =>
        simp only [List.getElem?_cons_zero, Option.some.injEq] at h
        subst h
        simp
      | succ j =>
        simp only [List.getElem?_cons_succ] at h
        have hne : (s + ((j + 1 : Nat) : Int) == s) = false := by simp; omega
        rw [List.lookup_cons, hne]
        have := hlook j a' h
        rw [show s + 1 + (j : Int) = s + ((j + 1 : Nat) : Int) by push_cast; ring] at this
        exact this

theorem ctxAux_eq (i : Int) (t : β) (accum l : List (Int × SOrE T β)) :
    ctxAux i t accum l = accum.reverse ++ AssocList.setFirst i (.e t) l := by
  induction l generalizing accum with
  | nil => simp [ctxAux, AssocList.setFirst]
  | cons p l ih =>
    obtain ⟨v, e⟩ := p
    by_cases hv : v = i
    · simp [ctxAux, AssocList.setFirst, hv, List.reverseAux_eq]
    · simp [ctxAux, AssocList.setFirst, hv, ih]

/-! ## The context invariant -/

section Context

variable (f : Flat T → List α → α)

/-- `p`, a node with its value on the result stack, is the evaluation of the let-free term
`u`. -/
def Evaluates (u : Term T) (p : Flat T × α) : Prop :=
  construct p.1 = u ∧ u.foldFlat f = some p.2

/-- What the context entry of level `k + 1` says when `u` is the let-free definition of the
level and `c` bounds its cost: a definition bound under `m ≤ k` levels, whose let-free form
under those levels is `u` and whose cost there is at most `c`; or the evaluation of `u`. -/
def EntryOK (env : List (Term T)) (cs : List Nat) (k : Nat) (u : Term T) (c : Nat) :
    SOrE T (Flat T × α) → Prop
  | .s dbl t => ∃ m : Nat, dbl = m ∧ m ≤ k ∧ t.wellFormed m ∧ unlet (env.take m) t = u ∧
      cost (cs.take m) t ≤ c
  | .e p => Evaluates f u p
  | .skip => False

/-- The context agrees with the let-free definitions `env` of the levels and their costs `cs`:
the first binding of each level is right for it. -/
structure Good (env : List (Term T)) (cs : List Nat) (subst : List (Int × SOrE T (Flat T × α))) :
    Prop where
  length_eq : cs.length = env.length
  lookup_eq : ∀ (k : Nat) u, env[k]? = some u →
    ∃ e, subst.lookup ((k : Int) + 1) = some e ∧ EntryOK f env cs k u (cs.getD k 0) e

/-- The context gets the value of the definition of one level, in the first binding of the
level (the `FCtx` instruction). -/
def Store (env : List (Term T)) (subst subst' : List (Int × SOrE T (Flat T × α))) : Prop :=
  ∃ (k : Nat) (u : Term T) (p : Flat T × α), env[k]? = some u ∧ Evaluates f u p ∧
    subst' = AssocList.setFirst ((k : Int) + 1) (.e p) subst

/-- The context after storing some values. -/
def Later (env : List (Term T)) :
    List (Int × SOrE T (Flat T × α)) → List (Int × SOrE T (Flat T × α)) → Prop :=
  Relation.ReflTransGen (Store f env)

variable {f} {env : List (Term T)} {cs : List Nat} {subst subst' : List (Int × SOrE T (Flat T × α))}

/-- The first `m` levels agree with the first `m` definitions. -/
theorem Good.take (hg : Good f env cs subst) (m : Nat) : Good f (env.take m) (cs.take m) subst where
  length_eq := by simp [hg.length_eq]
  lookup_eq := by
    intro k u hu
    rw [List.getElem?_take] at hu
    split_ifs at hu with hk
    obtain ⟨e, he, hok⟩ := hg.lookup_eq k u hu
    refine ⟨e, he, ?_⟩
    have hc : (cs.take m).getD k 0 = cs.getD k 0 := by
      simp [List.getD_eq_getElem?_getD, hk]
    rw [hc]
    cases e with
    | s dbl t =>
      obtain ⟨m', rfl, hm', hwf, hun, hcost⟩ := hok
      refine ⟨m', rfl, hm', hwf, ?_, ?_⟩
      · rw [List.take_take, Nat.min_eq_left (by omega), hun]
      · rw [List.take_take, Nat.min_eq_left (by omega)]
        exact hcost
    | e p => exact hok
    | skip => exact hok

/-- Storing the value of a definition keeps the context right. -/
theorem Good.store (hg : Good f env cs subst) (h : Store f env subst subst') :
    Good f env cs subst' where
  length_eq := hg.length_eq
  lookup_eq := by
    obtain ⟨k₀, u₀, p, hu₀, hp, rfl⟩ := h
    intro k u hu
    by_cases hk : k = k₀
    · subst hk
      obtain ⟨e, he, -⟩ := hg.lookup_eq k u hu
      rw [hu₀, Option.some.injEq] at hu
      subst hu
      exact ⟨.e p, AssocList.lookup_setFirst_self (by simp [he]), hp⟩
    · have hne : ((k : Int) + 1) ≠ (k₀ : Int) + 1 := by omega
      rw [AssocList.lookup_setFirst_of_ne hne]
      exact hg.lookup_eq k u hu

theorem Good.later (hg : Good f env cs subst) (h : Later f env subst subst') :
    Good f env cs subst' := by
  induction h with
  | refl => exact hg
  | tail _ hstore ih => exact ih.store hstore

/-- What is stored for the first `m` levels is stored for all of them. -/
theorem Later.of_take {m : Nat} (h : Later f (env.take m) subst subst') : Later f env subst subst' := by
  refine Relation.ReflTransGen.mono (fun σ σ' hs => ?_) _ _ h
  obtain ⟨k, u, p, hu, hp, rfl⟩ := hs
  rw [List.getElem?_take] at hu
  split_ifs at hu
  exact ⟨k, u, p, hu, hp, rfl⟩

/-- A let binding pushes its definitions as the next levels (the bindings `s` of
`map2_intSeq`): the context is right for the environment with their let-free forms and costs
added. -/
theorem Good.push_let {t : List (Term T)} {s : List (Int × SOrE T (Flat T × α))}
    (hg : Good f env cs subst) (hwf : ∀ a ∈ t, a.wellFormed env.length)
    (hkeys : s.map Prod.fst = intSeq (env.length + 1) t.length)
    (hlook : ∀ (j : Nat) a, t[j]? = some a →
      s.lookup ((env.length : Int) + 1 + j) = some (.s env.length a)) :
    Good f (env ++ t.map (unlet env)) (cs ++ t.map (cost cs)) (s ++ subst) where
  length_eq := by simp [hg.length_eq]
  lookup_eq := by
    intro k u hu
    have hcs := hg.length_eq
    by_cases hk : k < env.length
    · -- a level below the let binding, which its bindings do not shadow
      rw [List.getElem?_append_left hk] at hu
      obtain ⟨e, he, hok⟩ := hg.lookup_eq k u hu
      have hnot : ((k : Int) + 1) ∉ s.map Prod.fst := by
        rw [hkeys, mem_intSeq]
        omega
      refine ⟨e, by rw [AssocList.lookup_append_of_not_mem hnot, he], ?_⟩
      have hc : (cs ++ t.map (cost cs)).getD k 0 = cs.getD k 0 := by
        simp [List.getD_eq_getElem?_getD, List.getElem?_append_left (hcs ▸ hk : k < cs.length)]
      rw [hc]
      cases e with
      | s dbl t' =>
        obtain ⟨m, rfl, hm, hwf', hun, hcost⟩ := hok
        refine ⟨m, rfl, hm, hwf', ?_, ?_⟩
        · rw [List.take_append_of_le_length (by omega), hun]
        · rw [List.take_append_of_le_length (by omega)]
          exact hcost
      | e p => exact hok
      | skip => exact hok.elim
    · -- the level of the definition `t[j]`, bound under the levels below the binding
      obtain ⟨j, rfl⟩ : ∃ j, k = env.length + j := ⟨k - env.length, by omega⟩
      rw [List.getElem?_append_right (by omega), Nat.add_sub_cancel_left, List.getElem?_map] at hu
      obtain ⟨a, ha, rfl⟩ := Option.map_eq_some_iff.1 hu
      have hkey : ((env.length + j : Nat) : Int) + 1 = (env.length : Int) + 1 + j := by
        push_cast
        ring
      refine ⟨.s env.length a, ?_, env.length, rfl, by omega,
        hwf a (List.mem_of_getElem? ha), ?_, ?_⟩
      · rw [List.lookup_append, hkey, hlook j a ha]
        rfl
      · rw [List.take_left]
      · have hc : (cs ++ t.map (cost cs)).getD (env.length + j) 0 = cost cs a := by
          simp [List.getD_eq_getElem?_getD, List.getElem?_append_right, hcs, ha]
        rw [← hcs, List.take_left, hcs, hc]

/-- Values stored under a let binding go to its own bindings or to the context below it. -/
theorem Later.frame {new : List (Term T)} {s σ₁ : List (Int × SOrE T (Flat T × α))}
    (h : Later f (env ++ new) (s ++ subst) σ₁)
    (hkeys : s.map Prod.fst = intSeq (env.length + 1) new.length) :
    ∃ s' σ', σ₁ = s' ++ σ' ∧ s'.map Prod.fst = s.map Prod.fst ∧ Later f env subst σ' := by
  induction h with
  | refl => exact ⟨s, subst, rfl, rfl, Relation.ReflTransGen.refl⟩
  | tail _ hstore ih =>
    obtain ⟨s', σ', rfl, hs', hl⟩ := ih
    obtain ⟨k, u, p, hu, hp, rfl⟩ := hstore
    by_cases hmem : ((k : Int) + 1) ∈ s'.map Prod.fst
    · exact ⟨AssocList.setFirst _ (.e p) s', σ', AssocList.setFirst_append_of_mem hmem _,
        by rw [AssocList.map_fst_setFirst, hs'], hl⟩
    · -- the level is below the let binding
      have hk : k < env.length := by
        have hlt : k < (env ++ new).length := (List.getElem?_eq_some_iff.1 hu).1
        rw [List.length_append] at hlt
        by_contra hk
        exact hmem (by rw [hs', hkeys, mem_intSeq]; omega)
      refine ⟨s', AssocList.setFirst _ (.e p) σ', AssocList.setFirst_append_of_not_mem hmem _, hs',
        hl.tail ⟨k, u, p, ?_, hp, rfl⟩⟩
      rwa [List.getElem?_append_left hk] at hu

end Context

/-! ## Runs of the fold -/

section Runs

variable (fq : Bool) (f : Flat T → List α → α)
variable {subst : List (Int × SOrE T (Flat T × α))} {es : List (Flat T × α)}
  {rest : List (List (Flat T × α))} {tl : List (FoldTstack T)}

theorem foldStep_boundVar_s {dbm db dbl : Int} {t : Term T}
    (h : subst.lookup (dbm - db + 1) = some (.s dbl t)) :
    foldStep fq f ⟨subst, rest, .fTree dbm (.boundVar db) :: tl⟩ =
      .next ⟨subst, [] :: rest,
        .fTree dbl t :: .fCtx (dbm - db + 1) :: .fTree dbm (.boundVar db) :: tl⟩ := by
  simp [foldStep, h]

theorem foldStep_boundVar_e {dbm db : Int} {p : Flat T × α}
    (h : subst.lookup (dbm - db + 1) = some (.e p)) :
    foldStep fq f ⟨subst, es :: rest, .fTree dbm (.boundVar db) :: tl⟩ =
      .next ⟨subst, (p :: es) :: rest, tl⟩ := by
  simp [foldStep, h]

/-- Leaving a scope pops its bindings. -/
theorem reaches_fPop (A : List (List (Flat T × α))) (tl : List (FoldTstack T))
    (σ : List (Int × SOrE T (Flat T × α))) :
    ∀ s : List (Int × SOrE T (Flat T × α)),
      Machine.Reaches (foldStep fq f) ⟨s ++ σ, A, .fPop s.length :: tl⟩ ⟨σ, A, tl⟩
  | [] => Machine.Reaches.single rfl
  | e :: s => by
    have hstep : foldStep fq f ⟨(e :: s) ++ σ, A, .fPop (e :: s).length :: tl⟩ =
        .next ⟨s ++ σ, A, .fPop s.length :: tl⟩ := by
      simp [foldStep]
      omega
    exact Machine.Reaches.head hstep (reaches_fPop A tl σ s)

/-- Visiting `t` under the levels of `env`, from any context that is right for `env` and `cs`,
pushes the evaluation of the let-free form of `t` and only stores values in the context. -/
def VisitOK (env : List (Term T)) (cs : List Nat) (t : Term T) : Prop :=
  ∀ subst es rest tl, Good f env cs subst →
    ∃ p subst', Evaluates f (unlet env t) p ∧ Later f env subst subst' ∧
      Machine.Reaches (foldStep fq f) ⟨subst, es :: rest, .fTree env.length t :: tl⟩
        ⟨subst', (p :: es) :: rest, tl⟩

variable {fq f} {env : List (Term T)} {cs : List Nat}

theorem visitOK_leaf (op : T.symbol) : VisitOK fq f env cs (.leaf op) := by
  intro subst es rest tl _
  exact ⟨(.const op, f (.const op) []), subst, ⟨by simp [unlet, construct], by simp [unlet, Term.foldFlat]⟩,
    Relation.ReflTransGen.refl, Machine.Reaches.single rfl⟩

theorem visitOK_freeVar (v : T.var) : VisitOK fq f env cs (.freeVar v) := by
  intro subst es rest tl _
  exact ⟨(.var v, f (.var v) []), subst, ⟨by simp [unlet, construct], by simp [unlet, Term.foldFlat]⟩,
    Relation.ReflTransGen.refl, Machine.Reaches.single rfl⟩

theorem visitOK_annot {t : Term T} (a : T.attr) (h : VisitOK fq f env cs t) :
    VisitOK fq f env cs (.annot t a) := by
  intro subst es rest tl hg
  obtain ⟨p, subst', hp, hl, hr⟩ := h subst es rest tl hg
  exact ⟨p, subst', by rwa [unlet], hl, Machine.Reaches.head rfl hr⟩

/-- The values pushed for the arguments of an application build its let-free form and give the
values `f` gets for it. -/
theorem evaluates_unzip {us : List (Term T)} {ps : List (Flat T × α)}
    (h : List.Forall₂ (Evaluates f) us ps) :
    ps.map (construct ∘ Prod.fst) = us ∧ us.mapM (fun u => u.foldFlat f) = some (ps.map Prod.snd) := by
  induction h with
  | nil => simp
  | cons hp _ ih =>
    obtain ⟨h₁, h₂⟩ := hp
    obtain ⟨ih₁, ih₂⟩ := ih
    simp [h₁, h₂, ih₁, ih₂]

/-- The arguments of an application, pushed in reverse, are visited last to first, and their
values end up in order. -/
theorem reaches_push {args : List (Term T)} (hargs : ∀ a ∈ args, VisitOK fq f env cs a)
    (st : List (FoldTstack T)) :
    ∀ subst acc, Good f env cs subst → ∃ ps subst',
      List.Forall₂ (fun a p => Evaluates f (unlet env a) p) args ps ∧ Later f env subst subst' ∧
      Machine.Reaches (foldStep fq f) ⟨subst, acc :: rest, push env.length args st⟩
        ⟨subst', (ps ++ acc) :: rest, st⟩ := by
  induction args generalizing st with
  | nil => exact fun subst acc _ => ⟨[], subst, .nil, Relation.ReflTransGen.refl, Machine.Reaches.refl _⟩
  | cons a as ih =>
    intro subst acc hg
    obtain ⟨ps, σ₁, hps, hl₁, hr₁⟩ :=
      ih (fun b hb => hargs b (List.mem_cons_of_mem a hb)) (.fTree env.length a :: st) subst acc hg
    obtain ⟨p, σ₂, hp, hl₂, hr₂⟩ :=
      hargs a List.mem_cons_self σ₁ (ps ++ acc) rest st (hg.later hl₁)
    exact ⟨p :: ps, σ₂, .cons hp hps, hl₁.trans hl₂, hr₁.trans hr₂⟩

theorem visitOK_node (op : T.symbol) {args : List (Term T)}
    (hargs : ∀ a ∈ args, VisitOK fq f env cs a) : VisitOK fq f env cs (.node op args) := by
  intro subst es rest tl hg
  obtain ⟨ps, subst', hps, hl, hr⟩ := reaches_push hargs (.fNode op args :: tl) subst [] hg
  obtain ⟨hcon, hfold⟩ := evaluates_unzip (List.forall₂_map_left_iff.2 hps)
  refine ⟨_, subst', ⟨?_, ?_⟩, hl, Machine.Reaches.head rfl (hr.trans (Machine.Reaches.single rfl))⟩
  · simp [unlet, construct, hcon]
  · simp [unlet, Term.foldFlat, hcon, hfold]

/-- A bound variable: on its first use the definition is visited in the context of the use,
under the levels it was bound under, and its value stored; the variable is then visited again
and finds the value. -/
theorem visitOK_boundVar {i : Int} (hi : (Term.boundVar i : Term T).wellFormed env.length)
    (ih : ∀ (m : Nat) (t : Term T), m ≤ env.length →
      cost (cs.take m) t < cost cs (.boundVar i : Term T) →
      t.wellFormed m → VisitOK fq f (env.take m) (cs.take m) t) :
    VisitOK fq f env cs (.boundVar i) := by
  intro subst es rest tl hg
  simp only [Term.wellFormed, Bool.and_eq_true, decide_eq_true_eq] at hi
  -- the variable is at level `k + 1`
  obtain ⟨k, hk, hkey⟩ : ∃ k : Nat, k < env.length ∧ (env.length : Int) - i + 1 = k + 1 :=
    ⟨(env.length - i).toNat, by omega, by omega⟩
  obtain ⟨u, hu⟩ : ∃ u, env[k]? = some u := ⟨env[k], List.getElem?_eq_getElem hk⟩
  have hunlet : unlet env (.boundVar i) = u := by
    have : (env.length - i).toNat = k := by omega
    simp [unlet, hi, List.getD_eq_getElem?_getD, this, hu]
  have hcost : cost cs (.boundVar i : Term T) = cs.getD k 0 + 1 := by
    have : (env.length - i).toNat = k := by omega
    simp [cost, hg.length_eq, hi, this, List.getD_eq_getElem?_getD]
  obtain ⟨e, he, hok⟩ := hg.lookup_eq k u hu
  rw [hunlet]
  rw [← hkey] at he
  cases e with
  | e p =>
    exact ⟨p, subst, hok, Relation.ReflTransGen.refl,
      Machine.Reaches.single (foldStep_boundVar_e fq f he)⟩
  | skip => exact hok.elim
  | s dbl t =>
    obtain ⟨m, rfl, hm, hwf, hun, hc⟩ := hok
    have hlen : ((env.take m).length : Int) = m := by
      rw [List.length_take, Nat.min_eq_left (by omega)]
    obtain ⟨p, σ₁, hp, hl₁, hr₁⟩ := ih m t (by omega) (by omega) hwf subst [] (es :: rest)
      (.fCtx (env.length - i + 1) :: .fTree env.length (.boundVar i) :: tl) (hg.take m)
    rw [hun] at hp
    rw [hlen] at hr₁
    have hl : Later f env subst σ₁ := hl₁.of_take
    have hstore : Store f env σ₁ (AssocList.setFirst ((k : Int) + 1) (.e p) σ₁) :=
      ⟨k, u, p, hu, hp, rfl⟩
    have hlook : (AssocList.setFirst ((k : Int) + 1) (.e p) σ₁).lookup
        ((env.length : Int) - i + 1) = some (.e p) := by
      obtain ⟨e', he', -⟩ := (hg.later hl).lookup_eq k u hu
      rw [hkey]
      exact AssocList.lookup_setFirst_self (by simp [he'])
    refine ⟨p, _, hp, hl.tail hstore, ?_⟩
    refine Machine.Reaches.head (foldStep_boundVar_s fq f he) (hr₁.trans ?_)
    refine Machine.Reaches.head rfl ?_
    rw [ctxAux_eq, List.reverse_nil, List.nil_append, hkey]
    exact Machine.Reaches.single (foldStep_boundVar_e fq f hlook)

/-- A let binding pushes the bindings of its definitions, visits its body under them and pops
them again. -/
theorem visitOK_letE {n : List T.sort} {l : Term T} {t : List (Term T)} (hlen : n.length = t.length)
    (hwf : ∀ a ∈ t, a.wellFormed env.length)
    (hbody : VisitOK fq f (env ++ t.map (unlet env)) (cs ++ t.map (cost cs)) l) :
    VisitOK fq f env cs (.letE n l t) := by
  intro subst es rest tl hg
  obtain ⟨s, hs, hkeys, hlook⟩ :=
    @map2_intSeq T (Flat T × α) (env.length : Int) t ((env.length : Int) + 1)
  obtain ⟨p, σ₁, hp, hl₁, hr₁⟩ :=
    hbody (s ++ subst) es rest (.fPop n.length :: tl) (hg.push_let hwf hkeys hlook)
  obtain ⟨s', σ', rfl, hs', hl⟩ := hl₁.frame (by rw [hkeys, List.length_map])
  refine ⟨p, σ', by rwa [unlet], hl, ?_⟩
  have hstep : foldStep fq f ⟨subst, es :: rest, .fTree env.length (.letE n l t) :: tl⟩ =
      .next ⟨s ++ subst, es :: rest, .fTree (env.length + n.length) l :: .fPop n.length :: tl⟩ := by
    simp [foldStep, hlen, hs]
  have hdepth : ((env ++ t.map (unlet env)).length : Int) = env.length + n.length := by
    simp [hlen]
  have hpop : s'.length = n.length := by
    rw [← List.length_map Prod.fst, hs', hkeys, intSeq_eq, List.length_map, List.length_range, hlen]
  rw [hdepth] at hr₁
  refine Machine.Reaches.head hstep (hr₁.trans ?_)
  rw [← hpop]
  exact reaches_fPop fq f _ tl σ' s'

end Runs

/-! ## Evaluation -/

theorem cost_lt_node {cs : List Nat} {a : Term T} {args : List (Term T)} (op : T.symbol)
    (ha : a ∈ args) : cost cs a < cost cs (.node op args) := by
  have hmem : cost cs a ∈ args.map (cost cs) := List.mem_map_of_mem ha
  have := List.le_sum_of_mem hmem
  simp only [cost]
  omega

section Eval

variable (fq : Bool) (f : Flat T → List α → α)

/-- Every well-formed term is visited correctly, by strong induction on its cost: the
definition a bound variable visits is not a subterm, but it costs less than the variable. -/
theorem visitOK_of_wellFormed (t : Term T) (env : List (Term T)) (cs : List Nat)
    (hwf : t.wellFormed env.length) : VisitOK fq f env cs t := by
  induction hN : cost cs t using Nat.strongRecOn generalizing t env cs with
  | ind N ih =>
    cases t with
    | freeVar v => exact visitOK_freeVar v
    | leaf op => exact visitOK_leaf op
    | boundVar i =>
      refine visitOK_boundVar hwf fun m t hm hlt hwf' => ?_
      have hm' : ((env.take m).length : Int) = m := by
        rw [List.length_take, Nat.min_eq_left hm]
      exact ih _ (hN ▸ hlt) t (env.take m) (cs.take m) (by rwa [hm']) rfl
    | node op args =>
      rw [Term.wellFormed_node_iff] at hwf
      exact visitOK_node op fun a ha => ih _ (hN ▸ cost_lt_node op ha) a env cs (hwf a ha) rfl
    | letE n l t =>
      obtain ⟨hlen, hl, ht⟩ := Term.wellFormed_letE_iff.1 hwf
      have hlt : cost (cs ++ t.map (cost cs)) l < N := by
        rw [← hN]
        simp [cost]
      exact visitOK_letE hlen ht (ih _ hlt l _ _ (by simpa [hlen] using hl) rfl)
    | existsE n l => simp [Term.wellFormed] at hwf
    | forallE n l => simp [Term.wellFormed] at hwf
    | annot t a =>
      have hlt : cost cs t < N := by
        rw [← hN]
        simp [cost]
      exact visitOK_annot a (ih _ hlt t env cs (by simpa [Term.wellFormed] using hwf) rfl)

theorem evalT_eq_foldFlat_unlet (t : Term T) (ht : t.wellFormed 0 = true) :
    ∃ v, (unlet [] t).foldFlat f = some v ∧
      ∃ n, ∀ fuel, n ≤ fuel → evalT fuel fq f t = some (.ok v) := by
  have hgood : Good f ([] : List (Term T)) [] ([] : List (Int × SOrE T (Flat T × α))) :=
    ⟨rfl, fun k u hu => by simp at hu⟩
  obtain ⟨⟨fl, v⟩, σ, ⟨-, hv⟩, -, hr⟩ :=
    visitOK_of_wellFormed fq f t [] [] (by simpa using ht) [] [] [] [] hgood
  exact ⟨v, hv, Machine.run_of_reaches_halt hr rfl⟩

/-- `let x = v5, y = g(c7) in f(y, x, y)`, whose definition of `y` is evaluated once and used
twice, folded with the count of nodes. -/
theorem evalT_eq_foldFlat_unlet_sample :
    (Term.letE [(), ()] (.node 0 [.boundVar 1, .boundVar 2, .boundVar 1])
        [.freeVar 5, .node 1 [.leaf 7]] : Term ⟨Nat, Nat, Unit, Unit⟩).wellFormed 0 = true ∧
      ∃ v, (unlet [] (Term.letE [(), ()] (.node 0 [.boundVar 1, .boundVar 2, .boundVar 1])
        [.freeVar 5, .node 1 [.leaf 7]] : Term ⟨Nat, Nat, Unit, Unit⟩)).foldFlat
          (fun _ vs => vs.sum + 1) = some v ∧
      ∃ n, ∀ fuel, n ≤ fuel → evalT fuel true (fun _ vs => vs.sum + 1)
        (Term.letE [(), ()] (.node 0 [.boundVar 1, .boundVar 2, .boundVar 1])
          [.freeVar 5, .node 1 [.leaf 7]] : Term ⟨Nat, Nat, Unit, Unit⟩) = some (.ok v) := by
  have ht : (Term.letE [(), ()] (.node 0 [.boundVar 1, .boundVar 2, .boundVar 1])
      [.freeVar 5, .node 1 [.leaf 7]] : Term ⟨Nat, Nat, Unit, Unit⟩).wellFormed 0 = true := by
    decide +kernel
  exact ⟨ht, evalT_eq_foldFlat_unlet true _ _ ht⟩

/- The count is that of `f(g(c7), v5, g(c7))`, although `g(c7)` is visited once. -/
example : evalT 30 true (fun _ vs => vs.sum + 1)
    (Term.letE [(), ()] (.node 0 [.boundVar 1, .boundVar 2, .boundVar 1])
      [.freeVar 5, .node 1 [.leaf 7]] : Term ⟨Nat, Nat, Unit, Unit⟩) = some (.ok 6) := rfl

/-- With quantifiers allowed, a let-bound variable whose definition is a quantified variable is
never evaluated: visiting the definition pushes no value, so `FCtx` stores nothing, and the
variable is visited again from the same state. The fold runs out of any fuel. -/
theorem fold_of_skip_definition {subst : List (Int × SOrE T (Flat T × α))}
    {accum : List (List (Flat T × α))} {tl : List (FoldTstack T)} {dbm db dbl j : Int}
    (h₁ : subst.lookup (dbm - db + 1) = some (.s dbl (.boundVar j)))
    (h₂ : subst.lookup (dbl - j + 1) = some .skip) (fuel : Nat) :
    fold fuel fq f subst accum (.fTree dbm (.boundVar db) :: tl) = none := by
  have hskip : foldStep fq f ⟨subst, [] :: accum,
      .fTree dbl (.boundVar j) :: .fCtx (dbm - db + 1) :: .fTree dbm (.boundVar db) :: tl⟩ =
      .next ⟨subst, [] :: accum, .fCtx (dbm - db + 1) :: .fTree dbm (.boundVar db) :: tl⟩ := by
    simp [foldStep, h₂]
  exact Machine.run_of_cycle (foldStep_boundVar_s fq f h₁)
    (Machine.Reaches.head hskip (Machine.Reaches.single rfl)) fuel

/-- `exists x. let y = x in y` is folded forever when quantifiers are allowed. -/
theorem evalT_let_of_quantified (g : Flat ⟨Nat, Nat, Unit, Unit⟩ → List α → α) (fuel : Nat) :
    evalT fuel false g (.existsE [()] (.letE [()] (.boundVar 1) [.boundVar 1])) = none := by
  match fuel with
  | 0 => rfl
  | 1 => rfl
  | n + 2 =>
    -- the quantifier pushes level 1 as `Skip`, the let pushes level 2 as `S (1, x)`
    have h₀ : foldStep false g
        ⟨[], [[]], [.fTree 0 (.existsE [()] (.letE [()] (.boundVar 1) [.boundVar 1]))]⟩ =
        .next ⟨[(1, .skip)], [[]], [.fTree 1 (.letE [()] (.boundVar 1) [.boundVar 1]), .fPop 1]⟩ :=
      rfl
    have h₁ : foldStep false g
        ⟨[(1, .skip)], [[]], [.fTree 1 (.letE [()] (.boundVar 1) [.boundVar 1]), .fPop 1]⟩ =
        .next ⟨[(2, .s 1 (.boundVar 1)), (1, .skip)], [[]],
          [.fTree 2 (.boundVar 1), .fPop 1, .fPop 1]⟩ := rfl
    unfold evalT fold
    rw [Machine.run_succ_of_next h₀, Machine.run_succ_of_next h₁]
    exact fold_of_skip_definition false g rfl rfl n

end Eval

end Ltree
end Kind2
