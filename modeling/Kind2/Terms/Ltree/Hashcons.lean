import Kind2.Terms.Ltree.Destruct

/-!
# The property of hash-consed terms

A hash-consed term of `Ltree` (`src/terms/ltree.ml:410`) carries a property `prop`, which its
constructor computes once from the properties of the subterms. The property is the list
`bound_vars` of the de Bruijn indices that occur loose in the term (`bound_vars_of_term_node`,
line 468), and `prop_of_term_node` (line 502) asserts that this list is sorted. Every
constructor, from `mk_term`, `mk_app` and `mk_let` to the unsafe `ht_*` that the term functions
call, is `Ht.hashcons` with that property.

A hash-consed term is modelled by `HTerm`, a term with the property stored for it. The hash table,
which only shares equal terms, is left out. `htTerm` is the constructor applied to a node over
hash-consed subterms (`TermNode`), and `Built` holds of the terms that constructors build from
built terms. `Built.exact` says that the stored property is `boundVars` of the term, the function
that `Destruct` works with. `mem_boundVars_iff_looseIn` says that `boundVars` lists the loose
indices of the term (`LooseIn`) when every let binding has one definition per variable
(`LetArity`). The constructors only receive nodes whose bound variables have indices of at least
one (`TermNode.Receivable`): `t_node` is private, and the module gives `ht_bound_var` no other
index. So every loose index of a built term is positive (`Built.looseIn_pos`), and the assertion
holds on every node over built subterms (`htTerm_boundVars_looseIn`). The let condition is needed:
the public `instantiate` takes a lambda of two variables with one definition, and the property it
stores shifts the body by one (`htTerm_instantiate_short`).
-/

namespace Kind2
namespace Ltree

variable {T : BaseTypes}

/-! ## Hash-consed terms and their constructors -/

/-- A hash-consed term (`t`): the term with the property `bound_vars` stored when it was built. -/
structure HTerm (T : BaseTypes) where
  term : Term T
  boundVars : List Int

/-- A node over hash-consed subterms (`t_node`), the argument of the constructors. The lambda
`L (sorts, body)` of a binder is written into the binder. -/
inductive TermNode (T : BaseTypes) where
  | freeVar (v : T.var)
  | boundVar (i : Int)
  | leaf (s : T.symbol)
  | node (s : T.symbol) (l : List (HTerm T))
  | letE (n : List T.sort) (body : HTerm T) (l : List (HTerm T))
  | existsE (n : List T.sort) (body : HTerm T)
  | forallE (n : List T.sort) (body : HTerm T)
  | annot (t : HTerm T) (a : T.attr)

namespace TermNode

/-- The term of a node. -/
def term : TermNode T → Term T
  | .freeVar v => .freeVar v
  | .boundVar i => .boundVar i
  | .leaf s => .leaf s
  | .node s l => .node s (l.map HTerm.term)
  | .letE n body l => .letE n body.term (l.map HTerm.term)
  | .existsE n body => .existsE n body.term
  | .forallE n body => .forallE n body.term
  | .annot t a => .annot t.term a

/-- The subterms of a node. -/
def children : TermNode T → List (HTerm T)
  | .freeVar _ | .boundVar _ | .leaf _ => []
  | .node _ l => l
  | .letE _ body l => body :: l
  | .existsE _ body | .forallE _ body => [body]
  | .annot t _ => [t]

/-- A node the constructors receive: `t_node` is private, so a caller outside the module only
passes nodes of terms already built, and the module gives `ht_bound_var` indices of at least one
(`bind`, `mk_let`, `destruct` and the fold's instructions). -/
def Receivable : TermNode T → Prop
  | .boundVar i => 1 ≤ i
  | _ => True

end TermNode

/-- `bound_vars_of_term_node`: the bound variables of a node, read from the properties stored in
its subterms. A let binding binds as many variables as it has definitions. -/
def boundVarsOfTermNode : TermNode T → List Int
  | .freeVar _ | .leaf _ => []
  | .boundVar i => [i]
  | .node _ l => boundVarsOfTerms [] (l.map HTerm.boundVars)
  | .letE _ body l =>
    boundVarsOfTerms (boundVarsOutsideLambda l.length body.boundVars) (l.map HTerm.boundVars)
  | .existsE i body | .forallE i body => boundVarsOutsideLambda i.length body.boundVars
  | .annot t _ => t.boundVars

/-- The assertion of `prop_of_term_node`, `List.fold_left (fun p i -> assert (i >= p); i) 0`:
each index is at least the one before it, and the first at least zero. -/
def assertSorted (boundVars : List Int) : Except Exn Int :=
  boundVars.foldlM (fun p i => if i ≥ p then .ok i else .error .assertFailure) 0

/-- `prop_of_term_node`. -/
def propOfTermNode (t : TermNode T) : Except Exn (List Int) := do
  let boundVars := boundVarsOfTermNode t
  let _ ← assertSorted boundVars
  pure boundVars

/-- `Ht.hashcons ht t (prop_of_term_node t)`, which `ht_term` and `ht_free_var` to `ht_annot`
are: the term of the node with its property. -/
def htTerm (t : TermNode T) : Except Exn (HTerm T) := do
  let prop ← propOfTermNode t
  pure ⟨t.term, prop⟩

/-- The hash-consed terms that the constructors build: a constructor applied to a node it receives
whose subterms were built. -/
inductive Built : HTerm T → Prop
  | mk {t : TermNode T} {h : HTerm T} : (∀ c ∈ t.children, Built c) → t.Receivable →
      htTerm t = .ok h → Built h

/-! ## The stored property is `boundVars` -/

/-- The stored property of a term is `boundVars` of its term. -/
def HTerm.Exact (h : HTerm T) : Prop := h.boundVars = Ltree.boundVars h.term

/-- What a constructor returns: the term of the node with the property read from its subterms. -/
theorem htTerm_eq_ok {t : TermNode T} {h : HTerm T} (ht : htTerm t = .ok h) :
    h = ⟨t.term, boundVarsOfTermNode t⟩ := by
  cases hs : assertSorted (boundVarsOfTermNode t) with
  | error e => simp [htTerm, propOfTermNode, hs] at ht
  | ok q =>
    have hok : htTerm t = .ok ⟨t.term, boundVarsOfTermNode t⟩ := by
      simp only [htTerm, propOfTermNode, hs]
      rfl
    rw [hok] at ht
    exact (Except.ok.inj ht).symm

/-- Over subterms whose stored properties are exact, the property a constructor computes is
`boundVars` of the term it builds. -/
theorem boundVarsOfTermNode_eq {t : TermNode T} (hc : ∀ c ∈ t.children, c.Exact) :
    boundVarsOfTermNode t = boundVars t.term := by
  have hlist : ∀ l : List (HTerm T), (∀ c ∈ l, c.Exact) →
      l.map HTerm.boundVars = (l.map HTerm.term).map boundVars := fun l h => by
    rw [List.map_map]
    exact List.map_congr_left h
  cases t with
  | freeVar _ | boundVar _ | leaf _ => rw [boundVarsOfTermNode, TermNode.term, boundVars]
  | node s l => rw [boundVarsOfTermNode, TermNode.term, boundVars_node, hlist l hc]
  | letE n body l =>
    have hbody : body.boundVars = boundVars body.term := hc body List.mem_cons_self
    rw [boundVarsOfTermNode, TermNode.term, boundVars_letE, List.length_map, ← hbody,
      hlist l fun c h => hc c (List.mem_cons_of_mem body h)]
  | existsE n body | forallE n body =>
    have hbody : body.boundVars = boundVars body.term := hc body (List.mem_singleton_self body)
    rw [boundVarsOfTermNode, TermNode.term, boundVars, ← hbody]
  | annot t a =>
    have ht : t.boundVars = boundVars t.term := hc t (List.mem_singleton_self t)
    rw [boundVarsOfTermNode, TermNode.term, boundVars_annot, ← ht]

/-- Every built term stores `boundVars` of its term, by induction on how it was built: each
constructor computes it from the exact properties of the subterms. -/
theorem Built.exact {h : HTerm T} (hb : Built h) : h.Exact := by
  induction hb with
  | mk _ _ ht ih =>
    rw [htTerm_eq_ok ht]
    exact boundVarsOfTermNode_eq ih

/-! ## `boundVars` lists the loose indices -/

mutual
/-- `k` occurs loose in a term: a bound variable `k` under no binder of the term, or a loose index
`k + n` of the term under a binder of `n` variables, where `0 < k`. -/
def LooseIn : Int → Term T → Prop
  | k, .boundVar i => k = i
  | k, .node _ l => LooseInList k l
  | k, .letE n body l => (0 < k ∧ LooseIn (k + n.length) body) ∨ LooseInList k l
  | k, .existsE n body | k, .forallE n body => 0 < k ∧ LooseIn (k + n.length) body
  | k, .annot t _ => LooseIn k t
  | _, .freeVar _ | _, .leaf _ => False

/-- `LooseIn` in one of a list of terms. -/
def LooseInList : Int → List (Term T) → Prop
  | _, [] => False
  | k, t :: l => LooseIn k t ∨ LooseInList k l
end

theorem looseInList_iff {k : Int} (l : List (Term T)) : LooseInList k l ↔ ∃ a ∈ l, LooseIn k a := by
  induction l with
  | nil => simp [LooseInList]
  | cons a l ih => simp [LooseInList, ih]

/-- The loose indices of a node the constructors receive are positive when those of its subterms
are: a binder lets only positive indices out, and a bound variable has an index of at least one. -/
theorem TermNode.looseIn_pos {t : TermNode T} (hr : t.Receivable)
    (hc : ∀ c ∈ t.children, ∀ k, LooseIn k c.term → 0 < k) {k : Int} (hk : LooseIn k t.term) :
    0 < k := by
  cases t with
  | freeVar _ | leaf _ => simp [TermNode.term, LooseIn] at hk
  | boundVar i =>
    simp only [TermNode.term, LooseIn] at hk
    simp only [Receivable] at hr
    omega
  | node s l =>
    simp only [TermNode.term, LooseIn, looseInList_iff, List.mem_map] at hk
    obtain ⟨_, ⟨c, hcl, rfl⟩, hkc⟩ := hk
    exact hc c hcl k hkc
  | letE n body l =>
    simp only [TermNode.term, LooseIn, looseInList_iff, List.mem_map] at hk
    rcases hk with ⟨hpos, -⟩ | ⟨_, ⟨c, hcl, rfl⟩, hkc⟩
    · exact hpos
    · exact hc c (List.mem_cons_of_mem body hcl) k hkc
  | existsE n body | forallE n body =>
    simp only [TermNode.term, LooseIn] at hk
    exact hk.1
  | annot t a =>
    simp only [TermNode.term, LooseIn] at hk
    exact hc t (List.mem_singleton_self t) k hk

/-- Every loose index of a built term is positive, by induction on how it was built. -/
theorem Built.looseIn_pos {h : HTerm T} (hb : Built h) {k : Int} (hk : LooseIn k h.term) :
    0 < k := by
  induction hb generalizing k with
  | mk _ hr ht ih =>
    rw [htTerm_eq_ok ht] at hk
    exact TermNode.looseIn_pos hr (fun c hc _ hkc => ih c hc hkc) hk

mutual
/-- Every let binding of a term has one definition for each of its variables, as `mk_let` and
`eval_lambda` build them. -/
def LetArity : Term T → Prop
  | .node _ l => LetArityList l
  | .letE n body l => n.length = l.length ∧ LetArity body ∧ LetArityList l
  | .existsE _ body | .forallE _ body => LetArity body
  | .annot t _ => LetArity t
  | .freeVar _ | .boundVar _ | .leaf _ => True

/-- `LetArity` of each of a list of terms. -/
def LetArityList : List (Term T) → Prop
  | [] => True
  | t :: l => LetArity t ∧ LetArityList l
end

mutual
/-- The bound variables of a term whose let bindings have one definition per variable are its
loose indices. -/
theorem mem_boundVars_iff_looseIn : ∀ (t : Term T) (k : Int), LetArity t →
    (k ∈ boundVars t ↔ LooseIn k t)
  | .freeVar _, k, _ | .leaf _, k, _ => by simp [boundVars, LooseIn]
  | .boundVar i, k, _ => by simp [boundVars, LooseIn]
  | .node s l, k, h => by
    rw [mem_boundVars_node, LooseIn, mem_boundVars_iff_looseIn_list l k h]
  | .letE n body l, k, h => by
    obtain ⟨hlen, hbody, hl⟩ := h
    rw [mem_boundVars_letE, LooseIn, ← hlen, mem_boundVars_iff_looseIn body _ hbody,
      mem_boundVars_iff_looseIn_list l k hl]
  | .existsE n body, k, h | .forallE n body, k, h => by
    rw [boundVars, mem_boundVarsOutsideLambda, LooseIn, mem_boundVars_iff_looseIn body _ h]
  | .annot t _, k, h => by
    rw [boundVars_annot, LooseIn, mem_boundVars_iff_looseIn t k h]

theorem mem_boundVars_iff_looseIn_list : ∀ (l : List (Term T)) (k : Int), LetArityList l →
    ((∃ a ∈ l, k ∈ boundVars a) ↔ LooseInList k l)
  | [], _, _ => by simp [LooseInList]
  | t :: l, k, h => by
    simp only [List.mem_cons, exists_eq_or_imp]
    rw [LooseInList, mem_boundVars_iff_looseIn t k h.1,
      mem_boundVars_iff_looseIn_list l k h.2]
end

/-! ## The assertion of `prop_of_term_node` -/

/-- The fold of the assertion passes over a strictly increasing list of indices from `p` on. -/
theorem foldlM_assert_ok : ∀ (bv : List Int) (p : Int), bv.Pairwise (· < ·) → (∀ i ∈ bv, p ≤ i) →
    ∃ q, bv.foldlM (fun p i => if i ≥ p then Except.ok i else .error Exn.assertFailure) p =
      Except.ok q
  | [], p, _, _ => ⟨p, rfl⟩
  | i :: bv, p, hs, hp => by
    obtain ⟨hlt, hs'⟩ := List.pairwise_cons.1 hs
    rw [List.foldlM_cons, if_pos (hp i List.mem_cons_self)]
    exact foldlM_assert_ok bv i hs' fun j hj => (hlt j hj).le

/-- Bound-variable property invariant: a constructor applied to a node it receives over built
subterms, for a term whose let bindings have one definition per variable, passes the assertion of
`prop_of_term_node`, and the property it stores is the strictly increasing list of the loose
indices of the term. -/
theorem htTerm_boundVars_looseIn (t : TermNode T) (hc : ∀ c ∈ t.children, Built c)
    (hr : t.Receivable) (harity : LetArity t.term) :
    ∃ h, htTerm t = .ok h ∧ Built h ∧ h.term = t.term ∧ h.boundVars.Pairwise (· < ·) ∧
      ∀ k, k ∈ h.boundVars ↔ LooseIn k h.term := by
  have hbv : boundVarsOfTermNode t = boundVars t.term :=
    boundVarsOfTermNode_eq fun c h => (hc c h).exact
  have hmem : ∀ k, k ∈ boundVarsOfTermNode t ↔ LooseIn k t.term := fun k => by
    rw [hbv]
    exact mem_boundVars_iff_looseIn t.term k harity
  -- the assertion passes: the list is strictly increasing and its indices are positive
  obtain ⟨q, hq⟩ := foldlM_assert_ok (boundVarsOfTermNode t) 0
    (hbv ▸ pairwise_boundVars t.term) fun i hi =>
      (TermNode.looseIn_pos hr (fun c hc' _ => (hc c hc').looseIn_pos) ((hmem i).1 hi)).le
  have ht : htTerm t = .ok ⟨t.term, boundVarsOfTermNode t⟩ := by
    rw [htTerm, propOfTermNode, assertSorted, hq]
    rfl
  exact ⟨_, ht, .mk hc hr ht, rfl, hbv ▸ pairwise_boundVars t.term, hmem⟩

/-- A bound variable the module builds, with an index of at least one. -/
theorem built_boundVar {i : Int} (hi : 1 ≤ i) : Built (T := T) ⟨.boundVar i, [i]⟩ := by
  have h0 : i ≥ 0 := by omega
  have ht : htTerm (T := T) (.boundVar i) = .ok ⟨.boundVar i, [i]⟩ := by
    simp [htTerm, propOfTermNode, assertSorted, boundVarsOfTermNode, TermNode.term, h0]
  exact .mk (t := .boundVar i) (by simp [TermNode.children]) hi ht

/-- A leaf. -/
theorem built_leaf (s : T.symbol) : Built (T := T) ⟨.leaf s, []⟩ :=
  .mk (t := .leaf s) (by simp [TermNode.children]) trivial rfl

/-- The body `f(#1, #2)` of a lambda of two variables, as `bind` builds it. -/
theorem built_pairBody :
    Built (T := ⟨Nat, Nat, Unit, Unit⟩) ⟨.node 0 [.boundVar 1, .boundVar 2], [1, 2]⟩ :=
  .mk (t := (.node 0 [⟨.boundVar 1, [1]⟩, ⟨.boundVar 2, [2]⟩] : TermNode ⟨Nat, Nat, Unit, Unit⟩))
    (fun c hc => by
      simp only [TermNode.children, List.mem_cons, List.not_mem_nil, or_false] at hc
      rcases hc with rfl | rfl
      · exact built_boundVar le_rfl
      · exact built_boundVar (by decide))
    trivial rfl

/-- The subterms of a let over the body `f(#1, #2)` with one definition `c` are built. -/
theorem built_pairLet_children (n : List Unit) :
    ∀ c ∈ (TermNode.letE n ⟨.node 0 [.boundVar 1, .boundVar 2], [1, 2]⟩ [⟨.leaf 3, []⟩] :
      TermNode ⟨Nat, Nat, Unit, Unit⟩).children, Built c := by
  intro c hc
  simp only [TermNode.children, List.mem_cons, List.not_mem_nil, or_false] at hc
  rcases hc with rfl | rfl
  · exact built_pairBody
  · exact built_leaf _

/-- `let x = c in f(x, #2)` is built from built subterms and stores `[1]`: `x` is the index `1`
bound by the let, and `#2` is the loose index `1` of the let. -/
theorem htTerm_boundVars_looseIn_letNode :
    ∃ h, htTerm (T := ⟨Nat, Nat, Unit, Unit⟩)
        (.letE [()] ⟨.node 0 [.boundVar 1, .boundVar 2], [1, 2]⟩ [⟨.leaf 3, []⟩]) = .ok h ∧
      Built h ∧
      h.term = (.letE [()] (.node 0 [.boundVar 1, .boundVar 2]) [.leaf 3] :
        Term ⟨Nat, Nat, Unit, Unit⟩) ∧
      h.boundVars.Pairwise (· < ·) ∧ ∀ k, k ∈ h.boundVars ↔ LooseIn k h.term := by
  exact htTerm_boundVars_looseIn _ (built_pairLet_children [()]) trivial
    (by simp [TermNode.term, LetArity, LetArityList])

/-- `instantiate (mk_lambda [x; y] (f y x)) [c]`, a let of two variables with one definition that
the public `instantiate` builds: the property it stores is `[1]`, the body shifted by one
definition, but no index occurs loose in it. -/
theorem htTerm_instantiate_short :
    ∃ h, htTerm (T := ⟨Nat, Nat, Unit, Unit⟩)
        (.letE [(), ()] ⟨.node 0 [.boundVar 1, .boundVar 2], [1, 2]⟩ [⟨.leaf 3, []⟩]) = .ok h ∧
      Built h ∧ h.boundVars = [1] ∧ ¬ LooseIn 1 h.term := by
  have ht : htTerm (T := ⟨Nat, Nat, Unit, Unit⟩)
      (.letE [(), ()] ⟨.node 0 [.boundVar 1, .boundVar 2], [1, 2]⟩ [⟨.leaf 3, []⟩]) =
        .ok ⟨.letE [(), ()] (.node 0 [.boundVar 1, .boundVar 2]) [.leaf 3], [1]⟩ := rfl
  refine ⟨_, ht, .mk (built_pairLet_children [(), ()]) trivial ht, rfl, ?_⟩
  -- the body's indices 1 and 2 are both bound by the two variables
  simp [LooseIn, LooseInList]

end Ltree
end Kind2
