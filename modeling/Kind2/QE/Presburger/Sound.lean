import Kind2.QE.Presburger
import Kind2.Terms.Eval

/-!
# `to_presburger` keeps the meaning of terms

The atoms that `to_presburger` returns hold under an integer assignment exactly when the term
evaluates to true under it, the value of a term being the one `Eval.eval_term` gives it in the
model of the assignment. Both are folds over the term (`Term.evalT`), so the proof relates them
node by node (`Term.evalT_rel`): `Agrees` says how an intermediate result of `to_presburger` stands
to the normal form the evaluator reaches on the same subterm, and there is one theorem for each
case of the node function. The terms that `term_of_cformula` builds evaluate to the truth values
of the atoms, so their conjunction has the value of the term
(`evalBool_termOfCformula_toPresburger`).

This holds wherever `to_presburger` returns. On the true equation `(n - n)·x = 0` it does not:
the difference is the empty polynomial, which `multiply_two_polys` does not take for a constant.
-/

namespace Kind2.QE
namespace Presburger

open Simplify Term Eval
open Simplify.Symbolic (mkNum)

variable {V : Type}

/-- The model of `eval_term` for the integer assignment `N`. -/
def intModel (N : V → Int) : V → Value := fun v => .num (N v)

/-- An intermediate result of `to_presburger` and the normal form of the evaluator on the same
subterm agree: a polynomial has the integer as its value, and a conjunction has non-zero divisors
and holds when the Boolean is true. -/
def Agrees (N : V → Int) : Iformula V → NF → Prop
  | .poly p, .num n => polyValue N p = n
  | .formula cf, .bool b => (∀ a ∈ cf, a.divisor ≠ 0) ∧ b = decide (Sat N cf)
  | _, _ => False

variable {N : V → Int}

/-! ## Arguments that agree -/

theorem forall₂_agrees_polys : ∀ (pls : List (Poly V)) {vals : List NF},
    List.Forall₂ (Agrees N) (pls.map .poly) vals → vals = (pls.map (polyValue N)).map .num
  | [], [], _ => rfl
  | p :: pls, .num n :: vals, .cons hv hvals => by
    rw [forall₂_agrees_polys pls hvals, show n = polyValue N p from hv.symm]
    rfl
  | _ :: _, .bool _ :: _, .cons hv _ | _ :: _, .dec _ :: _, .cons hv _ => hv.elim

theorem forall₂_agrees_formulas : ∀ (cfs : List (Cformula V)) {vals : List NF},
    List.Forall₂ (Agrees N) (cfs.map .formula) vals →
      (∀ cf ∈ cfs, ∀ a ∈ cf, a.divisor ≠ 0) ∧ vals = (cfs.map fun cf => decide (Sat N cf)).map .bool
  | [], [], _ => ⟨by simp, rfl⟩
  | cf :: cfs, .bool b :: vals, .cons hv hvals => by
    obtain ⟨hdiv, hvals⟩ := forall₂_agrees_formulas cfs hvals
    refine ⟨?_, by rw [hvals, hv.2]; rfl⟩
    rintro cf' (_ | ⟨_, hcf'⟩)
    exacts [hv.1, hdiv cf' hcf']
  | _ :: _, .num _ :: _, .cons hv _ | _ :: _, .dec _ :: _, .cons hv _ => hv.elim

section Agreement

variable [LinearOrder V]

/-! ## The values of the folds of polynomials -/

theorem polyValue_foldlM_add : ∀ (pls : List (Poly V)) {pl p : Poly V},
    pls.foldlM (fun pl1 pl2 => (.ok (addTwoPolys [] pl1 pl2) : Except Exn (Poly V))) pl = .ok p →
      polyValue N p = polyValue N pl + (pls.map (polyValue N)).sum
  | [], _, _, h => by
    cases h
    simp
  | q :: pls, pl, _, h => by
    rw [List.foldlM_cons] at h
    rw [polyValue_foldlM_add pls h, polyValue_addTwoPolys_nil, List.map_cons, List.sum_cons]
    ring

theorem mapError_eq_ok {ε ε' α : Type} {x : Except ε α} {f : ε → ε'} {a : α} :
    x.mapError f = .ok a ↔ x = .ok a := by
  cases x <;> simp [Except.mapError]

omit [LinearOrder V] in
theorem polyValue_foldlM_multiply : ∀ (pls : List (Poly V)) {pl p : Poly V},
    pls.foldlM (fun pl1 pl2 => (multiplyTwoPolys pl1 pl2).mapError Exn.failure) pl = .ok p →
      polyValue N p = polyValue N pl * (pls.map (polyValue N)).prod
  | [], _, _, h => by
    cases h
    simp
  | q :: pls, pl, _, h => by
    rw [List.foldlM_cons] at h
    obtain ⟨pq, hpq, h⟩ := except_bind_eq_ok.mp h
    rw [polyValue_foldlM_multiply pls h, polyValue_multiplyTwoPolys N (mapError_eq_ok.mp hpq),
      List.map_cons, List.prod_cons]
    ring

/-! ## The cases of the node function -/

section Cases

variable {args : List (Iformula V)} {vals : List NF} {r : Iformula V} {v : NF}

theorem agrees_plus (hargs : List.Forall₂ (Agrees N) args vals)
    (h : presburgerOfSymbol .plus args = .ok r) (hv : addNF vals = .ok v) : Agrees N r v := by
  obtain ⟨s, hs, hr⟩ := except_bind_eq_ok.mp h
  cases hr
  obtain ⟨pl, pls, rfl, hp⟩ := foldIformulaList_eq_ok hs
  rw [forall₂_agrees_polys (pl :: pls) hargs, List.map_cons, List.map_cons,
    addNF_nums] at hv
  cases hv
  exact polyValue_foldlM_add pls hp

theorem agrees_times (hargs : List.Forall₂ (Agrees N) args vals)
    (h : presburgerOfSymbol .times args = .ok r) (hv : timesNF vals = .ok v) : Agrees N r v := by
  obtain ⟨s, hs, hr⟩ := except_bind_eq_ok.mp h
  cases hr
  obtain ⟨pl, pls, rfl, hp⟩ := foldIformulaList_eq_ok hs
  rw [forall₂_agrees_polys (pl :: pls) hargs, List.map_cons, List.map_cons,
    timesNF_nums] at hv
  cases hv
  exact polyValue_foldlM_multiply pls hp

theorem agrees_minus (hargs : List.Forall₂ (Agrees N) args vals)
    (h : presburgerOfSymbol .minus args = .ok r) (hv : minusNF vals = .ok v) : Agrees N r v := by
  match args, hargs, h with
  | [.poly pl], hargs, h =>
    cases h
    rw [forall₂_agrees_polys [pl] hargs] at hv
    cases hv
    exact polyValue_negatePoly N pl
  | .poly pl :: e :: l, hargs, h =>
    have h' : (addIformulaList (e :: l) >>= fun s =>
        pure (Iformula.poly (addTwoPolys [] pl (negatePoly s)))) = .ok r := h
    obtain ⟨s, hs, hr⟩ := except_bind_eq_ok.mp h'
    cases hr
    obtain ⟨q, qs, hql, hq⟩ := foldIformulaList_eq_ok hs
    rw [hql] at hargs
    rw [forall₂_agrees_polys (pl :: q :: qs) hargs] at hv
    change minusNF (.num (polyValue N pl) :: (polyValue N q :: qs.map (polyValue N)).map .num) =
      _ at hv
    rw [minusNF_nums] at hv
    cases hv
    show polyValue N (addTwoPolys [] pl (negatePoly s)) = _
    rw [polyValue_addTwoPolys_nil, polyValue_negatePoly, polyValue_foldlM_add qs hq]
    ring
  | [], _, h | [.formula _], _, h | .formula _ :: _ :: _, _, h => cases h

theorem agrees_divisible {i : Int} (hargs : List.Forall₂ (Agrees N) args vals)
    (h : presburgerOfSymbol (.divisible i) args = .ok r) (hv : divisibleNF i vals = .ok v) :
    Agrees N r v := by
  match args, hargs, h with
  | [.poly pl], hargs, h =>
    cases h
    rw [forall₂_agrees_polys [pl] hargs] at hv
    by_cases hi : i = 0
    · simp [divisibleNF, hi] at hv
    · simp only [List.map_cons, List.map_nil, divisibleNF, hi, if_false, Except.ok.injEq] at hv
      subst hv
      refine ⟨by simpa [PreAtom.divisor] using hi, ?_⟩
      simp only [Sat, List.mem_singleton, forall_eq, PreAtom.holds]
      simp only [Int.dvd_iff_emod_eq_zero, beq_eq_decide]
  | [], _, h | [.formula _], _, h | _ :: _ :: _, _, h => simp [presburgerOfSymbol] at h

omit [LinearOrder V] in
/-- The negation of a single atom agrees with the negated truth value when it holds exactly when
the atom does not. -/
theorem agrees_not_single {a a' : PreAtom V} (hargs : List.Forall₂ (Agrees N) [.formula [a]] vals)
    (hv : notNF vals = .ok v) (hneg : a'.holds N ↔ ¬ a.holds N) (hdiv : a'.divisor = a.divisor) :
    Agrees N (.formula [a']) v := by
  obtain ⟨hdiva, hvals⟩ := forall₂_agrees_formulas [[a]] hargs
  rw [hvals] at hv
  cases hv
  have ha : a.divisor ≠ 0 := hdiva [a] (by simp) a (by simp)
  refine ⟨by simpa [hdiv] using ha, ?_⟩
  show (!decide (Sat N [a])) = decide (Sat N [a'])
  simp [Sat, hneg]

theorem agrees_not (hargs : List.Forall₂ (Agrees N) args vals)
    (h : presburgerOfSymbol .not args = .ok r) (hv : notNF vals = .ok v) : Agrees N r v := by
  match args, hargs, h with
  | [.formula [.gt pl]], hargs, h =>
    cases h
    refine agrees_not_single hargs hv ?_ rfl
    simp only [PreAtom.holds, polyValue_addTwoPolys_nil, polyValue_negatePoly, polyValue_const]
    omega
  | [.formula [.eq _]], hargs, h | [.formula [.ineq _]], hargs, h =>
    cases h
    exact agrees_not_single hargs hv (by simp [PreAtom.holds]) rfl
  | [.formula [.divisible _ _]], hargs, h | [.formula [.indivisible _ _]], hargs, h =>
    cases h
    exact agrees_not_single hargs hv (by simp [PreAtom.holds]) rfl
  | [], _, h | [.poly _], _, h | [.formula []], _, h => cases h
  | [.formula (_ :: _ :: _)], _, h | _ :: _ :: _, _, h => simp [presburgerOfSymbol] at h

theorem agrees_and (hargs : List.Forall₂ (Agrees N) args vals)
    (h : presburgerOfSymbol .and args = .ok r) (hv : andNF vals = .ok v) : Agrees N r v := by
  match args, hargs, h with
  | [ifm], .cons ha .nil, h =>
    have hr : r = ifm := by
      cases ifm with
      | poly _ => cases h; rfl
      | formula _ => cases h; rfl
    cases hv
    rwa [hr]
  | .formula cf :: e :: l, hargs, h =>
    obtain ⟨cfs, hl, rfl⟩ := foldlM_andStep_eq_ok (e :: l) h
    rw [hl] at hargs
    obtain ⟨hdiv, hvals⟩ := forall₂_agrees_formulas (cf :: cfs) hargs
    rw [hvals, andNF_bools (by simp)] at hv
    cases hv
    refine ⟨?_, ?_⟩
    · intro a ha
      rcases List.mem_append.mp ha with ha | ha
      · exact hdiv cf (by simp) a ha
      · obtain ⟨cf', hcf', ha⟩ := List.mem_flatten.mp ha
        exact hdiv cf' (by simp [hcf']) a ha
    · apply Bool.eq_iff_iff.mpr
      simp [sat_append, sat_flatten]
  | .poly _ :: _ :: _, _, h =>
    obtain ⟨_, hs, _⟩ := except_bind_eq_ok.mp h
    cases hs
  | [], _, h => cases h

omit [LinearOrder V] in
/-- A chain of a relation agrees with the evaluator's chain of the same relation on integers when
each of its atoms holds exactly when the relation holds of the values. -/
theorem agrees_unchain {atom : Poly V → Poly V → PreAtom V} {relNum : Int → Int → Bool}
    {chainMsg polyMsg : String} {F : List NF → Except Stop NF}
    (hatom : ∀ p q, (atom p q).divisor ≠ 0 ∧
      ((atom p q).holds N ↔ relNum (polyValue N p) (polyValue N q) = true))
    (hF : ∀ n m ms, F (.num n :: (m :: ms).map .num) =
      .ok (.bool ((chainList (n :: m :: ms)).all fun p => relNum p.1 p.2)))
    (hargs : List.Forall₂ (Agrees N) args vals)
    (h : unchainToIformula atom chainMsg polyMsg args = .ok r) (hv : F vals = .ok v) :
    Agrees N r v := by
  obtain ⟨pl, pls, rfl, hne, rfl⟩ := unchainToIformula_eq_ok h
  obtain ⟨q, qs, rfl⟩ := List.exists_cons_of_ne_nil hne
  rw [forall₂_agrees_polys (pl :: q :: qs) hargs] at hv
  change F (.num (polyValue N pl) :: (polyValue N q :: qs.map (polyValue N)).map .num) = _ at hv
  rw [hF] at hv
  cases hv
  refine ⟨?_, ?_⟩
  · intro a ha
    obtain ⟨p, -, rfl⟩ := List.mem_map.mp (List.mem_reverse.mp ha)
    exact (hatom p.1 p.2).1
  · have hsat : Sat N ((chainList (pl :: q :: qs)).map fun p => atom p.1 p.2).reverse ↔
        ∀ p ∈ chainList (pl :: q :: qs), relNum (polyValue N p.1) (polyValue N p.2) = true := by
      simp only [Sat, List.mem_reverse, List.mem_map]
      constructor
      · intro hs p hp
        exact (hatom p.1 p.2).2.mp (hs _ ⟨p, hp, rfl⟩)
      · rintro hall _ ⟨p, hp, rfl⟩
        exact (hatom p.1 p.2).2.mpr (hall p hp)
    rw [← List.map_cons, ← List.map_cons, chainList_map, List.all_map]
    apply Bool.eq_iff_iff.mpr
    simp only [List.all_eq_true, decide_eq_true_eq, hsat, Function.comp_apply]

omit [LinearOrder V] in
/-- The atom of a relation between two polynomials has the divisor one. -/
theorem gt_divisor_ne_zero (p : Poly V) : (PreAtom.gt p).divisor ≠ 0 := one_ne_zero

/-- A node whose symbol is applied to arguments. -/
theorem agrees_app {s : Symbol} (hargs : List.Forall₂ (Agrees N) args vals)
    (h : presburgerOfSymbol s args = .ok r)
    (hv : simplifyTermNode (intModel N) (.app s) vals = .ok v) : Agrees N r v := by
  cases s with
  | not => exact agrees_not hargs h hv
  | and => exact agrees_and hargs h hv
  | minus => exact agrees_minus hargs h hv
  | plus => exact agrees_plus hargs h hv
  | times => exact agrees_times hargs h hv
  | divisible i => exact agrees_divisible hargs h hv
  | eq =>
    refine agrees_unchain (fun p q => ⟨one_ne_zero, ?_⟩)
      (fun n m ms => (eqNF_nums n m ms).trans (relation_nums _ _ n m ms)) hargs h hv
    simp only [PreAtom.holds, polyValue_addTwoPolys_nil, polyValue_negatePoly, beq_iff_eq]
    omega
  | leq =>
    refine agrees_unchain (fun p q => ⟨gt_divisor_ne_zero _, ?_⟩) (relation_nums _ _) hargs h hv
    simp only [PreAtom.holds, polyValue_addTwoPolys_nil, polyValue_negatePoly, polyValue_const,
      decide_eq_true_eq]
    omega
  | lt =>
    refine agrees_unchain (fun p q => ⟨gt_divisor_ne_zero _, ?_⟩) (relation_nums _ _) hargs h hv
    simp only [PreAtom.holds, polyValue_addTwoPolys_nil, polyValue_negatePoly, decide_eq_true_eq]
    omega
  | geq =>
    refine agrees_unchain (fun p q => ⟨gt_divisor_ne_zero _, ?_⟩) (relation_nums _ _) hargs h hv
    simp only [PreAtom.holds, polyValue_addTwoPolys_nil, polyValue_negatePoly, polyValue_const,
      decide_eq_true_eq]
    omega
  | gt =>
    refine agrees_unchain (fun p q => ⟨gt_divisor_ne_zero _, ?_⟩) (relation_nums _ _) hargs h hv
    simp only [PreAtom.holds, polyValue_addTwoPolys_nil, polyValue_negatePoly, decide_eq_true_eq]
    omega
  | bool _ | numeral _ | decimal _ | isInt | distinct => cases hv
  | implies | or | xor | ite | div | intdiv | mod | abs | toReal | toInt => cases h

/-- A constant node: a numeral, or `true` or `false`. -/
theorem agrees_const {s : Symbol} (h : presburgerOfSymbol s args = .ok r)
    (hv : simplifyTermNode (intModel N) (.const s) vals = .ok v) : Agrees N r v := by
  rcases simplifyTermNode_const_eq_ok hv with ⟨i, rfl, rfl⟩ | ⟨_, rfl, rfl⟩ | ⟨b, rfl, rfl⟩
  · cases h
    exact polyValue_const N i
  · cases h
  · cases b <;> cases h <;> exact ⟨by simp [PreAtom.divisor], by simp [Sat, PreAtom.holds,
      polyValue_const]⟩

end Cases

/-- One node: the result of `to_presburger` agrees with that of the evaluator when those of the
arguments do. -/
theorem agrees_toPresburgerNode (n : Node V) {args : List (Iformula V)} {vals : List NF}
    {r : Iformula V} {v : NF} (hargs : List.Forall₂ (Agrees N) args vals)
    (h : toPresburgerNode n args = .ok r) (hv : simplifyTermNode (intModel N) n vals = .ok v) :
    Agrees N r v := by
  cases n with
  | var x =>
    cases h
    cases hv
    show polyValue N [(1, some x)] = N x
    simp [polyValue, varVal]
  | const s => exact agrees_const h hv
  | app s => exact agrees_app hargs h hv

/-- The fold of `to_presburger` agrees with the evaluator on every term where both succeed. -/
theorem agrees_evalT (t : Term V) {r : Iformula V} {v : NF}
    (h : Term.evalT toPresburgerNode t = .ok r) (hv : simplifyTermModel (intModel N) t = .ok v) :
    Agrees N r v :=
  evalT_rel (fun n _ _ _ _ hargs h hv => agrees_toPresburgerNode n hargs h hv) t h hv

/-- Where `to_presburger` returns, its atoms have non-zero divisors and hold under an integer
assignment exactly when the term evaluates to true under it. -/
theorem toPresburger_sound (elim : List V) {t : Term V} {cf : Cformula V} {b : Bool}
    (h : toPresburger elim t = .ok cf) (hb : evalBool (intModel N) t = .ok b) :
    (∀ a ∈ cf, a.divisor ≠ 0) ∧ b = decide (Sat N cf) :=
  agrees_evalT t (toPresburger_eq_ok h) (evalBool_eq_ok_iff.mp hb)

end Agreement

/-! ## The terms of the atoms -/

theorem simplifyTermModel_mkNum (c : Int) :
    simplifyTermModel (intModel N) (mkNum c : Term V) = .ok (.num c) := by
  unfold mkNum
  split_ifs with hc
  · rfl
  · rw [simplifyTermModel_app, evalTList_singleton rfl]
    show minusNF [.num (-c)] = _
    simp [minusNF]

theorem simplifyTermModel_termOfPsummand (s : Psummand V) :
    simplifyTermModel (intModel N) (termOfPsummand s) = .ok (.num (s.1 * varVal N s.2)) := by
  rcases s with ⟨c, _ | x⟩
  · rw [termOfPsummand, simplifyTermModel_mkNum, varVal, mul_one]
  · rw [termOfPsummand, simplifyTermModel_app,
      evalTList_pair (simplifyTermModel_mkNum (V := V) c) rfl]
    show timesNF (.num c :: [N x].map NF.num) = _
    rw [timesNF_nums]
    simp [varVal]

theorem simplifyTermModel_termOfPoly (p : Poly V) :
    simplifyTermModel (intModel N) (termOfPoly p) = .ok (.num (polyValue N p)) := by
  match p with
  | [] => exact simplifyTermModel_mkNum 0
  | [s] =>
    rw [termOfPoly, simplifyTermModel_termOfPsummand]
    simp [polyValue]
  | s :: s' :: l =>
    show simplifyTermModel _ (.app .plus ((s :: s' :: l).map termOfPsummand)) = _
    rw [simplifyTermModel_app, evalTList_map_eq_ok (f := simplifyTermNode (intModel N))
      (k := termOfPsummand) (h := NF.num ∘ fun s : Psummand V => s.1 * varVal N s.2)
      fun s _ => simplifyTermModel_termOfPsummand s, ← List.map_map]
    show addNF (.num _ :: ((s' :: l).map fun s => s.1 * varVal N s.2).map NF.num) = _
    rw [addNF_nums]
    simp [polyValue, LinearForm.eval]

theorem simplifyTermModel_gt_termOfPoly (p : Poly V) :
    simplifyTermModel (intModel N) (.app .gt [termOfPoly p, mkNum 0]) =
      .ok (.bool (decide (0 < polyValue N p))) := by
  rw [simplifyTermModel_app,
    evalTList_pair (simplifyTermModel_termOfPoly p) (simplifyTermModel_mkNum (V := V) 0)]
  show relationGt (.num (polyValue N p) :: [0].map NF.num) = _
  rw [relationGt, relation_nums]
  simp

theorem simplifyTermModel_eq_termOfPoly (p : Poly V) :
    simplifyTermModel (intModel N) (.app .eq [termOfPoly p, mkNum 0]) =
      .ok (.bool (decide (polyValue N p = 0))) := by
  rw [simplifyTermModel_app,
    evalTList_pair (simplifyTermModel_termOfPoly p) (simplifyTermModel_mkNum (V := V) 0)]
  show eqNF (.num (polyValue N p) :: [0].map NF.num) = _
  rw [eqNF_nums]
  exact (relation_nums _ _ _ 0 []).trans (by simp [beq_eq_decide])

theorem simplifyTermModel_divisible_termOfPoly {i : Int} (hi : i ≠ 0) (p : Poly V) :
    simplifyTermModel (intModel N) (.app (.divisible i) [termOfPoly p]) =
      .ok (.bool (decide (i ∣ polyValue N p))) := by
  rw [simplifyTermModel_app, evalTList_singleton (simplifyTermModel_termOfPoly p)]
  show divisibleNF i [.num (polyValue N p)] = _
  simp only [divisibleNF, hi, if_false, Int.dvd_iff_emod_eq_zero, beq_eq_decide]

/-- The term of an atom with a non-zero divisor evaluates to the truth value of the atom; an atom
of the empty polynomial is the constant `term_of_preAtom` gives it. -/
theorem evalBool_termOfPreAtom (a : PreAtom V) (ha : a.divisor ≠ 0) :
    evalBool (intModel N) (termOfPreAtom a) = .ok (decide (a.holds N)) := by
  match a with
  | .gt [] | .eq [] | .ineq [] | .divisible _ [] | .indivisible _ [] =>
    simp [termOfPreAtom, evalBool, evalTerm, simplifyTermModel, evalT, simplifyTermNode, mkBool,
      PreAtom.holds, polyValue, Except.map, valueOfNF, boolOfValue, bind, Except.bind, pure,
      Except.pure]
  | .gt (s :: l) =>
    rw [evalBool_eq_ok_iff]
    exact simplifyTermModel_gt_termOfPoly (s :: l)
  | .eq (s :: l) =>
    rw [evalBool_eq_ok_iff]
    exact simplifyTermModel_eq_termOfPoly (s :: l)
  | .ineq (s :: l) =>
    show evalBool _ (mkNot (.app .eq [termOfPoly (s :: l), mkNum 0])) = _
    rw [evalBool_mkNot (evalBool_eq_ok_iff.mpr (simplifyTermModel_eq_termOfPoly (s :: l)))]
    congr 1
    apply Bool.eq_iff_iff.mpr
    rw [Bool.not_eq_true', decide_eq_false_iff_not, decide_eq_true_iff]
    rfl
  | .divisible i (s :: l) =>
    rw [evalBool_eq_ok_iff]
    exact simplifyTermModel_divisible_termOfPoly ha (s :: l)
  | .indivisible i (s :: l) =>
    show evalBool _ (mkNot (.app (.divisible i) [termOfPoly (s :: l)])) = _
    rw [evalBool_mkNot (evalBool_eq_ok_iff.mpr
      (simplifyTermModel_divisible_termOfPoly (show i ≠ 0 from ha) (s :: l)))]
    congr 1
    apply Bool.eq_iff_iff.mpr
    rw [Bool.not_eq_true', decide_eq_false_iff_not, decide_eq_true_iff]
    rfl

/-- The conjunction of the terms of atoms with non-zero divisors evaluates to whether all of them
hold. -/
theorem evalBool_mkAnd_termOfCformula (cf : Cformula V) (hcf : ∀ a ∈ cf, a.divisor ≠ 0) :
    evalBool (intModel N) (mkAnd (termOfCformula cf)) = .ok (decide (Sat N cf)) := by
  match cf, hcf with
  | [], _ => simp [termOfCformula, mkAnd, mkBool, evalBool, evalTerm, simplifyTermModel, evalT,
      simplifyTermNode, Sat, Except.map, valueOfNF, boolOfValue, bind, Except.bind, pure,
      Except.pure]
  | [a], hcf =>
    rw [termOfCformula, List.map_singleton, mkAnd, evalBool_termOfPreAtom a (hcf a (by simp))]
    simp [Sat]
  | a :: b :: l, hcf =>
    rw [evalBool_eq_ok_iff]
    show simplifyTermModel _ (.app .and ((a :: b :: l).map termOfPreAtom)) = _
    rw [simplifyTermModel_app, evalTList_map_eq_ok (f := simplifyTermNode (intModel N))
      (k := termOfPreAtom) (h := NF.bool ∘ fun a : PreAtom V => decide (a.holds N))
      fun a ha => evalBool_eq_ok_iff.mp (evalBool_termOfPreAtom a (hcf a ha)), ← List.map_map]
    show andNF (((a :: b :: l).map fun a => decide (a.holds N)).map NF.bool) = _
    rw [andNF_bools (by simp)]
    congr 2
    apply Bool.eq_iff_iff.mpr
    simp [Sat]

/-! ## The meaning of the result, and two inputs where there is none -/

variable [LinearOrder V]

/-- Where `to_presburger` returns, the conjunction of the terms `term_of_cformula` builds from its
atoms has the value of the term under every integer assignment. -/
theorem evalBool_termOfCformula_toPresburger (elim : List V) {t : Term V} {cf : Cformula V}
    {b : Bool} (h : toPresburger elim t = .ok cf) (hb : evalBool (intModel N) t = .ok b) :
    evalBool (intModel N) (mkAnd (termOfCformula cf)) = .ok b := by
  obtain ⟨hdiv, rfl⟩ := toPresburger_sound elim h hb
  exact evalBool_mkAnd_termOfCformula cf hdiv

theorem evalBool_termOfCformula_toPresburger_lt :
    ∃ cf, toPresburger ([] : List Nat) (.app .lt [.var 0, .var 1]) = .ok cf ∧
      evalBool (intModel fun _ => 0) (.app .lt [.var 0, .var 1]) = .ok false ∧
      evalBool (intModel fun _ => 0) (mkAnd (termOfCformula cf)) = .ok false := by
  have hsome : (toPresburger ([] : List Nat) (.app .lt [.var 0, .var 1])).toOption.isSome =
      true := by decide
  have hb : evalBool (intModel fun _ : Nat => (0 : Int)) (.app .lt [.var 0, .var 1]) =
      .ok false := by decide
  cases h : toPresburger ([] : List Nat) (.app .lt [.var 0, .var 1]) with
  | error e =>
    rw [h] at hsome
    cases hsome
  | ok cf => exact ⟨cf, rfl, hb, evalBool_termOfCformula_toPresburger [] h hb⟩

/-- `to_presburger` raises `Failure` on `(n - n)·x = 0`, which holds under every integer
assignment. The difference `n - n` is the empty polynomial, and `multiply_two_polys` takes only
`[(c, None)]` for a constant factor. -/
theorem toPresburger_difference_times_var (elim : List V) (n : Int) (x : V) :
    toPresburger elim (.app .eq [.app .times [.app .minus [.const (.numeral n),
        .const (.numeral n)], .var x], .const (.numeral 0)]) =
      .error (.failure "Can only multiply two polys when at least one of them is constant.") ∧
    ∀ N : V → Int, evalBool (intModel N) (.app .eq [.app .times [.app .minus
        [.const (.numeral n), .const (.numeral n)], .var x], .const (.numeral 0)]) = .ok true := by
  constructor
  · have hminus : evalT toPresburgerNode
        (.app .minus [.const (.numeral n), .const (.numeral n)] : Term V) = .ok (.poly []) := by
      show Except.ok (Iformula.poly (addTwoPolys [] [(n, ⊤)] [(-n, ⊤)])) = _
      rw [addTwoPolys_cancel]
    have htimes : evalT toPresburgerNode (.app .times [.app .minus [.const (.numeral n),
        .const (.numeral n)], .var x] : Term V) =
        failwith "Can only multiply two polys when at least one of them is constant." := by
      rw [evalT, evalTList, hminus]
      rfl
    rw [toPresburger, evalT, evalTList, htimes]
    rfl
  · intro N
    rw [evalBool_eq_ok_iff]
    have hminus : simplifyTermModel (intModel N)
        (.app .minus [.const (.numeral n), .const (.numeral n)] : Term V) = .ok (.num 0) := by
      rw [simplifyTermModel_app, evalTList_pair rfl rfl]
      show minusNF (.num n :: [n].map NF.num) = _
      rw [minusNF_nums]
      simp
    have htimes : simplifyTermModel (intModel N) (.app .times [.app .minus [.const (.numeral n),
        .const (.numeral n)], .var x] : Term V) = .ok (.num 0) := by
      rw [simplifyTermModel_app, evalTList_pair hminus rfl]
      show timesNF (.num 0 :: [N x].map NF.num) = _
      rw [timesNF_nums]
      simp
    rw [simplifyTermModel_app, evalTList_pair htimes rfl]
    show eqNF (.num 0 :: [0].map NF.num) = _
    rw [eqNF_nums]
    exact (relation_nums _ _ 0 0 []).trans (by simp)

end Presburger
end Kind2.QE
