import Kind2.QE.Poly
import Kind2.Simplify
import Kind2.Simplify.Symbolic

/-!
# From terms to Presburger atoms (`qe/presburger.ml`)

`Presburger.to_presburger v t` turns a conjunction of linear integer atoms into a `cformula`. It
folds a node function over the term with `eval_t`, and each subterm becomes an `iformula`: an
integer term a polynomial, an atom a conjunction of `Poly.preAtom`s. A relation becomes a strict
positivity or an equation (`x <= y` is `y - x + 1 > 0`, `not (p > 0)` is `1 - p > 0`), and a
chain of a relation the conjunction of its links (`unchain_*_to_iformula`). `term_of_cformula`
turns the atoms back into terms.

`compare_variables v` puts the variables of `v` first only under the flag `order_var_by_elim`.
Under its default it is `Var.compare_vars`, the linear order of `V` that `Poly` uses, so the list
`v` is not read. The exceptions `Failure` (of `failwith`) and `Not_in_LIA` are the errors of the
model. The cases of attributes, arrays and uninterpreted functions do not arise for `Term`.
-/

namespace Kind2.QE
namespace Presburger

open Simplify (chainList)
open Simplify.Symbolic (mkNum)
open Term (except_bind_eq_ok)

variable {V : Type}

/-- `iformula`: a polynomial, or a conjunction of atoms. -/
inductive Iformula (V : Type)
  | poly (p : Poly V)
  | formula (cf : Cformula V)
  deriving DecidableEq

/-- The exceptions of `to_presburger`: `Failure msg`, and `Not_in_LIA`. -/
inductive Exn
  | failure (msg : String)
  | notInLIA
  deriving DecidableEq, Repr

/-- `failwith msg`. -/
abbrev failwith {α : Type} (msg : String) : Except Exn α := .error (.failure msg)

/-! ## The helpers of the fold -/

/-- `combine_singleton_to_iformula`. -/
def combineSingletonToIformula : Iformula V → Iformula V → Except Exn (Iformula V)
  | .formula [pret1], .formula cf2 => .ok (.formula (pret1 :: cf2))
  | _, _ =>
    failwith "The first Presburger formula must be a singleton in combine_singleton_to_iformula."

/-- One step of the fold of `add_iformula_list` and `multiply_iformula_list`: `op` on the sum
or product so far and the next polynomial. -/
def polyStep (op : Poly V → Poly V → Except Exn (Poly V)) (msg : String) (accum : Poly V) :
    Iformula V → Except Exn (Poly V)
  | .poly pl2 => op accum pl2
  | _ => failwith msg

/-- The fold of `add_iformula_list` and `multiply_iformula_list`: `op` folded over a non-empty
list of polynomials, from its head. -/
def foldIformulaList (op : Poly V → Poly V → Except Exn (Poly V)) (emptyMsg msg : String) :
    List (Iformula V) → Except Exn (Poly V)
  | [] => failwith emptyMsg
  | [.poly pl] => .ok pl
  | .poly pl :: ifl' => ifl'.foldlM (polyStep op msg) pl
  | _ => failwith msg

/-- One step of the fold of `unchain_*_to_iformula`: the atom `atom pl1 pl2` of the previous
polynomial and the next one is added to the conjunction, and the next one is remembered. -/
def unchainStep (atom : Poly V → Poly V → PreAtom V) (polyMsg : String) :
    Iformula V × Iformula V → Iformula V → Except Exn (Iformula V × Iformula V)
  | (.poly pl1, accum), .poly pl2 => do
    let accum' ← combineSingletonToIformula (.formula [atom pl1 pl2]) accum
    pure (.poly pl2, accum')
  | _, _ => failwith polyMsg

/-- The fold of the five `unchain_*_to_iformula`: the atoms of each two consecutive polynomials
of the chain, collected in reverse. -/
def unchainToIformula (atom : Poly V → Poly V → PreAtom V) (chainMsg polyMsg : String) :
    List (Iformula V) → Except Exn (Iformula V)
  | [] | [_] => failwith chainMsg
  | if1 :: ifl' => do
    let r ← ifl'.foldlM (unchainStep atom polyMsg) (if1, .formula [])
    pure r.2

section Code

variable [LinearOrder V]

/-- `add_iformula_list`. -/
def addIformulaList : List (Iformula V) → Except Exn (Poly V) :=
  foldIformulaList (fun pl1 pl2 => .ok (addTwoPolys [] pl1 pl2))
    "add_iformula_list can only add up polynomials."
    "add_iformula_list can only add up polynomials."

/-- `multiply_iformula_list`, with the `Failure` of `multiply_two_polys`. -/
def multiplyIformulaList : List (Iformula V) → Except Exn (Poly V) :=
  foldIformulaList (fun pl1 pl2 => (multiplyTwoPolys pl1 pl2).mapError .failure)
    "multiply_iformula_list doesn't take empty list."
    "multiply_iformula_list can only multiply polynomials."

/-- `unchain_EQ_to_iformula`: `x = y` becomes `-x + y = 0`. -/
def unchainEQToIformula : List (Iformula V) → Except Exn (Iformula V) :=
  unchainToIformula (fun pl1 pl2 => .eq (addTwoPolys [] (negatePoly pl1) pl2))
    "The chain of EQ must have at least two elements." "EQ can only work with list of polynomials"

/-- `unchain_LEQ_to_iformula`: `x <= y` becomes `y - x + 1 > 0`. -/
def unchainLEQToIformula : List (Iformula V) → Except Exn (Iformula V) :=
  unchainToIformula
    (fun pl1 pl2 => .gt (addTwoPolys [] (addTwoPolys [] (negatePoly pl1) pl2) [(1, none)]))
    "The chain of LEQ must have at least two elements."
    "LEQ can only work with list of polynomials."

/-- `unchain_LT_to_iformula`: `x < y` becomes `y - x > 0`. -/
def unchainLTToIformula : List (Iformula V) → Except Exn (Iformula V) :=
  unchainToIformula (fun pl1 pl2 => .gt (addTwoPolys [] (negatePoly pl1) pl2))
    "The chain of LT must have at least two elements." "LT can only work with list of polynomials."

/-- `unchain_GEQ_to_iformula`: `x >= y` becomes `x - y + 1 > 0`. -/
def unchainGEQToIformula : List (Iformula V) → Except Exn (Iformula V) :=
  unchainToIformula
    (fun pl1 pl2 => .gt (addTwoPolys [] (addTwoPolys [] pl1 (negatePoly pl2)) [(1, none)]))
    "The chain of GEQ must have at least two elements."
    "GEQ can only work with list of polynomials."

/-- `unchain_GT_to_iformula`: `x > y` becomes `x - y > 0`. -/
def unchainGTToIformula : List (Iformula V) → Except Exn (Iformula V) :=
  unchainToIformula (fun pl1 pl2 => .gt (addTwoPolys [] pl1 (negatePoly pl2)))
    "The chain of GT must have at least two elements." "GT can only work with list of polynomials."

/-- The `AND` case on two or more arguments: the concatenation of conjunctions. -/
def andStep : Iformula V → Iformula V → Except Exn (Iformula V)
  | .formula cf1, .formula cf2 => .ok (.formula (cf1 ++ cf2))
  | _, _ => failwith "AND only takes formula as arguments, not polynomial."

/-! ## The fold -/

/-- The cases of the node function of `to_presburger` for a symbol, applied to nothing (a
constant) or to the results of its arguments. -/
def presburgerOfSymbol : Symbol → List (Iformula V) → Except Exn (Iformula V)
  | .bool true, _ => .ok (.formula [.gt [(1, none)]])
  | .bool false, _ => .ok (.formula [.gt [(-1, none)]])
  | .not, [.formula [.gt pl]] =>
    .ok (.formula [.gt (addTwoPolys [] [(1, none)] (negatePoly pl))])
  | .not, [.formula [.eq pl]] => .ok (.formula [.ineq pl])
  | .not, [.formula [.ineq pl]] => .ok (.formula [.eq pl])
  | .not, [.formula [.divisible i pl]] => .ok (.formula [.indivisible i pl])
  | .not, [.formula [.indivisible i pl]] => .ok (.formula [.divisible i pl])
  | .not, [.formula _] =>
    failwith "NOT only take one argument, and can only appear in the atom level."
  | .implies, _ => failwith "Presburger atoms may not conatin Boolean operators."
  | .and, [] => failwith "AND must take at least one argument."
  | .and, [.formula cf] => .ok (.formula cf)
  | .and, ifm :: l' => l'.foldlM andStep ifm
  | .or, _ | .xor, _ | .distinct, _ | .ite, _ =>
    failwith "Presburger atoms may not conatin Boolean operators."
  | .eq, ifl => unchainEQToIformula ifl
  | .numeral i, _ => .ok (.poly [(i, none)])
  | .decimal _, _ => .error .notInLIA
  | .minus, [.poly pl1] => .ok (.poly (negatePoly pl1))
  | .minus, [_] => failwith "MINUS only takes polynomials."
  | .minus, .poly pl1 :: ifl => do
    let s ← addIformulaList ifl
    pure (.poly (addTwoPolys [] pl1 (negatePoly s)))
  | .minus, _ :: _ => failwith "MINUS only takes polynomials."
  | .plus, ifl => do pure (.poly (← addIformulaList ifl))
  | .times, ifl => do pure (.poly (← multiplyIformulaList ifl))
  | .leq, ifl => unchainLEQToIformula ifl
  | .lt, ifl => unchainLTToIformula ifl
  | .geq, ifl => unchainGEQToIformula ifl
  | .gt, ifl => unchainGTToIformula ifl
  | .div, _ | .intdiv, _ | .mod, _ | .abs, _ | .toReal, _ | .toInt, _ | .isInt, _ =>
    .error .notInLIA
  | .divisible i, [.poly pl] => .ok (.formula [.divisible i pl])
  | .not, _ | .minus, _ | .divisible _, _ => .error .notInLIA

/-- The node function of `to_presburger`: a variable is the polynomial `1·x`. -/
def toPresburgerNode : Node V → List (Iformula V) → Except Exn (Iformula V)
  | .var var, _ => .ok (.poly [(1, some var)])
  | .const sym, args | .app sym, args => presburgerOfSymbol sym args

/-- `to_presburger v gf`: the conjunction of atoms of `gf`; a term that is a polynomial is an
`open polynomial`. -/
def toPresburger (_v : List V) (gf : Term V) : Except Exn (Cformula V) := do
  match ← Term.evalT toPresburgerNode gf with
  | .poly _ => failwith "open polynomial"
  | .formula f => pure f

end Code

/-! ## Back to terms -/

/-- `term_of_psummand`. -/
def termOfPsummand : Psummand V → Term V
  | (c, some v) => .app .times [mkNum c, .var v]
  | (c, none) => mkNum c

/-- `term_of_poly`; `Term.mk_plus` of two or more summands is their sum. -/
def termOfPoly : Poly V → Term V
  | [] => mkNum 0
  | [smd] => termOfPsummand smd
  | l => .app .plus (l.map termOfPsummand)

/-- `term_of_preAtom`: an atom of the empty polynomial is `true` or `false`. -/
def termOfPreAtom : PreAtom V → Term V
  | .gt [] => Term.mkBool false
  | .gt poly => .app .gt [termOfPoly poly, mkNum 0]
  | .eq [] => Term.mkBool true
  | .eq poly => .app .eq [termOfPoly poly, mkNum 0]
  | .ineq [] => Term.mkBool false
  | .ineq poly => Term.mkNot (.app .eq [termOfPoly poly, mkNum 0])
  | .divisible _ [] => Term.mkBool true
  | .divisible i poly => .app (.divisible i) [termOfPoly poly]
  | .indivisible _ [] => Term.mkBool false
  | .indivisible i poly => Term.mkNot (.app (.divisible i) [termOfPoly poly])

/-- `term_of_cformula`. -/
def termOfCformula (l : Cformula V) : List (Term V) := l.map termOfPreAtom

/-! ## What the folds compute -/

section Folds

variable {op : Poly V → Poly V → Except Exn (Poly V)} {msg : String}

/-- The fold of `polyStep` succeeds on polynomials only, where it is the fold of `op`. -/
theorem foldlM_polyStep_eq_ok : ∀ (l : List (Iformula V)) {a p : Poly V},
    l.foldlM (polyStep op msg) a = .ok p →
      ∃ pls : List (Poly V), l = pls.map .poly ∧ pls.foldlM op a = .ok p
  | [], _, _, h => ⟨[], rfl, h⟩
  | .poly q :: l, _, _, h => by
    rw [List.foldlM_cons] at h
    obtain ⟨a', ha', h⟩ := except_bind_eq_ok.mp h
    obtain ⟨pls, rfl, hp⟩ := foldlM_polyStep_eq_ok l h
    refine ⟨q :: pls, rfl, ?_⟩
    rw [List.foldlM_cons, except_bind_eq_ok]
    exact ⟨a', ha', hp⟩
  | .formula _ :: _, _, _, h => by
    rw [List.foldlM_cons] at h
    obtain ⟨_, ha', _⟩ := except_bind_eq_ok.mp h
    cases ha'

/-- `add_iformula_list` and `multiply_iformula_list` succeed on a non-empty list of polynomials
only, folding `op` over it from its head. -/
theorem foldIformulaList_eq_ok {emptyMsg : String} {ifl : List (Iformula V)} {p : Poly V}
    (h : foldIformulaList op emptyMsg msg ifl = .ok p) :
    ∃ (pl : Poly V) (pls : List (Poly V)),
      ifl = .poly pl :: pls.map .poly ∧ pls.foldlM op pl = .ok p := by
  match ifl, h with
  | [.poly pl], h => exact ⟨pl, [], rfl, h⟩
  | .poly pl :: e :: ifl', h =>
    obtain ⟨pls, hpls, hp⟩ := foldlM_polyStep_eq_ok (e :: ifl') h
    exact ⟨pl, pls, by rw [hpls], hp⟩
  | [], h | [.formula _], h | .formula _ :: _ :: _, h => cases h

variable {atom : Poly V → Poly V → PreAtom V} {polyMsg : String}

/-- From the polynomial `pl` and the conjunction `cf`, the fold of `unchainStep` adds the atoms
of the links of the chain in reverse. -/
theorem foldlM_unchainStep_eq_ok : ∀ (l : List (Iformula V)) {pl : Poly V} {cf : Cformula V}
    {r : Iformula V × Iformula V},
    l.foldlM (unchainStep atom polyMsg) (.poly pl, .formula cf) = .ok r →
    ∃ pls : List (Poly V), l = pls.map .poly ∧
      r.2 = .formula (((chainList (pl :: pls)).map fun q => atom q.1 q.2).reverse ++ cf)
  | [], _, _, _, h => by
    cases h
    exact ⟨[], rfl, by simp⟩
  | .poly q :: l, pl, cf, _, h => by
    rw [List.foldlM_cons] at h
    obtain ⟨pls, rfl, hr⟩ := foldlM_unchainStep_eq_ok l h
    refine ⟨q :: pls, rfl, ?_⟩
    rw [hr]
    simp
  | .formula _ :: _, _, _, _, h => by
    rw [List.foldlM_cons] at h
    obtain ⟨_, hs, _⟩ := except_bind_eq_ok.mp h
    cases hs

/-- A relation of a chain succeeds on two or more polynomials only, and gives the atoms of its
links. -/
theorem unchainToIformula_eq_ok {chainMsg : String} {ifl : List (Iformula V)} {r : Iformula V}
    (h : unchainToIformula atom chainMsg polyMsg ifl = .ok r) :
    ∃ (pl : Poly V) (pls : List (Poly V)), ifl = .poly pl :: pls.map .poly ∧ pls ≠ [] ∧
      r = .formula ((chainList (pl :: pls)).map fun q => atom q.1 q.2).reverse := by
  match ifl, h with
  | .poly pl :: e :: l, h =>
    obtain ⟨s, hs, hr⟩ := except_bind_eq_ok.mp h
    obtain ⟨pls, hpls, hs2⟩ := foldlM_unchainStep_eq_ok (e :: l) hs
    cases hr
    refine ⟨pl, pls, by rw [hpls], ?_, by rw [hs2, List.append_nil]⟩
    rintro rfl
    cases hpls
  | .formula _ :: e :: l, h =>
    obtain ⟨s, hs, _⟩ := except_bind_eq_ok.mp h
    rw [List.foldlM_cons] at hs
    obtain ⟨_, hs', _⟩ := except_bind_eq_ok.mp hs
    cases hs'
  | [], h | [_], h => cases h

/-- On polynomials, the fold of `unchainStep` succeeds with the atoms of the links of the chain. -/
theorem foldlM_unchainStep_polys : ∀ (pls : List (Poly V)) (pl : Poly V) (cf : Cformula V),
    ∃ e, (pls.map .poly).foldlM (unchainStep atom polyMsg) (.poly pl, .formula cf) =
      .ok (e, .formula (((chainList (pl :: pls)).map fun q => atom q.1 q.2).reverse ++ cf))
  | [], pl, cf => ⟨.poly pl, by
    rw [List.map_nil, List.foldlM_nil, Simplify.chainList_singleton]
    rfl⟩
  | q :: pls, pl, cf => by
    obtain ⟨e, he⟩ := foldlM_unchainStep_polys pls q (atom pl q :: cf)
    refine ⟨e, ?_⟩
    rw [List.map_cons, List.foldlM_cons]
    show (pls.map .poly).foldlM (unchainStep atom polyMsg) (.poly q, .formula (atom pl q :: cf)) = _
    rw [he]
    simp

/-- A relation of a chain of two or more polynomials gives the atoms of its links. -/
theorem unchainToIformula_polys {chainMsg : String} (pl : Poly V) {pls : List (Poly V)}
    (hne : pls ≠ []) :
    unchainToIformula atom chainMsg polyMsg (.poly pl :: pls.map .poly) =
      .ok (.formula ((chainList (pl :: pls)).map fun q => atom q.1 q.2).reverse) := by
  obtain ⟨q, qs, rfl⟩ := List.exists_cons_of_ne_nil hne
  obtain ⟨e, he⟩ := @foldlM_unchainStep_polys V atom polyMsg (q :: qs) pl []
  rw [List.map_cons, unchainToIformula, ← List.map_cons, he, List.append_nil]
  · rfl
  · simp

/-- The `AND` fold from a conjunction succeeds on conjunctions only, and concatenates them. -/
theorem foldlM_andStep_eq_ok : ∀ (l : List (Iformula V)) {cf : Cformula V} {r : Iformula V},
    l.foldlM andStep (.formula cf) = .ok r →
    ∃ cfs : List (Cformula V), l = cfs.map .formula ∧ r = .formula (cf ++ cfs.flatten)
  | [], _, _, h => by
    cases h
    exact ⟨[], rfl, by simp⟩
  | .formula cf' :: l, cf, _, h => by
    rw [List.foldlM_cons] at h
    obtain ⟨cfs, rfl, rfl⟩ := foldlM_andStep_eq_ok l h
    exact ⟨cf' :: cfs, rfl, by simp⟩
  | .poly _ :: _, _, _, h => by
    rw [List.foldlM_cons] at h
    obtain ⟨_, hs, _⟩ := except_bind_eq_ok.mp h
    cases hs

end Folds

/-- `to_presburger` returns the conjunction its fold reaches. -/
theorem toPresburger_eq_ok [LinearOrder V] {elim : List V} {t : Term V} {cf : Cformula V}
    (h : toPresburger elim t = .ok cf) : Term.evalT toPresburgerNode t = .ok (.formula cf) := by
  obtain ⟨r, hr, h⟩ := except_bind_eq_ok.mp h
  cases r with
  | poly _ => cases h
  | formula _ =>
    cases h
    exact hr

end Presburger
end Kind2.QE
