import Kind2.Terms.Term
import Kind2.Terms.Decimal

/-!
# The simplifier on arithmetic terms (`src/simplify.ml`)

`Simplify.simplify_term [] t` folds `simplify_term_node` over `t` with an empty model, so that
every variable becomes an atom, and turns the normal form it reaches back into a term
(`term_of_nf`). An integer or real term becomes a polynomial: a constant and a sorted list of
monomials, each a coefficient times a list of atoms. A subterm that is neither a sum nor a product
(a division, `abs`, a conversion, `div` or `mod` of non-constant arguments) becomes a new atom. The
polynomials are added and multiplied with `add_monomial_lists` and `multiply_monomial_lists`, which
order atoms by `Term.compare`, the order of hash-consing; the model takes that order as the
parameter `cmp`.

This module models the cases of `simplify_term_node` that build and combine polynomials: variables
and constants, `+`, `-`, `*`, `/`, `div`, `mod`, `abs`, `to_int`, `to_real`, `divisible` and
`ite`, with every `assert false` of these cases. The cases of the Boolean connectives and of the
relations, which rewrite Boolean terms into negation normal form, end with `notModelled`; the real
coefficients are `Decimal`s, and a non-finite one, which `Term.mk_dec` cannot print as a rational
constant of `Term`, ends with `nonFinite`. The global flag `division_by_zero` that the `DIV` case
sets is not modelled.
-/

namespace Kind2
namespace Simplify
namespace Symbolic

/-- `'a monomial`: a coefficient times a list of atoms. -/
abbrev Monomial (α V : Type) := α × List (Term V)

/-- `'a polynomial`: a constant and a list of monomials. -/
abbrev Polynomial (α V : Type) := α × List (Monomial α V)

/-- `Simplify.t` without arrays. -/
inductive SNF (V : Type) where
  | num (p : Polynomial Int V)
  | dec (p : Polynomial Decimal V)
  | bool (b : Term V)

/-- Why the simplifier stops: an exception of the source, a real constant that is not a rational,
or a case this module does not model. -/
inductive Stop where
  | exn (e : Exn)
  | nonFinite
  | notModelled
  deriving DecidableEq, Repr

/-- `assert false`. -/
abbrev assertFalse {α : Type} : Except Stop α := .error (.exn .assertFailure)

/-- `invalid_arg msg`. -/
abbrev invalidArg {α : Type} (msg : String) : Except Stop α :=
  .error (.exn (.invalidArgument msg))

variable {V : Type}

/-! ## Term constructors -/

/-- The constructor of a variadic operator: `Invalid_argument` without arguments, and the one
argument itself. -/
def mkVariadic (s : Symbol) (name : String) : List (Term V) → Except Stop (Term V)
  | [] => invalidArg name
  | [a] => .ok a
  | a => .ok (.app s a)

/-- `Term.mk_plus`. -/
def mkPlus : List (Term V) → Except Stop (Term V) := mkVariadic .plus "Term.mk_plus"

/-- `Term.mk_times`. -/
def mkTimes : List (Term V) → Except Stop (Term V) := mkVariadic .times "Term.mk_times"

/-- `Term.mk_div`. -/
def mkDiv : List (Term V) → Except Stop (Term V) := mkVariadic .div "Term.mk_div"

/-- `Term.mk_intdiv`. -/
def mkIntdiv : List (Term V) → Except Stop (Term V) := mkVariadic .intdiv "Term.mk_intdiv"

/-- `Term.mk_num`: a negative numeral is the negation of its absolute value. -/
def mkNum (n : Int) : Term V :=
  if 0 ≤ n then .const (.numeral n) else .app .minus [.const (.numeral (-n))]

/-- `Term.mk_dec` on a rational, with a negative one wrapped in a negation. -/
def mkDec : Decimal → Except Stop (Term V)
  | .n d => .ok (if 0 ≤ d then .const (.decimal d) else .app .minus [.const (.decimal (-d))])
  | _ => .error .nonFinite

/-! ## From normal forms to terms -/

section ToTerm

variable {α : Type} (isZero isOne : α → Bool) (mkZero : Term V)
  (mkConst : α → Except Stop (Term V))

/-- `term_list_of_monomial_list`: each monomial as the product of its coefficient and atoms. -/
def termListOfMonomialList (l : List (Monomial α V)) : Except Stop (List (Term V)) :=
  l.mapM fun m =>
    if isOne m.1 then mkTimes m.2
    else if isZero m.1 then pure mkZero
    else do mkTimes ((← mkConst m.1) :: m.2)

/-- `term_of_polynomial`: the sum of the constant, unless it is zero, and the monomials. -/
def termOfPolynomial : Polynomial α V → Except Stop (Term V)
  | (c, []) => if isZero c then pure mkZero else mkConst c
  | (c, l) =>
    if isZero c then do mkPlus (← termListOfMonomialList isZero isOne mkZero mkConst l)
    else do
      let ts ← termListOfMonomialList isZero isOne mkZero mkConst l
      mkPlus ((← mkConst c) :: ts)

end ToTerm

/-- `term_of_num_polynomial`. -/
def termOfNumPolynomial : Polynomial Int V → Except Stop (Term V) :=
  termOfPolynomial (· == 0) (· == 1) (mkNum 0) fun n => pure (mkNum n)

/-- `term_of_dec_polynomial`. -/
def termOfDecPolynomial : Polynomial Decimal V → Except Stop (Term V) :=
  termOfPolynomial (Decimal.equal .zero) (Decimal.equal .one) (.const (.decimal 0)) mkDec

/-- `term_of_nf`. -/
def termOfNF : SNF V → Except Stop (Term V)
  | .num p => termOfNumPolynomial p
  | .dec p => termOfDecPolynomial p
  | .bool b => .ok b

/-- `atom_of_term`: a term as an atom of its type. -/
def atomOfTerm (varType : V → Ty) (t : Term V) : Except Stop (SNF V) := do
  match ← (Term.typeOf varType t).mapError .exn with
  | .int => pure (.num (0, [(1, [t])]))
  | .real => pure (.dec (.zero, [(.one, [t])]))
  | .bool => pure (.bool t)

/-! ## Arithmetic on polynomials -/

/-- `compare_lists`: the lexicographic order of lists. -/
def compareLists {β : Type} (f : β → β → Ordering) : List β → List β → Ordering
  | [], [] => .eq
  | [], _ => .lt
  | _, [] => .gt
  | h1 :: tl1, h2 :: tl2 =>
    match f h1 h2 with
    | .eq => compareLists f tl1 tl2
    | c => c

/-- `List.for_all2`, which raises `Invalid_argument` when it reaches the end of one list before
the other. -/
def forAll2 {β γ : Type} (p : β → γ → Bool) : List β → List γ → Except Stop Bool
  | [], [] => .ok true
  | a :: l1, b :: l2 => if p a b then forAll2 p l1 l2 else .ok false
  | _, _ => invalidArg "List.for_all2"

section Arith

variable [DecidableEq V] (cmp : Term V → Term V → Ordering) {α : Type}

/-- `compare_monomials`: by their atoms. -/
def compareMonomials (m1 m2 : Monomial α V) : Ordering := compareLists cmp m1.2 m2.2

/-- `add_monomial_lists add is_zero l1 l2`: the merge of two sorted lists of monomials into a
reversed accumulator. Monomials are equal when `List.for_all2 Term.equal` holds of their atoms; the
guard's length test compares the length of the first list with itself. -/
def addMonomialLists (add : α → α → α) (isZero : α → Bool) (accum : List (Monomial α V)) :
    List (Monomial α V) → List (Monomial α V) → Except Stop (List (Monomial α V))
  | l1, [] => .ok (accum.reverseAux l1)
  | [], l2 => .ok (accum.reverseAux l2)
  | (c1, t1) :: tl1, (c2, t2) :: tl2 =>
    match forAll2 (fun a b => decide (a = b)) t1 t2 with
    | .error e => .error e
    | .ok true =>
      if isZero (add c1 c2) then addMonomialLists add isZero accum tl1 tl2
      else addMonomialLists add isZero ((add c1 c2, t1) :: accum) tl1 tl2
    | .ok false =>
      if compareLists cmp t1 t2 = .lt then
        addMonomialLists add isZero ((c1, t1) :: accum) tl1 ((c2, t2) :: tl2)
      else addMonomialLists add isZero ((c2, t2) :: accum) ((c1, t1) :: tl1) tl2
termination_by l1 l2 => l1.length + l2.length

/-- `add_polynomials add zero is_zero p`: the sum of the constants and the merge of the lists of
monomials. -/
def addPolynomials (add : α → α → α) (zero : α) (isZero : α → Bool)
    (p : List (Polynomial α V)) : Except Stop (Polynomial α V) := do
  let m' ← (p.map Prod.snd).foldlM (addMonomialLists cmp add isZero []) []
  pure ((p.map Prod.fst).foldl add zero, m')

/-- `const_multiply_monomial_list mult d m`. -/
def constMultiplyMonomialList (mult : α → α → α) (d : α) (m : List (Monomial α V)) :
    List (Monomial α V) :=
  m.map fun x => (mult x.1 d, x.2)

/-- `const_multiply_polynomial mult d p`; `negate_polynomial` is the product with minus one. -/
def constMultiplyPolynomial (mult : α → α → α) (d : α) (p : Polynomial α V) : Polynomial α V :=
  (mult d p.1, constMultiplyMonomialList mult d p.2)

/-- `List.sort compare_monomials`, a stable merge sort. -/
def sortMonomials (l : List (Monomial α V)) : List (Monomial α V) :=
  l.mergeSort fun a b => compareMonomials cmp a b != .gt

/-- `multiply_monomial_lists mult l1 l2`: the products of each monomial of `l1` with each of
`l2`, their atoms merged with `List.merge Term.compare`, sorted. -/
def multiplyMonomialLists (mult : α → α → α) :
    List (Monomial α V) → List (Monomial α V) → List (Monomial α V)
  | [], _ | _, [] => []
  | l1, l2 =>
    sortMonomials cmp
      (l1.flatMap fun m1 => l2.map fun m2 =>
        (mult m1.1 m2.1, List.merge m1.2 m2.2 fun a b => cmp a b != .gt)).reverse

/-- `multiply_polynomials mult p1 p2`: `(c1 + m1)·(c2 + m2)` as `c1·c2 + (m1·m2 + c2·m1 + c1·m2)`. -/
def multiplyPolynomials (mult : α → α → α) (p1 p2 : Polynomial α V) : Polynomial α V :=
  (mult p1.1 p2.1, sortMonomials cmp (multiplyMonomialLists cmp mult p1.2 p2.2 ++
    constMultiplyMonomialList mult p2.1 p1.2 ++ constMultiplyMonomialList mult p1.1 p2.2))

end Arith

/-! ## The arithmetic cases of `simplify_term_node` -/

/-- `num_polynomial_of_nf`. -/
def numPolynomialOfNF : SNF V → Except Stop (Polynomial Int V)
  | .num p => .ok p
  | _ => assertFalse

/-- `dec_polynomial_of_nf`. -/
def decPolynomialOfNF : SNF V → Except Stop (Polynomial Decimal V)
  | .dec p => .ok p
  | _ => assertFalse

/-- `is_constant`: a polynomial without monomials, or `true` or `false`. -/
def isConstant [DecidableEq V] : SNF V → Bool
  | .num (_, []) | .dec (_, []) => true
  | .bool b => b = .const (.bool true) || b = .const (.bool false)
  | _ => false

/-- `const_of_num_polynomial`. -/
def constOfNumPolynomial : SNF V → Except Stop Int
  | .num p => .ok p.1
  | _ => assertFalse

/-- `const_of_dec_polynomial`, which takes the constant of an integer polynomial too. -/
def constOfDecPolynomial : SNF V → Except Stop Decimal
  | .dec p => .ok p.1
  | .num p => .ok (.n p.1)
  | _ => assertFalse

section Node

variable [DecidableEq V] (cmp : Term V → Term V → Ordering)

/-- `add_num_polynomials`. -/
def addNumPolynomials (p : List (Polynomial Int V)) : Except Stop (Polynomial Int V) :=
  addPolynomials cmp (· + ·) 0 (· == 0) p

/-- `add_dec_polynomials`. -/
def addDecPolynomials (p : List (Polynomial Decimal V)) : Except Stop (Polynomial Decimal V) :=
  addPolynomials cmp Decimal.add .zero (Decimal.equal .zero) p

/-- `negate_num_polynomial`. -/
def negateNumPolynomial (p : Polynomial Int V) : Polynomial Int V :=
  constMultiplyPolynomial (· * ·) (-1) p

/-- `negate_dec_polynomial`. -/
def negateDecPolynomial (p : Polynomial Decimal V) : Polynomial Decimal V :=
  constMultiplyPolynomial Decimal.mult (Decimal.neg .one) p

/-- `add`: the sum, as integer or real polynomials after the first argument. -/
def add : List (SNF V) → Except Stop (SNF V)
  | [] => assertFalse
  | args@(.num _ :: _) => do .num <$> addNumPolynomials cmp (← args.mapM numPolynomialOfNF)
  | args@(.dec _ :: _) => do .dec <$> addDecPolynomials cmp (← args.mapM decPolynomialOfNF)
  | _ => assertFalse

/-- `minus`: the negation, or the first argument minus the sum of the others. -/
def minus : List (SNF V) → Except Stop (SNF V)
  | [] => assertFalse
  | [.num p] => .ok (.num (negateNumPolynomial p))
  | [.dec p] => .ok (.dec (negateDecPolynomial p))
  | .num p :: tl => do
    let s ← addNumPolynomials cmp (← tl.mapM numPolynomialOfNF)
    .num <$> addNumPolynomials cmp [p, negateNumPolynomial s]
  | .dec p :: tl => do
    let s ← addDecPolynomials cmp (← tl.mapM decPolynomialOfNF)
    .dec <$> addDecPolynomials cmp [p, negateDecPolynomial s]
  | _ => assertFalse

/-- `times`: the product, as integer or real polynomials after the first argument. -/
def times : List (SNF V) → Except Stop (SNF V)
  | [] => assertFalse
  | .num p :: tl => do
    let ps ← tl.mapM numPolynomialOfNF
    pure (.num (ps.foldl (multiplyPolynomials cmp (· * ·)) p))
  | .dec p :: tl => do
    let ps ← tl.mapM decPolynomialOfNF
    pure (.dec (ps.foldl (multiplyPolynomials cmp Decimal.mult) p))
  | _ => assertFalse

/-- The `DIV` case: the quotient of constants, or a new atom. The atom is an integer polynomial. -/
def divCase (args : List (SNF V)) : Except Stop (SNF V) :=
  if args.all isConstant then do
    match ← args.mapM constOfDecPolynomial with
    | [] | [_] => assertFalse
    | h :: tl => pure (.dec (tl.foldl Decimal.div h, []))
  else do
    let t ← mkDiv (← args.mapM termOfNF)
    pure (.num (0, [(1, [t])]))

/-- Integer division and remainder (`Numeral.(/)`, `Numeral.(mod)`), `Division_by_zero` by zero. -/
def intDiv (a b : Int) : Except Stop Int :=
  if b = 0 then .error (.exn .divisionByZero) else .ok (a / b)

/-- The `INTDIV` case: the quotient of constants, or a new atom. -/
def intdivCase (args : List (SNF V)) : Except Stop (SNF V) :=
  if args.all isConstant then do
    match ← args.mapM constOfNumPolynomial with
    | [] | [_] => assertFalse
    | h :: tl => pure (.num (← tl.foldlM intDiv h, []))
  else do
    let t ← mkIntdiv (← args.mapM termOfNF)
    pure (.num (0, [(1, [t])]))

/-- The `MOD` case. -/
def modCase : List (SNF V) → Except Stop (SNF V)
  | [.num (n, []), .num (m, [])] =>
    if m = 0 then .error (.exn .divisionByZero) else .ok (.num (n % m, []))
  | [a, b] => do
    let ta ← termOfNF a
    let tb ← termOfNF b
    pure (.num (0, [(1, [.app .mod [ta, tb]])]))
  | _ => assertFalse

/-- The `ABS` case: the absolute value of a constant, or a new integer atom. -/
def absCase : List (SNF V) → Except Stop (SNF V)
  | [.num (n, [])] => .ok (.num (|n|, []))
  | [.dec (d, [])] => .ok (.dec (Decimal.abs d, []))
  | [a] => do pure (.num (0, [(1, [.app .abs [← termOfNF a]])]))
  | _ => assertFalse

/-- The `TO_INT` case. -/
def toIntCase : List (SNF V) → Except Stop (SNF V)
  | [.dec (d, [])] =>
    match Decimal.toBigInt d with
    | .ok i => .ok (.num (i, []))
    | .error msg => invalidArg msg
  | [.dec p] => do pure (.num (0, [(1, [.app .toInt [← termOfNF (.dec p)]])]))
  | _ => assertFalse

/-- The `TO_REAL` case: a constant, or a new real atom built with `Term.mk_to_int`. -/
def toRealCase : List (SNF V) → Except Stop (SNF V)
  | [.num (n, [])] => .ok (.dec (.n n, []))
  | [.num p] => do pure (.dec (.zero, [(.one, [.app .toInt [← termOfNF (.num p)]])]))
  | _ => assertFalse

/-- The `DIVISIBLE n` case. -/
def divisibleCase (varType : V → Ty) (n : Int) : List (SNF V) → Except Stop (SNF V)
  | [.num d] =>
    if d.2.isEmpty then
      if n = 0 then .error (.exn .divisionByZero)
      else .ok (.bool (.const (.bool (d.1 % n == 0))))
    else do atomOfTerm varType (.app (.divisible n) [← termOfNumPolynomial d])
  | _ => assertFalse

/-- The `ITE` case. -/
def iteCase (varType : V → Ty) : List (SNF V) → Except Stop (SNF V)
  | [.bool p, l, r] =>
    if p = .const (.bool true) then .ok l
    else if p = .const (.bool false) then .ok r
    else match l, r with
      | .bool l, .bool r => .ok (.bool (.app .ite [p, l, r]))
      | .num l, .num r => do
        let tl ← termOfNumPolynomial l
        let tr ← termOfNumPolynomial r
        atomOfTerm varType (.app .ite [p, tl, tr])
      | .dec l, .dec r => do
        let tl ← termOfDecPolynomial l
        let tr ← termOfDecPolynomial r
        atomOfTerm varType (.app .ite [p, tl, tr])
      | _, _ => assertFalse
  | _ => assertFalse

/-- `simplify_term_node` with an empty model, where every variable is its own default and becomes
an atom. -/
def simplifyTermNode (varType : V → Ty) : Node V → List (SNF V) → Except Stop (SNF V)
  | .var v, _ => atomOfTerm varType (.var v)
  | .const (.numeral n), _ => .ok (.num (n, []))
  | .const (.decimal d), _ => .ok (.dec (.n d, []))
  | .const (.bool b), _ => .ok (.bool (.const (.bool b)))
  | .const _, _ => assertFalse
  | .app s, args =>
    match s with
    | .plus => add cmp args
    | .minus => minus cmp args
    | .times => times cmp args
    | .div => divCase args
    | .intdiv => intdivCase args
    | .mod => modCase args
    | .abs => absCase args
    | .toInt => toIntCase args
    | .toReal => toRealCase args
    | .divisible n => divisibleCase varType n args
    | .ite => iteCase varType args
    | .isInt | .distinct => assertFalse
    | .bool _ | .numeral _ | .decimal _ => assertFalse
    | .not | .and | .or | .implies | .xor | .eq | .leq | .lt | .geq | .gt => .error .notModelled

/-- `simplify_term [] t`: the normal form of `t`, as a term. -/
def simplifyTerm (varType : V → Ty) (t : Term V) : Except Stop (Term V) := do
  termOfNF (← Term.evalT (simplifyTermNode cmp varType) t)

/-! ## Atoms read back -/

omit [DecidableEq V] in
/-- A polynomial that is one atom with coefficient one is read back as the atom. -/
theorem termOfNumPolynomial_atom (t : Term V) : termOfNumPolynomial (0, [(1, [t])]) = .ok t := rfl

omit [DecidableEq V] in
theorem termOfDecPolynomial_atom (t : Term V) :
    termOfDecPolynomial (.zero, [(.one, [t])]) = .ok t := rfl

omit [DecidableEq V] in
theorem atomOfTerm_var_int {varType : V → Ty} {x : V} (hx : varType x = .int) :
    atomOfTerm varType (.var x) = .ok (.num (0, [(1, [.var x])])) := by
  simp [atomOfTerm, Term.typeOf, hx, Except.mapError, bind, Except.bind, pure, Except.pure]

/-- `to_real x` of an integer variable `x` is simplified to `to_int x`: the `TO_REAL` case builds
its atom with `Term.mk_to_int`. The result is an integer term, where `to_real x` is real. -/
theorem simplifyTerm_toReal_var {varType : V → Ty} {x : V} (hx : varType x = .int) :
    simplifyTerm cmp varType (.app .toReal [.var x]) = .ok (.app .toInt [.var x]) ∧
      Term.typeOf varType (.app .toInt [.var x]) = .ok .int ∧
      Term.typeOf varType (.app .toReal [.var x]) = .ok .real := by
  refine ⟨?_, rfl, rfl⟩
  have hnode : Term.evalT (simplifyTermNode cmp varType) (.app .toReal [.var x]) =
      .ok (.dec (.zero, [(.one, [.app .toInt [.var x]])])) := by
    simp only [Term.evalT, Term.evalTList, simplifyTermNode, atomOfTerm_var_int hx, bind,
      Except.bind, pure, Except.pure, toRealCase, termOfNF, termOfNumPolynomial_atom]
  rw [simplifyTerm, hnode]
  exact termOfDecPolynomial_atom _

theorem simplifyTerm_toReal_var_unit :
    (fun _ : Unit => Ty.int) () = .int ∧
      (simplifyTerm (fun _ _ => .eq) (fun _ => Ty.int) (.app .toReal [.var ()]) =
          .ok (.app .toInt [.var ()]) ∧
        Term.typeOf (fun _ => Ty.int) (.app .toInt [.var ()]) = .ok .int ∧
        Term.typeOf (fun _ => Ty.int) (.app .toReal [.var ()]) = .ok .real) :=
  ⟨rfl, simplifyTerm_toReal_var _ rfl⟩

end Node

/-! ## Monomials with equal atoms -/

/-- `List.for_all2` with a reflexive test reaches the end of a list before the end of a list that
extends it, and raises `Invalid_argument`. -/
theorem forAll2_append {β : Type} {p : β → β → Bool} (hp : ∀ a, p a a = true) (u : β)
    (us : List β) : ∀ t : List β, forAll2 p t (t ++ u :: us) = invalidArg "List.for_all2"
  | [] => rfl
  | a :: t => by
    rw [List.cons_append, forAll2, if_pos (hp a)]
    exact forAll2_append hp u us t

section Merge

variable [DecidableEq V] (cmp : Term V → Term V → Ordering) {α : Type} (add : α → α → α)
  (isZero : α → Bool)

/-- `add_monomial_lists` raises `Invalid_argument` when the first monomials of its lists have the
atoms `t` and `t ++ u :: us`: its guard compares the length of `t` with itself, so the comparison
of the atoms by `List.for_all2` runs past the end of `t`. -/
theorem addMonomialLists_append (accum : List (Monomial α V)) (c₁ c₂ : α) (t : List (Term V))
    (u : Term V) (us : List (Term V)) (tl₁ tl₂ : List (Monomial α V)) :
    addMonomialLists cmp add isZero accum ((c₁, t) :: tl₁) ((c₂, t ++ u :: us) :: tl₂) =
      invalidArg "List.for_all2" := by
  rw [addMonomialLists, forAll2_append (p := fun a b => decide (a = b)) (fun a => by simp) u us t]

/-- Adding the polynomials `c₁ + a₁·t` and `c₂ + a₂·(t ++ u :: us)` raises `Invalid_argument`. -/
theorem addPolynomials_append (zero : α) (c₁ c₂ a₁ a₂ : α) (t : List (Term V)) (u : Term V)
    (us : List (Term V)) :
    addPolynomials cmp add zero isZero [(c₁, [(a₁, t)]), (c₂, [(a₂, t ++ u :: us)])] =
      invalidArg "List.for_all2" := by
  -- the fold first adds `a₁·t` to the empty list, then meets `a₂·(t ++ u :: us)`
  have h₁ : addMonomialLists cmp add isZero [] [] [(a₁, t)] = .ok [(a₁, t)] := by
    rw [addMonomialLists]
    · rfl
    · simp
  simp only [addPolynomials, List.map_cons, List.map_nil, List.foldlM_cons, h₁, bind, Except.bind,
    addMonomialLists_append]

end Merge

section Node

variable [DecidableEq V] (cmp : Term V → Term V → Ordering)

/-- Adding polynomials raises `Invalid_argument` when the atoms of a monomial of one extend those
of a monomial of the other, for integer and for real coefficients: `x + x·y` fails. -/
theorem addNumPolynomials_append_atoms (c₁ c₂ a₁ a₂ : Int) (d₁ d₂ b₁ b₂ : Decimal)
    (t : List (Term V)) (u : Term V) (us : List (Term V)) :
    addNumPolynomials cmp [(c₁, [(a₁, t)]), (c₂, [(a₂, t ++ u :: us)])] =
        invalidArg "List.for_all2" ∧
      addDecPolynomials cmp [(d₁, [(b₁, t)]), (d₂, [(b₂, t ++ u :: us)])] =
        invalidArg "List.for_all2" :=
  ⟨addPolynomials_append cmp _ _ _ c₁ c₂ a₁ a₂ t u us,
    addPolynomials_append cmp _ _ _ d₁ d₂ b₁ b₂ t u us⟩

end Node

end Symbolic
end Simplify
end Kind2
