import Kind2.Terms.Term

/-!
# The simplifier on variable-free terms

`Eval.eval_term` evaluates a term under a model by folding `Simplify.simplify_term_node` over
it (`src/simplify.ml:1066`, `:1962`): every node is turned into a normal form, a Boolean term
or an integer or real polynomial. When the model gives every variable a value, every normal
form that arises from a well-typed term is a constant, and this module models the simplifier
on constant normal forms (`NF`): Booleans, integers and rationals.

Where the source builds a non-constant normal form (a polynomial with a monomial), which
happens only for ill-typed arguments once every variable has a value, the model stops with
`Stop.symbolic`; where a real division by zero gives a non-finite decimal, with
`Stop.nonFinite`. Every other branch, including each `assert false`, is kept.
-/

namespace Kind2
namespace Simplify

variable {V : Type}

/-- Constant normal forms (`Simplify.nf`): `Bool t_true`, `Bool t_false`, `Num (n, [])` and
`Dec (d, [])`. -/
inductive NF where
  | bool (b : Bool)
  | num (n : Int)
  | dec (d : ℚ)
  deriving DecidableEq, Repr

/-- Why the fold stops: an exception of the source, or a normal form that the model does not
represent. -/
inductive Stop where
  | exn (e : Exn)
  | symbolic
  | nonFinite
  deriving DecidableEq, Repr

/-- `assert false`. -/
abbrev assertFalse {α : Type} : Except Stop α := .error (.exn .assertFailure)

/-- The normal form of a model value (`Model.Term v'` evaluated). -/
def nfOfValue : Value → NF
  | .bool b => .bool b
  | .num n => .num n
  | .dec d => .dec d

/-- `bool_of_nf` on a constant: the Boolean. -/
def boolOfNF : NF → Except Stop Bool
  | .bool b => .ok b
  | _ => assertFalse

/-- `const_of_num_polynomial`. -/
def constOfNumPolynomial : NF → Except Stop Int
  | .num n => .ok n
  | _ => assertFalse

/-- `const_of_dec_polynomial`, which also takes an integer. -/
def constOfDecPolynomial : NF → Except Stop ℚ
  | .dec d => .ok d
  | .num n => .ok n
  | _ => assertFalse

/-- `chain_list`: the consecutive pairs of a list. -/
def chainList {α : Type} : List α → List (α × α)
  | a :: rest@(b :: _) => (a, b) :: chainList rest
  | _ => []

@[simp] theorem chainList_nil {α : Type} : chainList ([] : List α) = [] := by
  simp [chainList]

@[simp] theorem chainList_singleton {α : Type} (a : α) : chainList [a] = [] := by
  simp [chainList]

@[simp] theorem chainList_cons_cons {α : Type} (a b : α) (l : List α) :
    chainList (a :: b :: l) = (a, b) :: chainList (b :: l) := by
  rw [chainList]

theorem chainList_map {α β : Type} (f : α → β) :
    ∀ l : List α, chainList (l.map f) = (chainList l).map fun p => (f p.1, f p.2)
  | [] | [_] => by simp
  | a :: b :: l => by
    rw [List.map_cons, List.map_cons, chainList_cons_cons, ← List.map_cons,
      chainList_map f (b :: l),
      chainList_cons_cons, List.map_cons]

/-! ## Boolean operators -/

/-- The `AND` case: `flatten_bool_subterms` fails on a non-Boolean argument, then `false`
absorbs and `true` is dropped. -/
def andNF : List NF → Except Stop NF
  | [] => assertFalse
  | [a] => .ok a
  | args => do
    let bs ← args.mapM boolOfNF
    pure (.bool (bs.all id))

/-- The `OR` case. -/
def orNF : List NF → Except Stop NF
  | [] => assertFalse
  | [a] => .ok a
  | args => do
    let bs ← args.mapM boolOfNF
    pure (.bool (bs.any id))

/-- The `NOT` case. -/
def notNF : List NF → Except Stop NF
  | [.bool b] => .ok (.bool !b)
  | _ => assertFalse

/-- `implies_to_or`: negate every argument but the last. -/
def impliesToOr : List NF → Except Stop (List NF)
  | [] => assertFalse
  | [a] => .ok [a]
  | .bool h :: tl => do
    let tl' ← impliesToOr tl
    pure (NF.bool (!h) :: tl')
  | _ :: _ => assertFalse

/-- The `IMPLIES` case: the disjunction of the negated premises and the conclusion. -/
def impliesNF (args : List NF) : Except Stop NF := do
  let args' ← impliesToOr args
  orNF args'

/-- The binary `XOR` case: `(a & ~b) | (~a & b)`. -/
def xorBin (a b : Bool) : Except Stop NF := do
  let ta ← andNF [.bool a, .bool !b]
  let tb ← andNF [.bool !a, .bool b]
  orNF [ta, tb]

/-- The `XOR` case on `t :: l`, left-associative for more than two arguments. -/
def xorFrom : NF → List NF → Except Stop NF
  | .bool a, [.bool b] => xorBin a b
  | .bool a, .bool b :: c :: tl => do
    let t ← xorBin a b
    xorFrom t (c :: tl)
  | _, _ => assertFalse

/-- The `XOR` case. -/
def xorNF : List NF → Except Stop NF
  | [] => assertFalse
  | t :: l => xorFrom t l

/-! ## Relations -/

/-- `relation_to_nf` on constants: a binary relation is decided, a chain is the conjunction
of its links. -/
def relationToNF (rel : NF → NF → Except Stop Bool) : List NF → Except Stop NF
  | [] | [_] => assertFalse
  | [a, b] => do
    let r ← rel a b
    pure (.bool r)
  | args => do
    let links ← (chainList args).mapM fun p => do
      let r ← rel p.1 p.2
      pure (NF.bool r)
    andNF links

/-- `relation`: relations between integers or between reals, keyed on the first argument. -/
def relation (relNum : Int → Int → Bool) (relDec : ℚ → ℚ → Bool) : List NF → Except Stop NF
  | [] | [_] => assertFalse
  | .num n :: args =>
    relationToNF (fun p q => do
      let a ← constOfNumPolynomial p
      let b ← constOfNumPolynomial q
      pure (relNum a b)) (.num n :: args)
  | .dec d :: args =>
    relationToNF (fun p q => do
      let a ← constOfDecPolynomial p
      let b ← constOfDecPolynomial q
      pure (relDec a b)) (.dec d :: args)
  | .bool _ :: _ => assertFalse

/-- `relation_eq`. -/
def relationEq : List NF → Except Stop NF := relation (· == ·) (· == ·)

/-- `relation_leq`. -/
def relationLeq : List NF → Except Stop NF := relation (· ≤ ·) (· ≤ ·)

/-- `relation_lt`. -/
def relationLt : List NF → Except Stop NF := relation (· < ·) (· < ·)

/-- `relation_geq`. -/
def relationGeq : List NF → Except Stop NF := relation (· ≥ ·) (· ≥ ·)

/-- `relation_gt`. -/
def relationGt : List NF → Except Stop NF := relation (· > ·) (· > ·)

/-- The `EQ` case: a binary equivalence of Booleans is `(a & b) | (~a & ~b)`, every other
equation goes to `relation_eq`. -/
def eqNF : List NF → Except Stop NF
  | [] | [_] => assertFalse
  | [.bool a, .bool b] => do
    let ta ← andNF [.bool a, .bool b]
    let tb ← andNF [.bool !a, .bool !b]
    orNF [ta, tb]
  | args => relationEq args

/-! ## Arithmetic -/

/-- `add`: the sum, integer or real after the first argument. -/
def addNF : List NF → Except Stop NF
  | [] => assertFalse
  | .num n :: args => do
    let ns ← args.mapM constOfNumPolynomial
    pure (.num (n + ns.sum))
  | .dec d :: args => do
    let ds ← args.mapM fun
      | .dec e => .ok e
      | _ => assertFalse
    pure (.dec (d + ds.sum))
  | _ => assertFalse

/-- `minus`: negation, or the first argument minus the sum of the others. -/
def minusNF : List NF → Except Stop NF
  | [] => assertFalse
  | [.num n] => .ok (.num (-n))
  | [.dec d] => .ok (.dec (-d))
  | .num n :: tl => do
    let s ← addNF tl
    let m ← constOfNumPolynomial s
    pure (.num (n - m))
  | .dec d :: tl => do
    let s ← addNF tl
    match s with
    | .dec e => pure (.dec (d - e))
    | _ => assertFalse
  | _ => assertFalse

/-- `times`: the product, integer or real after the first argument. -/
def timesNF : List NF → Except Stop NF
  | .num n :: tl => do
    let ns ← tl.mapM constOfNumPolynomial
    pure (.num (n * ns.prod))
  | .dec d :: tl => do
    let ds ← tl.mapM fun
      | .dec e => .ok e
      | _ => assertFalse
    pure (.dec (d * ds.prod))
  | _ => assertFalse

/-- The `DIV` case on constants: real division, left-associative. Division by zero gives a
non-finite decimal in the source. -/
def divNF (args : List NF) : Except Stop NF := do
  let ds ← args.mapM constOfDecPolynomial
  match ds with
  | [] | [_] => assertFalse
  | h :: tl =>
    let q ← tl.foldlM (fun a e => if e = 0 then .error .nonFinite else .ok (a / e)) h
    pure (.dec q)

/-- The `INTDIV` case on constants: Euclidean division (`Big_int.div_big_int`),
left-associative. -/
def intdivNF (args : List NF) : Except Stop NF := do
  let ns ← args.mapM constOfNumPolynomial
  match ns with
  | [] | [_] => assertFalse
  | h :: tl =>
    let q ← tl.foldlM (fun a e => if e = 0 then .error (.exn .divisionByZero) else .ok (a / e)) h
    pure (.num q)

/-- The `MOD` case: Euclidean remainder of two integer constants. -/
def modNF : List NF → Except Stop NF
  | [.num n, .num m] => if m = 0 then .error (.exn .divisionByZero) else .ok (.num (n % m))
  | [_, _] => .error .symbolic
  | _ => assertFalse

/-- The `ABS` case. -/
def absNF : List NF → Except Stop NF
  | [.num n] => .ok (.num |n|)
  | [.dec d] => .ok (.dec |d|)
  | [_] => .error .symbolic
  | _ => assertFalse

/-- The `TO_INT` case: the floor (`Decimal.to_big_int`). -/
def toIntNF : List NF → Except Stop NF
  | [.dec d] => .ok (.num ⌊d⌋)
  | _ => assertFalse

/-- The `TO_REAL` case. -/
def toRealNF : List NF → Except Stop NF
  | [.num n] => .ok (.dec n)
  | _ => assertFalse

/-- The `DIVISIBLE n` case: `(mod d n) = 0`. -/
def divisibleNF (n : Int) : List NF → Except Stop NF
  | [.num d] => if n = 0 then .error (.exn .divisionByZero) else .ok (.bool (d % n == 0))
  | _ => assertFalse

/-- The `ITE` case on a constant condition. -/
def iteNF : List NF → Except Stop NF
  | [.bool true, l, _] => .ok l
  | [.bool false, _, r] => .ok r
  | _ => assertFalse

/-! ## The node function and the fold -/

/-- `simplify_term_node` under a model that gives every variable a value. -/
def simplifyTermNode (model : V → Value) : Node V → List NF → Except Stop NF
  | .var v, _ => .ok (nfOfValue (model v))
  | .const (.numeral n), _ => .ok (.num n)
  | .const (.decimal d), _ => .ok (.dec d)
  | .const (.bool b), _ => .ok (.bool b)
  | .const _, _ => assertFalse
  | .app s, args =>
    match s with
    | .not => notNF args
    | .and => andNF args
    | .or => orNF args
    | .implies => impliesNF args
    | .xor => xorNF args
    | .eq => eqNF args
    | .leq => relationLeq args
    | .lt => relationLt args
    | .geq => relationGeq args
    | .gt => relationGt args
    | .ite => iteNF args
    | .divisible n => divisibleNF n args
    | .plus => addNF args
    | .minus => minusNF args
    | .times => timesNF args
    | .div => divNF args
    | .intdiv => intdivNF args
    | .mod => modNF args
    | .abs => absNF args
    | .toInt => toIntNF args
    | .toReal => toRealNF args
    | .isInt | .distinct | .bool _ | .numeral _ | .decimal _ => assertFalse

/-- `simplify_term_model` on a model that gives every variable a value. -/
def simplifyTermModel (model : V → Value) (t : Term V) : Except Stop NF :=
  Term.evalT (simplifyTermNode model) t

/-! ## The cases on integer and Boolean constants -/

/-- A constant node is a numeral, a decimal or a Boolean; every other constant symbol is an
`assert false`. -/
theorem simplifyTermNode_const_eq_ok {model : V → Value} {s : Symbol} {args : List NF} {v : NF}
    (hv : simplifyTermNode model (.const s) args = .ok v) :
    (∃ i, s = .numeral i ∧ v = .num i) ∨ (∃ d, s = .decimal d ∧ v = .dec d) ∨
      ∃ b, s = .bool b ∧ v = .bool b := by
  cases s
  case numeral i =>
    cases hv
    exact .inl ⟨i, rfl, rfl⟩
  case decimal d =>
    cases hv
    exact .inr (.inl ⟨d, rfl, rfl⟩)
  case bool b =>
    cases hv
    exact .inr (.inr ⟨b, rfl, rfl⟩)
  all_goals cases hv

/-- A traversal whose steps all succeed succeeds with their results. -/
theorem mapM_map_eq_ok {α β γ ε : Type} {k : α → β} {g : β → Except ε γ} {h : α → γ}
    (hg : ∀ a, g (k a) = .ok (h a)) : ∀ l : List α, (l.map k).mapM g = .ok (l.map h)
  | [] => rfl
  | a :: l => by
    rw [List.map_cons, List.mapM_cons, hg a, mapM_map_eq_ok hg l]
    rfl

theorem mapM_constOfNumPolynomial (ns : List Int) :
    (ns.map NF.num).mapM constOfNumPolynomial = .ok ns := by
  rw [mapM_map_eq_ok (k := NF.num) (h := id) (fun _ => rfl) ns, List.map_id]

theorem mapM_boolOfNF (bs : List Bool) : (bs.map NF.bool).mapM boolOfNF = .ok bs := by
  rw [mapM_map_eq_ok (k := NF.bool) (h := id) (fun _ => rfl) bs, List.map_id]

/-- A sum of integers. -/
theorem addNF_nums (n : Int) (ns : List Int) :
    addNF (.num n :: ns.map .num) = .ok (.num (n + ns.sum)) := by
  rw [addNF, mapM_constOfNumPolynomial]
  rfl

/-- A product of integers. -/
theorem timesNF_nums (n : Int) (ns : List Int) :
    timesNF (.num n :: ns.map .num) = .ok (.num (n * ns.prod)) := by
  rw [timesNF, mapM_constOfNumPolynomial]
  rfl

/-- A difference of two or more integers: the first minus the sum of the others. -/
theorem minusNF_nums (n m : Int) (ms : List Int) :
    minusNF (.num n :: (m :: ms).map .num) = .ok (.num (n - (m + ms.sum))) := by
  have hadd : addNF ((m :: ms).map NF.num) = .ok (.num (m + ms.sum)) := addNF_nums m ms
  rw [minusNF.eq_4 _ _ (by simp), hadd]
  rfl

/-- A conjunction of one or more Booleans. -/
theorem andNF_bools : ∀ {bs : List Bool}, bs ≠ [] → andNF (bs.map .bool) = .ok (.bool (bs.all id))
  | [b], _ => by simp [andNF]
  | b :: c :: bs, _ => by
    rw [andNF.eq_3 _ (by simp) (by simp), mapM_boolOfNF]
    rfl

/-- A relation between two or more arguments on which it is decided holds when it holds of each
two consecutive ones. -/
theorem relationToNF_map {α : Type} {rel : NF → NF → Except Stop Bool} {g : α → NF}
    {f : α → α → Bool} (hrel : ∀ a b, rel (g a) (g b) = .ok (f a b)) :
    ∀ {l : List α}, 2 ≤ l.length →
      relationToNF rel (l.map g) = .ok (.bool ((chainList l).all fun p => f p.1 p.2))
  | [a, b], _ => by simp [relationToNF, hrel, bind, Except.bind, pure, Except.pure]
  | a :: b :: c :: l, _ => by
    have hlinks : (chainList ((a :: b :: c :: l).map g)).mapM (fun p => do
        let r ← rel p.1 p.2
        pure (NF.bool r)) =
        .ok (((chainList (a :: b :: c :: l)).map fun p => f p.1 p.2).map .bool) := by
      rw [chainList_map, mapM_map_eq_ok (h := fun p => NF.bool (f p.1 p.2)), List.map_map]
      · rfl
      · intro p
        simp [hrel, bind, Except.bind, pure, Except.pure]
    rw [relationToNF.eq_4 _ _ (by simp) (by simp) (by simp), hlinks]
    show andNF _ = _
    rw [andNF_bools (by simp), List.all_map]
    rfl

/-- A relation between two or more integers holds when it holds of each two consecutive ones. -/
theorem relation_nums (relNum : Int → Int → Bool) (relDec : ℚ → ℚ → Bool) (n m : Int)
    (ms : List Int) :
    relation relNum relDec (.num n :: (m :: ms).map .num) =
      .ok (.bool ((chainList (n :: m :: ms)).all fun p => relNum p.1 p.2)) := by
  rw [relation, ← List.map_cons]
  · exact relationToNF_map (fun _ _ => rfl) (by simp)
  · simp

theorem eqNF_nums (n m : Int) (ms : List Int) :
    eqNF (.num n :: (m :: ms).map .num) = relationEq (.num n :: (m :: ms).map .num) := by
  cases ms <;> rfl

end Simplify
end Kind2
