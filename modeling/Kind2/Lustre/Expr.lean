import Mathlib.Algebra.Order.Floor.Ring
import Mathlib.Data.Rat.Floor

/-!
# Integer-range types of Lustre expressions

A Lustre expression (`src/lustre/lustreExpr.ml`) is built by constructors `mk_*` that
compute the type of the result from the types of their arguments with one `type_of_*`
function each, and raise `Type_mismatch` on ill-typed arguments. For integers the type can
be a range `IntRange (l, u)`, which `LustreContext.add_node_equation` later adopts as a
constraint on the defined state variable.

`LExpr` records how an expression was built, `LExpr.exprType` computes its `expr_type`
as the constructors do, with `none` for `Type_mismatch`, and `LExpr.eval` gives its value
at the initial instant or at a later one. The `eval_*` simplifications of the constructors
fold constants without changing values, so `eval` applies each operator to the values of
the arguments (integer division and modulus are Euclidean, `to_int` is the floor).

`InType` is the set of values a type admits. Each `type_of_*` for integers is sound for it
(`typeOfPlus_sound`, `typeOfMinus_sound`, `typeOfMod_sound`, `typeOfIte_sound`,
`typeOfArrow_sound`, ...), except `type_of_uminus`: it binds the bounds of the range in the
wrong order and turns `[l, u]` into `[-l, -u]`, which `typeOfUminus_intRange` states and
`exprType_uminus_var` evaluates on a variable of type `[0, 5]`.
-/

namespace Kind2

namespace Lustre

/-! ## Types -/

/-- Whether an integer range is a subrange or an enumeration (`rangekind`,
`src/terms/type.ml:30`). -/
inductive RangeKind where
  | range
  | enum
  deriving DecidableEq, Repr

/-- The types of Lustre expressions that the arithmetic constructors read (`kindtype`,
`src/terms/type.ml:33`; abstract and array types are left out). -/
inductive KType where
  | bool
  | int
  | intRange (l u : Int) (k : RangeKind)
  | real
  deriving DecidableEq, Repr

namespace KType

/-- `Type.is_int`. -/
def isInt : KType → Bool
  | int => true
  | _ => false

/-- `Type.is_int_range`: subranges only, not enumerations. -/
def isIntRange : KType → Bool
  | intRange _ _ .range => true
  | _ => false

/-- `Type.is_real`. -/
def isReal : KType → Bool
  | real => true
  | _ => false

/-- `Type.is_bool`. -/
def isBool : KType → Bool
  | bool => true
  | _ => false

/-- `Type.bounds_of_int_range`, which raises `Invalid_argument` on other types. -/
def boundsOfIntRange : KType → Option (Int × Int)
  | intRange l u _ => some (l, u)
  | _ => none

/-- `Type.mk_int_range l u`: a subrange. -/
def mkIntRange (l u : Int) : KType := intRange l u .range

/-- `Type.check_type t1 t2`: `t1` is a subtype of `t2` (`src/terms/type.ml:432`). -/
def checkType : KType → KType → Bool
  | int, int | real, real | bool, bool => true
  | intRange _ _ _, int => true
  | intRange l1 u1 k1, intRange l2 u2 k2 => k1 == k2 && l1 ≥ l2 && u1 ≤ u2
  | _, _ => false

end KType

open KType

/-! ## The typing functions of the constructors -/

/-- `type_of_bool_bool` (`src/lustre/lustreExpr.ml:1129`). -/
def typeOfBoolBool (t : KType) : Option KType :=
  if t.isBool then some bool else none

/-- `type_of_bool_bool_bool` (`src/lustre/lustreExpr.ml:1135`). -/
def typeOfBoolBoolBool (t s : KType) : Option KType :=
  if t.isBool then (if s.isBool then some bool else none) else none

/-- `type_of_int_int_int` (`src/lustre/lustreExpr.ml:1141`). -/
def typeOfIntIntInt (t s : KType) : Option KType :=
  if t.isInt || t.isIntRange then (if s.isInt || s.isIntRange then some int else none)
  else none

/-- `type_of_num_num_num` (`src/lustre/lustreExpr.ml:1162`). -/
def typeOfNumNumNum (t s : KType) : Option KType :=
  if t.isInt || t.isIntRange then (if s.isInt || s.isIntRange then some int else none)
  else if t.isReal then (if s.isReal then some real else none)
  else none

/-- `type_of_a_a_a` (`src/lustre/lustreExpr.ml:1180`). -/
def typeOfAAA (type1 type2 : KType) : Option KType :=
  if checkType type1 type2 then some type2
  else if checkType type2 type1 then some type1
  else if type1.isIntRange && type2.isIntRange then some int
  else none

/-- `type_of_uminus` (`src/lustre/lustreExpr.ml:1285`). The pair returned by
`bounds_of_int_range` is `(l, u)`, and it is bound as `(ubound, lbound)`. -/
def typeOfUminus (t : KType) : Option KType :=
  if t.isInt then some int
  else if t.isReal then some real
  else if t.isIntRange then
    (t.boundsOfIntRange).map fun (ubound, lbound) => mkIntRange (-ubound) (-lbound)
  else none

/-- `type_of_to_int` (`src/lustre/lustreExpr.ml:1316`). -/
def typeOfToInt (t : KType) : Option KType :=
  if t.isReal then some int else none

/-- `type_of_to_real` (`src/lustre/lustreExpr.ml:1343`). -/
def typeOfToReal (t : KType) : Option KType :=
  if t.isInt || t.isIntRange then some real else none

/-- `type_of_mod` (`src/lustre/lustreExpr.ml:1552`): a modulus by a divisor in `[l, u]`
lies in `[0, max (|l|, |u|) - 1]`. -/
def typeOfMod (t s : KType) : Option KType :=
  if t.isInt || t.isIntRange then
    if s.isInt then some int
    else if s.isIntRange then
      (s.boundsOfIntRange).map fun (l, u) => mkIntRange 0 (max |l| |u| - 1)
    else none
  else none

/-- `type_of_minus` (`src/lustre/lustreExpr.ml:1603`). -/
def typeOfMinus (t s : KType) : Option KType :=
  if t.isIntRange then
    if s.isIntRange then
      match t.boundsOfIntRange, s.boundsOfIntRange with
      | some (l1, u1), some (l2, u2) => some (mkIntRange (l1 - u2) (u1 - l2))
      | _, _ => none
    else typeOfNumNumNum t s
  else typeOfNumNumNum t s

/-- `type_of_plus` (`src/lustre/lustreExpr.ml:1652`). -/
def typeOfPlus (t s : KType) : Option KType :=
  if t.isIntRange then
    if s.isIntRange then
      match t.boundsOfIntRange, s.boundsOfIntRange with
      | some (l1, u1), some (l2, u2) => some (mkIntRange (l1 + l2) (u1 + u2))
      | _, _ => none
    else typeOfNumNumNum t s
  else typeOfNumNumNum t s

/-- `type_of_times` (`src/lustre/lustreExpr.ml:1727`). -/
def typeOfTimes : KType → KType → Option KType := typeOfNumNumNum

/-- `type_of_div` (`src/lustre/lustreExpr.ml:1690`). -/
def typeOfDiv : KType → KType → Option KType := typeOfNumNumNum

/-- `type_of_intdiv` (`src/lustre/lustreExpr.ml:1756`). -/
def typeOfIntdiv : KType → KType → Option KType := typeOfIntIntInt

/-- `type_of_ite` (`src/lustre/lustreExpr.ml:2077`): the larger type of the two branches, or
the hull of two ranges that do not contain each other. -/
def typeOfIte (t type2 type3 : KType) : Option KType :=
  if t = bool then
    if checkType type2 type3 then some type3
    else if checkType type3 type2 then some type2
    else if (type2.isIntRange && type3.isInt) || (type2.isInt && type3.isIntRange) then some int
    else if type2.isIntRange && type3.isIntRange then
      match type2.boundsOfIntRange, type3.boundsOfIntRange with
      | some (l1, u1), some (l2, u2) => some (mkIntRange (min l1 l2) (max u1 u2))
      | _, _ => none
    else none
  else none

/-- `type_of_arrow` (`src/lustre/lustreExpr.ml:2119`): the hull of two ranges, otherwise
`type_of_a_a_a`. -/
def typeOfArrow (type1 type2 : KType) : Option KType :=
  if type1.isIntRange && type2.isIntRange then
    match type1.boundsOfIntRange, type2.boundsOfIntRange with
    | some (l1, u1), some (l2, u2) => some (mkIntRange (min l1 l2) (max u1 u2))
    | _, _ => none
  else typeOfAAA type1 type2

/-! ## Expressions and their values -/

/-- The values of Lustre expressions: decimals are rationals. -/
inductive Value where
  | bool (b : Bool)
  | int (n : Int)
  | real (q : ℚ)
  deriving DecidableEq, Repr

/-- The first instant, where `->` takes its left argument, or a later one. -/
inductive Instant where
  | init
  | step
  deriving DecidableEq, Repr

/-- A Lustre expression as built by the constructors of `LustreExpr` over state variables
of type `V`. -/
inductive LExpr (V : Type) where
  | tTrue
  | tFalse
  | mkInt (d : Int)
  | mkReal (f : ℚ)
  | mkVar (x : V)
  | mkNot (e : LExpr V)
  | mkAnd (e1 e2 : LExpr V)
  | mkOr (e1 e2 : LExpr V)
  | mkUminus (e : LExpr V)
  | mkToInt (e : LExpr V)
  | mkToReal (e : LExpr V)
  | mkMod (e1 e2 : LExpr V)
  | mkMinus (e1 e2 : LExpr V)
  | mkPlus (e1 e2 : LExpr V)
  | mkDiv (e1 e2 : LExpr V)
  | mkTimes (e1 e2 : LExpr V)
  | mkIntdiv (e1 e2 : LExpr V)
  | mkIte (e1 e2 e3 : LExpr V)
  | mkArrow (e1 e2 : LExpr V)
  deriving Repr

namespace LExpr

variable {V : Type}

/-- The `expr_type` each constructor computes from the declared types of the state
variables (`StateVar.type_of_state_var`); `none` where a constructor raises
`Type_mismatch`. -/
def exprType (ty : V → KType) : LExpr V → Option KType
  | tTrue | tFalse => some bool
  | mkInt d => some (mkIntRange d d)
  | mkReal _ => some real
  | mkVar x => some (ty x)
  | mkNot e => (exprType ty e).bind typeOfBoolBool
  | mkAnd e1 e2 | mkOr e1 e2 => do typeOfBoolBoolBool (← exprType ty e1) (← exprType ty e2)
  | mkUminus e => (exprType ty e).bind typeOfUminus
  | mkToInt e => (exprType ty e).bind typeOfToInt
  | mkToReal e => (exprType ty e).bind typeOfToReal
  | mkMod e1 e2 => do typeOfMod (← exprType ty e1) (← exprType ty e2)
  | mkMinus e1 e2 => do typeOfMinus (← exprType ty e1) (← exprType ty e2)
  | mkPlus e1 e2 => do typeOfPlus (← exprType ty e1) (← exprType ty e2)
  | mkDiv e1 e2 => do typeOfDiv (← exprType ty e1) (← exprType ty e2)
  | mkTimes e1 e2 => do typeOfTimes (← exprType ty e1) (← exprType ty e2)
  | mkIntdiv e1 e2 => do typeOfIntdiv (← exprType ty e1) (← exprType ty e2)
  | mkIte e1 e2 e3 =>
    do typeOfIte (← exprType ty e1) (← exprType ty e2) (← exprType ty e3)
  | mkArrow e1 e2 => do typeOfArrow (← exprType ty e1) (← exprType ty e2)

end LExpr

namespace Value

/-- Unary minus. -/
def uminus : Value → Option Value
  | int n => some (int (-n))
  | real q => some (real (-q))
  | _ => none

/-- A binary arithmetic operator on integers and on reals. -/
def arith (fi : Int → Int → Int) (fr : ℚ → ℚ → ℚ) : Value → Value → Option Value
  | int m, int n => some (int (fi m n))
  | real p, real q => some (real (fr p q))
  | _, _ => none

/-- A partial integer operator, undefined on a zero divisor as in SMT-LIB. -/
def intOp (f : Int → Int → Int) : Value → Value → Option Value
  | int m, int n => if n = 0 then none else some (int (f m n))
  | _, _ => none

/-- Real division, undefined on a zero divisor. -/
def div : Value → Value → Option Value
  | real p, real q => if q = 0 then none else some (real (p / q))
  | _, _ => none

/-- A Boolean connective. -/
def boolOp (f : Bool → Bool → Bool) : Value → Value → Option Value
  | bool a, bool b => some (bool (f a b))
  | _, _ => none

end Value

namespace LExpr

variable {V : Type}

/-- The value of an expression at an instant, from the values `ρ` of the state variables
at that instant: `->` is its left argument at the first instant and its right one later. -/
def eval (i : Instant) (ρ : V → Value) : LExpr V → Option Value
  | tTrue => some (.bool true)
  | tFalse => some (.bool false)
  | mkInt d => some (.int d)
  | mkReal f => some (.real f)
  | mkVar x => some (ρ x)
  | mkNot e => do
    let .bool b ← eval i ρ e | none
    some (.bool !b)
  | mkAnd e1 e2 => do Value.boolOp (· && ·) (← eval i ρ e1) (← eval i ρ e2)
  | mkOr e1 e2 => do Value.boolOp (· || ·) (← eval i ρ e1) (← eval i ρ e2)
  | mkUminus e => (eval i ρ e).bind Value.uminus
  | mkToInt e => do
    let .real q ← eval i ρ e | none
    some (.int ⌊q⌋)
  | mkToReal e => do
    let .int n ← eval i ρ e | none
    some (.real n)
  | mkMod e1 e2 => do Value.intOp (· % ·) (← eval i ρ e1) (← eval i ρ e2)
  | mkMinus e1 e2 => do Value.arith (· - ·) (· - ·) (← eval i ρ e1) (← eval i ρ e2)
  | mkPlus e1 e2 => do Value.arith (· + ·) (· + ·) (← eval i ρ e1) (← eval i ρ e2)
  | mkDiv e1 e2 => do Value.div (← eval i ρ e1) (← eval i ρ e2)
  | mkTimes e1 e2 => do Value.arith (· * ·) (· * ·) (← eval i ρ e1) (← eval i ρ e2)
  | mkIntdiv e1 e2 => do Value.intOp (· / ·) (← eval i ρ e1) (← eval i ρ e2)
  | mkIte e1 e2 e3 => do
    let .bool c ← eval i ρ e1 | none
    if c then eval i ρ e2 else eval i ρ e3
  | mkArrow e1 e2 =>
    match i with
    | .init => eval i ρ e1
    | .step => eval i ρ e2

/-- Whether `mk_uminus` occurs in the expression. -/
def hasUminus : LExpr V → Bool
  | tTrue | tFalse | mkInt _ | mkReal _ | mkVar _ => false
  | mkUminus _ => true
  | mkNot e | mkToInt e | mkToReal e => hasUminus e
  | mkAnd e1 e2 | mkOr e1 e2 | mkMod e1 e2 | mkMinus e1 e2 | mkPlus e1 e2 | mkDiv e1 e2
  | mkTimes e1 e2 | mkIntdiv e1 e2 | mkArrow e1 e2 => hasUminus e1 || hasUminus e2
  | mkIte e1 e2 e3 => hasUminus e1 || hasUminus e2 || hasUminus e3

end LExpr

/-- Peel a two-argument `Option` computation. -/
theorem bind₂_eq_some {α β γ : Type} {a : Option α} {b : Option β} {f : α → β → Option γ}
    {r : γ} (h : (do f (← a) (← b)) = some r) :
    ∃ x y, a = some x ∧ b = some y ∧ f x y = some r := by
  cases a <;> cases b <;> simp_all [bind]

/-! ## The values a type admits -/

/-- The values of a type: a range admits the integers between its bounds. -/
def InType : KType → Value → Prop
  | .bool, .bool _ => True
  | .int, .int _ => True
  | .intRange l u _, .int n => l ≤ n ∧ n ≤ u
  | .real, .real _ => True
  | _, _ => False

/-- A subtype admits fewer values. -/
theorem inType_of_checkType {a b : KType} {v : Value} (h : checkType a b = true)
    (hv : InType a v) : InType b v := by
  cases a <;> cases b <;> cases v <;> simp_all [checkType, InType]
  omega

/-- The values of an integer or range type are integers. -/
theorem inType_intish {t : KType} {v : Value} (ht : (t.isInt || t.isIntRange) = true)
    (hv : InType t v) : ∃ n, v = .int n := by
  cases t <;> cases v <;> simp_all [isInt, isIntRange, InType]

theorem typeOfNumNumNum_sound {t s r : KType} {v w x : Value} {fi : Int → Int → Int}
    {fr : ℚ → ℚ → ℚ} (h : typeOfNumNumNum t s = some r) (hv : InType t v) (hw : InType s w)
    (hx : Value.arith fi fr v w = some x) : InType r x := by
  unfold typeOfNumNumNum at h
  split_ifs at h with ht hs ht' hs' <;> cases h
  · obtain ⟨m, rfl⟩ := inType_intish ht hv
    obtain ⟨n, rfl⟩ := inType_intish hs hw
    cases hx
    trivial
  · cases t <;> simp [isInt, isIntRange, isReal] at ht ht'
    cases s <;> simp [isReal] at hs'
    cases v <;> cases w <;> simp [InType] at hv hw
    cases hx
    trivial

theorem typeOfPlus_sound {t s r : KType} {v w x : Value} (h : typeOfPlus t s = some r)
    (hv : InType t v) (hw : InType s w) (hx : Value.arith (· + ·) (· + ·) v w = some x) :
    InType r x := by
  unfold typeOfPlus at h
  split_ifs at h with ht hs
  · -- two subranges: the bounds add up
    cases t <;> simp [isIntRange] at ht
    cases s <;> simp [isIntRange] at hs
    cases v <;> cases w <;> simp [InType] at hv hw
    simp only [boundsOfIntRange, Option.some.injEq] at h
    subst h; cases hx
    simp only [InType, mkIntRange]; omega
  all_goals exact typeOfNumNumNum_sound h hv hw hx

theorem typeOfMinus_sound {t s r : KType} {v w x : Value} (h : typeOfMinus t s = some r)
    (hv : InType t v) (hw : InType s w) (hx : Value.arith (· - ·) (· - ·) v w = some x) :
    InType r x := by
  unfold typeOfMinus at h
  split_ifs at h with ht hs
  · -- two subranges: the lower bound pairs with the other upper bound
    cases t <;> simp [isIntRange] at ht
    cases s <;> simp [isIntRange] at hs
    cases v <;> cases w <;> simp [InType] at hv hw
    simp only [boundsOfIntRange, Option.some.injEq] at h
    subst h; cases hx
    simp only [InType, mkIntRange]; omega
  all_goals exact typeOfNumNumNum_sound h hv hw hx

/-- A Euclidean modulus by a divisor in `[l, u]` lies in `[0, max (|l|, |u|) - 1]`. -/
theorem typeOfMod_sound {t s r : KType} {v w x : Value} (h : typeOfMod t s = some r)
    (hv : InType t v) (hw : InType s w) (hx : Value.intOp (· % ·) v w = some x) :
    InType r x := by
  unfold typeOfMod at h
  split_ifs at h with ht hs hs'
  · cases h
    obtain ⟨m, rfl⟩ := inType_intish ht hv
    cases w <;> simp [Value.intOp] at hx
    obtain ⟨-, rfl⟩ := hx
    trivial
  · cases s <;> simp [isIntRange] at hs'
    obtain ⟨m, rfl⟩ := inType_intish ht hv
    cases w <;> simp [InType] at hw
    rename_i n
    simp only [Value.intOp] at hx
    split_ifs at hx with hn
    cases hx
    simp only [boundsOfIntRange, Option.map_some, Option.some.injEq] at h
    subst h
    have hlt : m % n < |n| := by simpa [Int.natCast_natAbs] using Int.emod_lt m hn
    have habs : |n| ≤ max |_| |_| := abs_le_max_abs_abs hw.1 hw.2
    exact ⟨Int.emod_nonneg m hn, by omega⟩

theorem typeOfIte_sound {t t2 t3 r : KType} (h : typeOfIte t t2 t3 = some r) :
    (∀ {v}, InType t2 v → InType r v) ∧ (∀ {v}, InType t3 v → InType r v) := by
  unfold typeOfIte at h
  split_ifs at h with hb h23 h32 hmix hrr
  · cases h
    exact ⟨inType_of_checkType h23, id⟩
  · cases h
    exact ⟨id, inType_of_checkType h32⟩
  · -- a range and `int`: both values are integers
    cases h
    have h2 : (t2.isInt || t2.isIntRange) = true := by
      revert hmix; cases t2 <;> simp_all [isInt, isIntRange]
    have h3 : (t3.isInt || t3.isIntRange) = true := by
      revert hmix; cases t3 <;> simp_all [isInt, isIntRange]
    constructor
    · intro v hv; obtain ⟨n, rfl⟩ := inType_intish h2 hv; trivial
    · intro v hv; obtain ⟨n, rfl⟩ := inType_intish h3 hv; trivial
  · -- two ranges that do not contain each other: the hull
    simp only [Bool.and_eq_true] at hrr
    obtain ⟨h2, h3⟩ := hrr
    cases t2 <;> simp [isIntRange] at h2
    cases t3 <;> simp [isIntRange] at h3
    simp only [boundsOfIntRange, Option.some.injEq] at h
    subst h
    constructor
    · intro v hv; cases v <;> simp [InType, mkIntRange] at hv ⊢; omega
    · intro v hv; cases v <;> simp [InType, mkIntRange] at hv ⊢; omega

theorem typeOfAAA_sound {t1 t2 r : KType} (h : typeOfAAA t1 t2 = some r) :
    (∀ {v}, InType t1 v → InType r v) ∧ (∀ {v}, InType t2 v → InType r v) := by
  unfold typeOfAAA at h
  split_ifs at h with h12 h21 hrr <;> cases h
  · exact ⟨inType_of_checkType h12, id⟩
  · exact ⟨id, inType_of_checkType h21⟩
  · simp only [Bool.and_eq_true] at hrr
    constructor
    · intro v hv; obtain ⟨n, rfl⟩ := inType_intish (by simp [hrr.1]) hv; trivial
    · intro v hv; obtain ⟨n, rfl⟩ := inType_intish (by simp [hrr.2]) hv; trivial

theorem typeOfArrow_sound {t1 t2 r : KType} (h : typeOfArrow t1 t2 = some r) :
    (∀ {v}, InType t1 v → InType r v) ∧ (∀ {v}, InType t2 v → InType r v) := by
  unfold typeOfArrow at h
  split_ifs at h with hrr
  · simp only [Bool.and_eq_true] at hrr
    obtain ⟨h1, h2⟩ := hrr
    cases t1 <;> simp [isIntRange] at h1
    cases t2 <;> simp [isIntRange] at h2
    simp only [boundsOfIntRange, Option.some.injEq] at h
    subst h
    constructor
    · intro v hv; cases v <;> simp [InType, mkIntRange] at hv ⊢; omega
    · intro v hv; cases v <;> simp [InType, mkIntRange] at hv ⊢; omega
  · exact typeOfAAA_sound h

theorem typeOfIntIntInt_sound {t s r : KType} {v w x : Value} {f : Int → Int → Int}
    (h : typeOfIntIntInt t s = some r) (hx : Value.intOp f v w = some x) : InType r x := by
  unfold typeOfIntIntInt at h
  split_ifs at h
  cases h
  cases v <;> cases w <;> simp [Value.intOp] at hx
  obtain ⟨-, rfl⟩ := hx
  trivial

theorem typeOfDiv_sound {t s r : KType} {v w x : Value} (h : typeOfDiv t s = some r)
    (hv : InType t v) (hw : InType s w) (hx : Value.div v w = some x) : InType r x := by
  unfold typeOfDiv typeOfNumNumNum at h
  split_ifs at h with ht hs ht' hs' <;> cases h
  · obtain ⟨m, rfl⟩ := inType_intish ht hv
    simp [Value.div] at hx
  · cases v <;> cases w <;> simp [Value.div] at hx
    obtain ⟨-, rfl⟩ := hx
    trivial

theorem typeOfBoolBoolBool_sound {t s r : KType} {v w x : Value} {f : Bool → Bool → Bool}
    (h : typeOfBoolBoolBool t s = some r) (hx : Value.boolOp f v w = some x) : InType r x := by
  unfold typeOfBoolBoolBool at h
  split_ifs at h
  cases h
  cases v <;> cases w <;> simp [Value.boolOp] at hx
  subst hx
  trivial

/-- The minus of a variable declared in `[0, 5]`: its type is the empty range `[0, -5]`,
and the value `-3` it takes when the variable is `3` lies outside. -/
theorem exprType_uminus_var :
    LExpr.exprType (fun _ : Unit => mkIntRange 0 5) (.mkUminus (.mkVar ())) =
        some (mkIntRange 0 (-5)) ∧
      InType (mkIntRange 0 5) (.int 3) ∧
      LExpr.eval .step (fun _ : Unit => .int 3) (.mkUminus (.mkVar ())) = some (.int (-3)) ∧
      ¬ InType (mkIntRange 0 (-5)) (.int (-3)) := by
  refine ⟨rfl, ?_, rfl, ?_⟩ <;> simp [InType, mkIntRange]

/-! ## Soundness of range types without unary minus -/

section
variable {V : Type} (ty : V → KType) (ρ : V → Value) (i : Instant)

/-- Every type computed for an expression without `mk_uminus` admits the value of the
expression, at every instant, when the state variables respect their declared types. In
particular an inferred range `[l, u]` has `l ≤ u` as soon as the expression has a value.
Induction on the expression, one case per constructor, each discharged by the soundness
lemma of its typing function. -/
theorem exprType_sound (hρ : ∀ x, InType (ty x) (ρ x)) :
    ∀ (e : LExpr V), e.hasUminus = false → ∀ {t : KType} {v : Value},
      e.exprType ty = some t → e.eval i ρ = some v → InType t v := by
  intro e
  induction e with
  | tTrue | tFalse => intro _ t v ht hv; cases ht; cases hv; trivial
  | mkInt d => intro _ t v ht hv; cases ht; cases hv; simp [InType, mkIntRange]
  | mkReal f => intro _ t v ht hv; cases ht; cases hv; trivial
  | mkVar x => intro _ t v ht hv; cases ht; cases hv; exact hρ x
  | mkUminus e => intro hu; simp [LExpr.hasUminus] at hu
  | mkNot e _ | mkToInt e _ | mkToReal e _ =>
    -- each typing function gives one fixed type, and each operator a value of that type
    intro _ t v ht hv
    simp only [LExpr.exprType, Option.bind_eq_some_iff] at ht
    obtain ⟨t1, -, ht⟩ := ht
    simp only [typeOfBoolBool, typeOfToInt, typeOfToReal] at ht
    split_ifs at ht
    cases ht
    simp only [LExpr.eval, Option.bind_eq_bind, Option.bind_eq_some_iff] at hv
    obtain ⟨x, -, hv⟩ := hv
    cases x <;> simp at hv
    subst hv
    trivial
  | mkAnd e1 e2 _ _ | mkOr e1 e2 _ _ =>
    intro _ t v ht hv
    obtain ⟨t1, t2, -, -, ht⟩ := bind₂_eq_some ht
    obtain ⟨v1, v2, -, -, hv⟩ := bind₂_eq_some hv
    exact typeOfBoolBoolBool_sound ht hv
  | mkIntdiv e1 e2 _ _ =>
    intro _ t v ht hv
    obtain ⟨t1, t2, -, -, ht⟩ := bind₂_eq_some ht
    obtain ⟨v1, v2, -, -, hv⟩ := bind₂_eq_some hv
    exact typeOfIntIntInt_sound ht hv
  | mkMod e1 e2 ih1 ih2 | mkMinus e1 e2 ih1 ih2 | mkPlus e1 e2 ih1 ih2 | mkDiv e1 e2 ih1 ih2
  | mkTimes e1 e2 ih1 ih2 =>
    intro hu t v ht hv
    simp only [LExpr.hasUminus, Bool.or_eq_false_iff] at hu
    obtain ⟨t1, t2, ht1, ht2, ht⟩ := bind₂_eq_some ht
    obtain ⟨v1, v2, hv1, hv2, hv⟩ := bind₂_eq_some hv
    first
    | exact typeOfMod_sound ht (ih1 hu.1 ht1 hv1) (ih2 hu.2 ht2 hv2) hv
    | exact typeOfMinus_sound ht (ih1 hu.1 ht1 hv1) (ih2 hu.2 ht2 hv2) hv
    | exact typeOfPlus_sound ht (ih1 hu.1 ht1 hv1) (ih2 hu.2 ht2 hv2) hv
    | exact typeOfDiv_sound ht (ih1 hu.1 ht1 hv1) (ih2 hu.2 ht2 hv2) hv
    | exact typeOfNumNumNum_sound ht (ih1 hu.1 ht1 hv1) (ih2 hu.2 ht2 hv2) hv
  | mkIte e1 e2 e3 ih1 ih2 ih3 =>
    intro hu t v ht hv
    simp only [LExpr.hasUminus, Bool.or_eq_false_iff] at hu
    simp only [LExpr.exprType, Option.bind_eq_bind, Option.bind_eq_some_iff] at ht
    obtain ⟨t1, -, t2, ht2, t3, ht3, ht⟩ := ht
    simp only [LExpr.eval, Option.bind_eq_bind, Option.bind_eq_some_iff] at hv
    obtain ⟨c, -, hv⟩ := hv
    -- only the branch the condition selects has a value
    cases c with
    | bool b =>
      cases b with
      | true => exact (typeOfIte_sound ht).1 (ih2 hu.1.2 ht2 hv)
      | false => exact (typeOfIte_sound ht).2 (ih3 hu.2 ht3 hv)
    | int _ | real _ => cases hv
  | mkArrow e1 e2 ih1 ih2 =>
    intro hu t v ht hv
    simp only [LExpr.hasUminus, Bool.or_eq_false_iff] at hu
    obtain ⟨t1, t2, ht1, ht2, ht⟩ := bind₂_eq_some ht
    cases i with
    | init => exact (typeOfArrow_sound ht).1 (ih1 hu.1 ht1 hv)
    | step => exact (typeOfArrow_sound ht).2 (ih2 hu.2 ht2 hv)

/-- The sum of two variables declared in `[0, 5]` has the type `[0, 10]`, which admits its value
`6` when both are `3`. -/
theorem exprType_sound_plus :
    (.mkPlus (.mkVar ()) (.mkVar ()) : LExpr Unit).exprType (fun _ => mkIntRange 0 5) =
        some (mkIntRange 0 10) ∧
      (.mkPlus (.mkVar ()) (.mkVar ()) : LExpr Unit).eval .step (fun _ => .int 3) = some (.int 6) ∧
      InType (mkIntRange 0 10) (.int 6) := by
  have hty : (.mkPlus (.mkVar ()) (.mkVar ()) : LExpr Unit).exprType (fun _ => mkIntRange 0 5) =
      some (mkIntRange 0 10) := by decide
  have hev : (.mkPlus (.mkVar ()) (.mkVar ()) : LExpr Unit).eval .step (fun _ => .int 3) =
      some (.int 6) := by decide
  exact ⟨hty, hev, exprType_sound (fun _ => mkIntRange 0 5) (fun _ => .int 3) .step
    (fun _ => by simp [InType, mkIntRange]) _ rfl hty hev⟩

end

end Lustre

end Kind2
