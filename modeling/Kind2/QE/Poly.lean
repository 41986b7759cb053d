import Kind2.Lib.LinearForm

/-!
# Presburger polynomials and atoms (`qe/poly.ml`)

A polynomial is a list of summands `(c, Some x)` for `c·x` and `(c, None)` for the constant `c`,
and a `cformula` is a conjunction of atoms `p > 0`, `p = 0`, `p ≠ 0`, `i | p` and `i ∤ p`. The
functions of `poly.ml` that quantifier elimination calls are modelled under the default flag
`order_var_by_elim = false`: variables are compared by `Var.compare_vars`, a linear order on `V`,
and `get_coe_in_poly` is `get_coe_in_poly_anyorder`.

The variable of a summand is a `WithTop V`, Lean's `Option V` ordered with `none` above every
variable, which is the order `compare_psummands` gives the constant summand. So a polynomial is a
`LinearForm` over the keys `WithTop V`, in normal form when it is `Sorted`: `add_two_polys` is
the merge `LinearForm.add` (`addTwoPolys_eq`), and `get_coe_in_poly v` is `LinearForm.coeff`.

The meaning of an atom (`PreAtom.holds`) is that of the term `Presburger.term_of_preAtom` builds,
evaluated by `Eval`: `(divisible i) t` holds when `t mod i = 0`, that is when `i ∣ t`.
-/

namespace Kind2.QE

open LinearForm

/-- `Poly.psummand`: a coefficient and a variable, `none` for the constant summand. -/
abbrev Psummand (V : Type) := Int × WithTop V

/-- `Poly.poly`. -/
abbrev Poly (V : Type) := List (Psummand V)

/-- `Poly.preAtom`. -/
inductive PreAtom (V : Type)
  | gt (pl : Poly V)
  | eq (pl : Poly V)
  | ineq (pl : Poly V)
  | divisible (i : Int) (pl : Poly V)
  | indivisible (i : Int) (pl : Poly V)
  deriving DecidableEq

/-- `Poly.cformula`: a conjunction of atoms. -/
abbrev Cformula (V : Type) := List (PreAtom V)

variable {V : Type}

section Code

variable [LinearOrder V]

/-- `compare_psummands` with `Var.compare_vars`: the constant summand comes last. -/
def comparePsummands (ps1 ps2 : Psummand V) : Ordering :=
  match ps1, ps2 with
  | (_, none), (_, none) => .eq
  | (_, none), (_, some _) => .gt
  | (_, some _), (_, none) => .lt
  | (_, some x1), (_, some x2) => compare x1 x2

/-- `negate_psummand`. -/
def negatePsummand (ps : Psummand V) : Psummand V := (-ps.1, ps.2)

/-- `negate_poly`. -/
def negatePoly (pt : Poly V) : Poly V := pt.map negatePsummand

/-- `psummand_times_num`. -/
def psummandTimesNum (ps : Psummand V) (i : Int) : Psummand V := (ps.1 * i, ps.2)

/-- `poly_times_num`. -/
def polyTimesNum (pt : Poly V) (i : Int) : Poly V := pt.map fun x => psummandTimesNum x i

/-- `psummand_contains_variable`. -/
def psummandContainsVariable (v : V) (ps : Psummand V) : Bool :=
  match ps with
  | (_, none) => false
  | (_, some psV) => if compare psV v = .eq then true else false

/-- `get_coe_in_poly_anyorder`: the coefficient of the first summand of `v`; `List.find` raises
`Not_found` when there is none, and the coefficient is then zero. -/
def getCoeInPolyAnyorder (v : V) (pt : Poly V) : Int :=
  match pt.find? (psummandContainsVariable v) with
  | some s => s.1
  | none => 0

/-- `get_coe_in_poly` under `order_var_by_elim = false`. -/
def getCoeInPoly (v : V) (pl : Poly V) : Int := getCoeInPolyAnyorder v pl

/-- `add_two_polys`: merge two sorted polynomials into a reversed accumulator, adding the
coefficients of equal variables and dropping the summands that cancel; the comparator is that of
`compare_psummands`. -/
def addTwoPolys (accum : Poly V) : Poly V → Poly V → Poly V
  | [], pt2 => accum.reverseAux pt2
  | ps1 :: tl1, [] => accum.reverseAux (ps1 :: tl1)
  | (c1, v1) :: tl1, (c2, v2) :: tl2 =>
    match comparePsummands (c1, v1) (c2, v2) with
    | .eq =>
      let newSummand := (c1 + c2, v1)
      if newSummand.1 = 0 then addTwoPolys accum tl1 tl2
      else addTwoPolys (newSummand :: accum) tl1 tl2
    | .lt => addTwoPolys ((c1, v1) :: accum) tl1 ((c2, v2) :: tl2)
    | .gt => addTwoPolys ((c2, v2) :: accum) ((c1, v1) :: tl1) tl2
termination_by pt1 pt2 => pt1.length + pt2.length

/-- `multiply_two_polys`: a product where one factor is a constant; the `Failure` of two
non-constant factors is the error. -/
def multiplyTwoPolys (pt1 pt2 : Poly V) : Except String (Poly V) :=
  match pt1, pt2 with
  | [(c, none)], _ =>
    if c = 0 then pure [(0, none)]
    else
      match pt2 with
      | [(c', none)] => if c' = 0 then pure [(0, none)] else pure (polyTimesNum pt2 c)
      | _ => pure (polyTimesNum pt2 c)
  | _, [(c, none)] => if c = 0 then pure [(0, none)] else pure (polyTimesNum pt1 c)
  | _, _ => throw "Can only multiply two polys when at least one of them is constant."

end Code

/-! ## The meaning of polynomials and atoms -/

section Semantics

/-- The value a summand's variable stands for under the assignment `N`; the constant summand's
is one. -/
def varVal (N : V → Int) : WithTop V → Int
  | none => 1
  | some x => N x

/-- The value of a polynomial under `N`, that of the term `Presburger.term_of_poly` builds. -/
def polyValue (N : V → Int) (pl : Poly V) : Int := LinearForm.eval (varVal N) pl

/-- The polynomial of an atom. -/
def PreAtom.poly : PreAtom V → Poly V
  | .gt pl | .eq pl | .ineq pl | .divisible _ pl | .indivisible _ pl => pl

/-- The constant of a divisibility atom, and `1` for the other atoms. -/
def PreAtom.divisor : PreAtom V → Int
  | .divisible i _ | .indivisible i _ => i
  | _ => 1

/-- The atom with its polynomial replaced. -/
def PreAtom.withPoly (a : PreAtom V) (q : Poly V) : PreAtom V :=
  match a with
  | .gt _ => .gt q
  | .eq _ => .eq q
  | .ineq _ => .ineq q
  | .divisible i _ => .divisible i q
  | .indivisible i _ => .indivisible i q

/-- The meaning of an atom under the integer assignment `N`. -/
def PreAtom.holds (N : V → Int) : PreAtom V → Prop
  | .gt pl => 0 < polyValue N pl
  | .eq pl => polyValue N pl = 0
  | .ineq pl => polyValue N pl ≠ 0
  | .divisible i pl => i ∣ polyValue N pl
  | .indivisible i pl => ¬ i ∣ polyValue N pl

instance PreAtom.decidableHolds (N : V → Int) : (a : PreAtom V) → Decidable (a.holds N)
  | .gt pl => inferInstanceAs (Decidable (0 < polyValue N pl))
  | .eq pl => inferInstanceAs (Decidable (polyValue N pl = 0))
  | .ineq pl => inferInstanceAs (Decidable (polyValue N pl ≠ 0))
  | .divisible i pl => inferInstanceAs (Decidable (i ∣ polyValue N pl))
  | .indivisible i pl => inferInstanceAs (Decidable (¬ i ∣ polyValue N pl))

/-- `N` satisfies every atom of the conjunction. -/
def Sat (N : V → Int) (cf : Cformula V) : Prop := ∀ a ∈ cf, a.holds N

instance (N : V → Int) (cf : Cformula V) : Decidable (Sat N cf) :=
  inferInstanceAs (Decidable (∀ a ∈ cf, a.holds N))

@[simp] theorem PreAtom.poly_withPoly (a : PreAtom V) (q : Poly V) : (a.withPoly q).poly = q := by
  cases a <;> rfl

@[simp] theorem PreAtom.divisor_withPoly (a : PreAtom V) (q : Poly V) :
    (a.withPoly q).divisor = a.divisor := by
  cases a <;> rfl

/-- An atom means a condition on the value of its polynomial: two atoms of one shape hold
together where their polynomials have the same value. -/
theorem PreAtom.holds_withPoly_iff {N N' : V → Int} (a : PreAtom V) {q : Poly V}
    (h : polyValue N q = polyValue N' a.poly) : (a.withPoly q).holds N ↔ a.holds N' := by
  cases a <;> simp only [withPoly, holds, poly] at h ⊢ <;> rw [h]

theorem PreAtom.withPoly_poly (a : PreAtom V) : a.withPoly a.poly = a := by
  cases a <;> rfl

theorem PreAtom.holds_iff_of_polyValue_eq {N N' : V → Int} (a : PreAtom V)
    (h : polyValue N a.poly = polyValue N' a.poly) : a.holds N ↔ a.holds N' := by
  have := a.holds_withPoly_iff h
  rwa [a.withPoly_poly] at this

@[simp] theorem varVal_top (N : V → Int) : varVal N ⊤ = 1 := rfl

@[simp] theorem varVal_coe (N : V → Int) (x : V) : varVal N (x : WithTop V) = N x := rfl

theorem sat_append {N : V → Int} {cf cf' : Cformula V} :
    Sat N (cf ++ cf') ↔ Sat N cf ∧ Sat N cf' :=
  List.forall_mem_append

theorem sat_flatten {N : V → Int} {cfs : List (Cformula V)} :
    Sat N cfs.flatten ↔ ∀ cf ∈ cfs, Sat N cf := by
  simp only [Sat, List.mem_flatten]
  constructor
  · intro h cf hcf a ha
    exact h a ⟨cf, hcf, ha⟩
  · rintro h a ⟨cf, hcf, ha⟩
    exact h cf hcf a ha

theorem Sat.filter {N : V → Int} {cf : Cformula V} (h : Sat N cf) (f : PreAtom V → Bool) :
    Sat N (cf.filter f) :=
  fun a ha => h a (List.mem_of_mem_filter ha)

end Semantics

/-- An atom in normal form: its polynomial is sorted and its divisor is not zero. These are the
atoms `Presburger` builds; `Numeral.(mod)` raises `Division_by_zero` on a zero divisor. -/
def PreAtom.WellFormed [LinearOrder V] (a : PreAtom V) : Prop :=
  Sorted a.poly ∧ a.divisor ≠ 0

instance [LinearOrder V] (a : PreAtom V) : Decidable a.WellFormed :=
  inferInstanceAs (Decidable (a.poly.Pairwise (fun s t => s.2 < t.2) ∧ a.divisor ≠ 0))

/-- Every variable of `X` has coefficient zero. -/
def ZeroOn (X : V → Prop) (pl : Poly V) : Prop := ∀ x, X x → ZeroAt (x : WithTop V) pl

/-! ## The code's operations as operations on linear forms -/

section Spec

variable [LinearOrder V]

theorem comparePsummands_eq (ps1 ps2 : Psummand V) :
    comparePsummands ps1 ps2 = compare ps1.2 ps2.2 := by
  rcases ps1 with ⟨c1, _ | x1⟩ <;> rcases ps2 with ⟨c2, _ | x2⟩
  · exact (compare_eq_iff_eq.2 rfl).symm
  · exact (compare_gt_iff_gt.2 (WithTop.coe_lt_top x2)).symm
  · exact (compare_lt_iff_lt.2 (WithTop.coe_lt_top x1)).symm
  · show compare x1 x2 = compare (x1 : WithTop V) (x2 : WithTop V)
    rcases lt_trichotomy x1 x2 with h | rfl | h
    · rw [compare_lt_iff_lt.2 h, compare_lt_iff_lt.2 (WithTop.coe_lt_coe.2 h)]
    · rw [compare_eq_iff_eq.2 rfl, compare_eq_iff_eq.2 rfl]
    · rw [compare_gt_iff_gt.2 h, compare_gt_iff_gt.2 (WithTop.coe_lt_coe.2 h)]

theorem psummandContainsVariable_eq (v : V) (ps : Psummand V) :
    psummandContainsVariable v ps = decide (ps.2 = (v : WithTop V)) := by
  rcases ps with ⟨c, _ | x⟩
  · simp [psummandContainsVariable, WithTop.none_eq_top]
  · by_cases h : x = v
    · subst h
      simp [psummandContainsVariable, WithTop.some_eq_coe]
    · simp [psummandContainsVariable, WithTop.some_eq_coe, h]

theorem getCoeInPoly_eq (v : V) (pl : Poly V) : getCoeInPoly v pl = coeff (v : WithTop V) pl := by
  have hf : psummandContainsVariable v = fun s : Psummand V => decide (s.2 = (v : WithTop V)) :=
    funext (psummandContainsVariable_eq v)
  rw [getCoeInPoly, getCoeInPolyAnyorder, hf, coeff]
  split <;> rename_i h₁ <;> split <;> rename_i h₂ <;> simp_all

/-- The summands of a polynomial that do not contain `v`. -/
theorem filter_not_psummandContainsVariable (v : V) (pl : Poly V) :
    pl.filter (fun x => !psummandContainsVariable v x) = dropKey (v : WithTop V) pl := by
  simp only [psummandContainsVariable_eq, dropKey]

omit [LinearOrder V] in
theorem polyTimesNum_eq (pt : Poly V) (i : Int) :
    polyTimesNum pt i = pt.map fun s => (s.1 * i, s.2) := rfl

/-- `add_two_polys` is the merge of linear forms, behind the reversed accumulator. -/
theorem addTwoPolys_eq (accum pt1 pt2 : Poly V) :
    addTwoPolys accum pt1 pt2 = accum.reverse ++ LinearForm.add pt1 pt2 := by
  fun_induction addTwoPolys accum pt1 pt2 with
  | case1 accum pt2 => simp [LinearForm.add]
  | case2 accum ps1 tl1 => simp
  | case3 accum c1 v1 tl1 c2 v2 tl2 hc newSummand h0 ih =>
    rw [comparePsummands_eq] at hc
    rw [ih, LinearForm.add]
    simp only [hc]
    rw [if_pos h0]
  | case4 accum c1 v1 tl1 c2 v2 tl2 hc newSummand h0 ih =>
    rw [comparePsummands_eq] at hc
    rw [ih, LinearForm.add]
    simp only [hc]
    rw [if_neg h0]
    simp [newSummand]
  | case5 accum c1 v1 tl1 c2 v2 tl2 hc ih | case6 accum c1 v1 tl1 c2 v2 tl2 hc ih =>
    rw [comparePsummands_eq] at hc
    rw [ih, LinearForm.add]
    simp [hc]

theorem addTwoPolys_nil (pt1 pt2 : Poly V) : addTwoPolys [] pt1 pt2 = LinearForm.add pt1 pt2 := by
  rw [addTwoPolys_eq, List.reverse_nil, List.nil_append]

/-- A polynomial with a summand of `v` is not a constant. -/
theorem ne_const_of_getCoeInPoly_ne_zero {v : V} {pt : Poly V} (h : getCoeInPoly v pt ≠ 0) :
    ∀ c, pt ≠ ([(c, none)] : Poly V) := by
  rintro c rfl
  have hne : ((c, none) : Psummand V).2 ≠ (v : WithTop V) := WithTop.top_ne_coe
  apply h
  rw [getCoeInPoly_eq, coeff_cons, if_neg hne, coeff_nil]

omit [LinearOrder V] in
/-- `multiply_two_polys` by a constant second factor never fails. -/
theorem multiplyTwoPolys_const_right {pt : Poly V} {k : Int} (hk : k ≠ 0)
    (hpt : ∀ c, pt ≠ ([(c, none)] : Poly V)) :
    multiplyTwoPolys pt ([(k, none)] : Poly V) = .ok (polyTimesNum pt k) := by
  rcases pt with _ | ⟨⟨c, _ | x⟩, _ | ⟨s, pt⟩⟩
  · simp [multiplyTwoPolys, hk, polyTimesNum, pure, Except.pure]
  · exact absurd rfl (hpt c)
  all_goals simp [multiplyTwoPolys, hk, pure, Except.pure]

omit [LinearOrder V] in
theorem multiplyTwoPolys_consts (m k : Int) :
    multiplyTwoPolys ([(m, none)] : Poly V) ([(k, none)] : Poly V) =
      .ok ([(k * m, none)] : Poly V) := by
  by_cases hm : m = 0
  · subst hm
    simp [multiplyTwoPolys, pure, Except.pure]
  · by_cases hk : k = 0
    · subst hk
      simp [multiplyTwoPolys, hm, pure, Except.pure]
    · simp [multiplyTwoPolys, hm, hk, polyTimesNum, psummandTimesNum, pure, Except.pure, mul_comm]

omit [LinearOrder V] in
theorem polyValue_polyTimesNum (N : V → Int) (pt : Poly V) (i : Int) :
    polyValue N (polyTimesNum pt i) = polyValue N pt * i :=
  eval_map_mul _ i pt

omit [LinearOrder V] in
theorem polyValue_negatePoly (N : V → Int) (pt : Poly V) :
    polyValue N (negatePoly pt) = -polyValue N pt :=
  eval_map_neg _ pt

theorem polyValue_addTwoPolys_nil (N : V → Int) (pt1 pt2 : Poly V) :
    polyValue N (addTwoPolys [] pt1 pt2) = polyValue N pt1 + polyValue N pt2 := by
  rw [addTwoPolys_nil, polyValue, eval_add]
  rfl

theorem sorted_addTwoPolys_nil {pt1 pt2 : Poly V} (h1 : Sorted pt1) (h2 : Sorted pt2) :
    Sorted (addTwoPolys [] pt1 pt2) := by
  rw [addTwoPolys_nil]
  exact sorted_add h1 h2

theorem zeroAt_addTwoPolys_nil {k : WithTop V} {pt1 pt2 : Poly V} (h1 : ZeroAt k pt1)
    (h2 : ZeroAt k pt2) : ZeroAt k (addTwoPolys [] pt1 pt2) := by
  rw [addTwoPolys_nil]
  exact h1.add h2

/-- Giving `v` the value `w` changes a sorted polynomial by its coefficient times the change. -/
theorem polyValue_update (N : V → Int) (v : V) (w : Int) {pl : Poly V}
    (hs : Sorted pl) :
    polyValue (Function.update N v w) pl = polyValue N pl + getCoeInPoly v pl * (w - N v) := by
  have hv : ∀ k, k ≠ (v : WithTop V) → varVal (Function.update N v w) k = varVal N k := by
    intro k hk
    induction k using WithTop.recTopCoe with
    | top => rfl
    | coe x =>
      have hxv : x ≠ v := fun h => hk (h ▸ rfl)
      simp [Function.update_of_ne hxv]
  rw [polyValue, eval_update_of_sorted hv hs, getCoeInPoly_eq]
  simp [polyValue]

/-- A sorted polynomial is its summand of `v` plus the summands without `v`. -/
theorem polyValue_eq_coe_add (N : V → Int) (v : V) {pl : Poly V} (hs : Sorted pl) :
    polyValue N pl = getCoeInPoly v pl * N v +
      polyValue N (pl.filter fun x => !psummandContainsVariable v x) := by
  rw [filter_not_psummandContainsVariable, getCoeInPoly_eq, polyValue,
    eval_eq_coeff_add_dropKey _ (v : WithTop V) hs]
  rfl

/-- A polynomial whose summands of `v` vanish does not depend on the value of `v`. -/
theorem polyValue_update_of_zeroAt (N : V → Int) (v : V) (w : Int) {pl : Poly V}
    (hz : ZeroAt (v : WithTop V) pl) : polyValue (Function.update N v w) pl = polyValue N pl := by
  refine eval_congr_of_zeroAt (fun k hk => ?_) hz
  induction k using WithTop.recTopCoe with
  | top => rfl
  | coe x =>
    have hxv : x ≠ v := fun h => hk (h ▸ rfl)
    simp [Function.update_of_ne hxv]

/-! ### Normal form and zero coefficients of the polynomials the code builds -/

omit [LinearOrder V] in
theorem polyValue_const (N : V → Int) (c : Int) : polyValue N ([(c, none)] : Poly V) = c := by
  show c * 1 + 0 = c
  ring

theorem sorted_const (c : Int) : Sorted ([(c, none)] : Poly V) := sorted_singleton _

/-- Two summands of one variable that cancel add up to the empty polynomial. -/
theorem addTwoPolys_cancel (c : Int) (k : WithTop V) : addTwoPolys [] [(c, k)] [(-c, k)] = [] := by
  rw [addTwoPolys_nil, LinearForm.add]
  simp

omit [LinearOrder V] in
/-- What `multiply_two_polys` returns has the product of the values of its factors. -/
theorem polyValue_multiplyTwoPolys (N : V → Int) {pt1 pt2 r : Poly V}
    (h : multiplyTwoPolys pt1 pt2 = .ok r) :
    polyValue N r = polyValue N pt1 * polyValue N pt2 := by
  unfold multiplyTwoPolys at h
  split at h
  · split_ifs at h with hc
    · cases h
      simp [polyValue_const, hc]
    · split at h
      · split_ifs at h with hc'
        · cases h
          simp [polyValue_const, hc']
        · cases h
          rw [polyValue_polyTimesNum, polyValue_const, polyValue_const, mul_comm]
      · cases h
        rw [polyValue_polyTimesNum, polyValue_const, mul_comm]
  · split_ifs at h with hc
    · cases h
      simp [polyValue_const, hc]
    · cases h
      rw [polyValue_polyTimesNum, polyValue_const]
  · cases h

theorem sorted_polyTimesNum {pt : Poly V} (h : Sorted pt) (i : Int) : Sorted (polyTimesNum pt i) :=
  h.map_coeff (· * i)

theorem sorted_negatePoly {pt : Poly V} (h : Sorted pt) : Sorted (negatePoly pt) :=
  h.map_coeff (- ·)

theorem sorted_filter_not_contains {pt : Poly V} (h : Sorted pt) (v : V) :
    Sorted (pt.filter fun x => !psummandContainsVariable v x) :=
  h.filter _

omit [LinearOrder V] in
theorem ZeroOn.mono {X Y : V → Prop} {pl : Poly V} (h : ZeroOn X pl) (hYX : ∀ x, Y x → X x) :
    ZeroOn Y pl :=
  fun x hx => h x (hYX x hx)

omit [LinearOrder V] in
theorem ZeroOn.union {X Y : V → Prop} {pl : Poly V} (hX : ZeroOn X pl) (hY : ZeroOn Y pl) :
    ZeroOn (fun x => X x ∨ Y x) pl :=
  fun x hx => hx.elim (hX x) (hY x)

omit [LinearOrder V] in
theorem zeroOn_const (X : V → Prop) (c : Int) : ZeroOn X ([(c, none)] : Poly V) := by
  intro x _ s hs hk
  rw [List.mem_singleton] at hs
  subst hs
  exact absurd hk WithTop.top_ne_coe

omit [LinearOrder V] in
theorem ZeroOn.polyTimesNum {X : V → Prop} {pt : Poly V} (h : ZeroOn X pt) (i : Int) :
    ZeroOn X (polyTimesNum pt i) :=
  fun x hx => (h x hx).map_mul i

omit [LinearOrder V] in
theorem ZeroOn.negatePoly {X : V → Prop} {pt : Poly V} (h : ZeroOn X pt) :
    ZeroOn X (negatePoly pt) :=
  fun x hx => (h x hx).map_neg

omit [LinearOrder V] in
theorem ZeroOn.filter {X : V → Prop} {pt : Poly V} (h : ZeroOn X pt) (f : Psummand V → Bool) :
    ZeroOn X (pt.filter f) :=
  fun x hx => (h x hx).filter f

theorem ZeroOn.addTwoPolys_nil {X : V → Prop} {pt1 pt2 : Poly V} (h1 : ZeroOn X pt1)
    (h2 : ZeroOn X pt2) : ZeroOn X (addTwoPolys [] pt1 pt2) :=
  fun x hx => zeroAt_addTwoPolys_nil (h1 x hx) (h2 x hx)

/-- The summands left by removing those of `v` have no `v`. -/
theorem zeroOn_filter_not_contains (v : V) (pt : Poly V) :
    ZeroOn (· = v) (pt.filter fun x => !psummandContainsVariable v x) := by
  rintro x rfl
  rw [filter_not_psummandContainsVariable]
  exact zeroAt_dropKey _ _

/-- In a sorted polynomial where `v` has coefficient zero, every summand of `v` vanishes. -/
theorem zeroOn_of_getCoeInPoly_eq_zero {v : V} {pt : Poly V} (hs : Sorted pt)
    (h : getCoeInPoly v pt = 0) : ZeroOn (· = v) pt := by
  rintro x rfl
  rw [getCoeInPoly_eq] at h
  exact zeroAt_of_coeff_eq_zero hs h

/-- The coefficient of `v` after multiplying by `i`. -/
theorem getCoeInPoly_polyTimesNum (v : V) (pt : Poly V) (i : Int) :
    getCoeInPoly v (polyTimesNum pt i) = getCoeInPoly v pt * i := by
  rw [getCoeInPoly_eq, getCoeInPoly_eq, polyTimesNum_eq, coeff_map_mul]

theorem getCoeInPoly_single (v : V) (c : Int) :
    getCoeInPoly v ([(c, (v : WithTop V))] : Poly V) = c := by
  rw [getCoeInPoly_eq, coeff_cons, if_pos rfl]

omit [LinearOrder V] in
theorem polyValue_single (N : V → Int) (v : V) (c : Int) :
    polyValue N ([(c, (v : WithTop V))] : Poly V) = c * N v := by
  show c * N v + 0 = c * N v
  ring

/-! ### Canonical polynomials

`add_two_polys` expects its arguments in the form it returns: summands in increasing order of
their variables with the constant summand last, each variable once, and no variable with a zero
coefficient. With the constant as the top of `WithTop V`, that is a `Sorted` form without zero
coefficients at the variables. -/

/-- A polynomial in the form the code keeps. -/
def Canonical (p : Poly V) : Prop := Sorted p ∧ NonzeroOn (· ≠ ⊤) p

instance (p : Poly V) : Decidable (Canonical p) :=
  inferInstanceAs (Decidable (p.Pairwise (fun s t => s.2 < t.2) ∧ ∀ s ∈ p, s.2 ≠ ⊤ → s.1 ≠ 0))

theorem Canonical.addTwoPolys_nil {p q : Poly V} (hp : Canonical p) (hq : Canonical q) :
    Canonical (addTwoPolys [] p q) := by
  rw [Kind2.QE.addTwoPolys_nil]
  exact ⟨sorted_add hp.1 hq.1, hp.2.add hq.2⟩

theorem Canonical.negatePoly {p : Poly V} (hp : Canonical p) : Canonical (negatePoly p) :=
  ⟨sorted_negatePoly hp.1, hp.2.map_coeff fun _ hc => neg_ne_zero.2 hc⟩

theorem Canonical.polyTimesNum {p : Poly V} (hp : Canonical p) {k : Int} (hk : k ≠ 0) :
    Canonical (polyTimesNum p k) :=
  ⟨sorted_polyTimesNum hp.1 k, hp.2.map_coeff fun _ hc => mul_ne_zero hc hk⟩

omit [LinearOrder V] in
/-- `multiply_two_polys` by a non-zero constant on the right scales every summand. -/
theorem multiplyTwoPolys_by_const {k : Int} (hk : k ≠ 0) (p : Poly V) :
    multiplyTwoPolys p [(k, none)] = .ok (polyTimesNum p k) := by
  by_cases hc : ∃ c, p = ([(c, none)] : Poly V)
  · obtain ⟨c, rfl⟩ := hc
    rw [multiplyTwoPolys_consts, polyTimesNum_eq, List.map_singleton, mul_comm]
  · exact multiplyTwoPolys_const_right hk fun c h => hc ⟨c, h⟩

omit [LinearOrder V] in
/-- `multiply_two_polys` by a non-zero constant on the left scales every summand; a zero constant
on the right gives the zero constant, which is the scaled polynomial too. -/
theorem multiplyTwoPolys_const_mul {k : Int} (hk : k ≠ 0) (p : Poly V) :
    multiplyTwoPolys [(k, none)] p = .ok (polyTimesNum p k) := by
  rcases p with _ | ⟨⟨c, _ | x⟩, _ | ⟨s, p⟩⟩
  · simp [multiplyTwoPolys, hk, polyTimesNum, pure, Except.pure]
  · by_cases hc : c = 0
    · subst hc
      simp [multiplyTwoPolys, hk, polyTimesNum, psummandTimesNum, pure, Except.pure]
    · simp [multiplyTwoPolys, hk, hc, pure, Except.pure]
  all_goals simp [multiplyTwoPolys, hk, pure, Except.pure]

/-- Canonical polynomials are closed under the operations of `poly.ml`, for every order of the
variables: the sum, the negation and the product with a non-zero constant on either side are
canonical and have the values of the sum, the negation and the product. -/
theorem canonical_addTwoPolys_negatePoly_multiplyTwoPolys {p q : Poly V} (hp : Canonical p)
    (hq : Canonical q) :
    (Canonical (addTwoPolys [] p q) ∧
      ∀ N, polyValue N (addTwoPolys [] p q) = polyValue N p + polyValue N q) ∧
    (Canonical (negatePoly p) ∧ ∀ N, polyValue N (negatePoly p) = -polyValue N p) ∧
    ∀ k : Int, k ≠ 0 →
      (∃ r, multiplyTwoPolys p [(k, none)] = .ok r ∧ Canonical r ∧
        ∀ N, polyValue N r = polyValue N p * k) ∧
      (∃ r, multiplyTwoPolys [(k, none)] p = .ok r ∧ Canonical r ∧
        ∀ N, polyValue N r = k * polyValue N p) := by
  refine ⟨⟨hp.addTwoPolys_nil hq, fun N => polyValue_addTwoPolys_nil N p q⟩,
    ⟨hp.negatePoly, fun N => polyValue_negatePoly N p⟩, fun k hk => ⟨?_, ?_⟩⟩
  · exact ⟨_, multiplyTwoPolys_by_const hk p, hp.polyTimesNum hk,
      fun N => polyValue_polyTimesNum N p k⟩
  · refine ⟨_, multiplyTwoPolys_const_mul hk p, hp.polyTimesNum hk, fun N => ?_⟩
    rw [polyValue_polyTimesNum, mul_comm]

/-- The two polynomials `2·x₀ + 3` and `-2·x₀ + x₁` over the variables `ℕ`. -/
theorem canonical_addTwoPolys_negatePoly_multiplyTwoPolys_sample :
    Canonical ([(2, ((0 : ℕ) : WithTop ℕ)), (3, ⊤)] : Poly ℕ) ∧
      Canonical ([(-2, ((0 : ℕ) : WithTop ℕ)), (1, ((1 : ℕ) : WithTop ℕ))] : Poly ℕ) ∧
      Canonical (addTwoPolys [] ([(2, ((0 : ℕ) : WithTop ℕ)), (3, ⊤)] : Poly ℕ)
        [(-2, ((0 : ℕ) : WithTop ℕ)), (1, ((1 : ℕ) : WithTop ℕ))]) := by
  have hp : Canonical ([(2, ((0 : ℕ) : WithTop ℕ)), (3, ⊤)] : Poly ℕ) := by decide
  have hq : Canonical ([(-2, ((0 : ℕ) : WithTop ℕ)), (1, ((1 : ℕ) : WithTop ℕ))] : Poly ℕ) := by
    decide
  exact ⟨hp, hq, (canonical_addTwoPolys_negatePoly_multiplyTwoPolys hp hq).1.1⟩

end Spec

end Kind2.QE
