import Kind2.QE.Poly
import Kind2.Lib.Projection

/-!
# Cooper's quantifier elimination guided by a model (`qe/cooperQE.ml`)

`eliminate model elim cf` removes the integer variables `elim` from the conjunction `cf`, one
after the other, using a model of `cf`. To eliminate `v` (`eliminate_variable_in_cformula`) it
scales every atom so that `v` has the coefficient `±lcm`, the least common multiple of its
coefficients, and adds `lcm | lcm·v`; then it either replaces `lcm·v` by a lower bound of it
shifted to take the model's value of `lcm·v` (the last strict lower bound found, or an equation),
or, when `v` has no lower bound, drops the bounds on `v` and replaces `v` by its value in the
model; last it drops the atoms that are trivially true.

The functions are those of the source under `order_var_by_elim = false` (the comparator `c` is
then `Var.compare_vars`, the order of `V`); the model is an integer assignment `V → Int`. The
exceptions of the source are the errors of `Except` (`Failure` from `multiply_two_polys` and
`Assert_failure` from `scale_coefficient_in_cformula`), and `Not_found` of
`find_lower_bound_in_cformula` is `none`.
-/

namespace Kind2.QE

open LinearForm Projection

variable {V : Type} [LinearOrder V]

section Code

/-- `greatest_common_divisor`: Euclid's algorithm; `Numeral.(mod)` is Euclidean, as `Int.emod`. -/
def greatestCommonDivisor (i1 i2 : Int) : Int :=
  if _h : i2 ≠ 0 then greatestCommonDivisor i2 (i1 % i2) else |i1|
termination_by i2.natAbs
decreasing_by
  have h1 := Int.emod_nonneg i1 _h
  have h2 := Int.emod_lt i1 _h
  omega

/-- `least_common_multiple`. -/
def leastCommonMultiple (i1 i2 : Int) : Int :=
  if i1 = 0 then i2
  else if i2 = 0 then i1
  else |i1 * i2| / greatestCommonDivisor i1 i2

/-- The function that `find_lcm_in_cformula` folds over the atoms. -/
def findLcmStep (v : V) (i : Int) (pret : PreAtom V) : Int :=
  match pret with
  | .gt pl | .eq pl | .ineq pl | .divisible _ pl | .indivisible _ pl =>
    let coe := getCoeInPoly v pl
    if coe = 0 then i
    else if i = 0 then |coe|
    else leastCommonMultiple i coe

/-- `find_lcm_in_cformula`: the least common multiple of the coefficients of `v`, zero when `v`
does not occur. -/
def findLcmInCformula (v : V) (cf : Cformula V) : Int := cf.foldl (findLcmStep v) 0

/-- `scale_coefficient_in_poly`: multiply `pt` by the positive number `lcm / |coe|`. The source's
last branch, a `failwith` for a coefficient neither zero, positive nor negative, is left out. -/
def scaleCoefficientInPoly (v : V) (lcm : Int) (pt : Poly V) : Except String (Poly V) :=
  let coe := getCoeInPoly v pt
  if coe = 0 then pure pt
  else if 0 < coe then multiplyTwoPolys pt [(lcm / coe, none)]
  else multiplyTwoPolys pt [((-1) * lcm / coe, none)]

/-- `scale_coefficient_in_preAtom`: the divisor of a divisibility atom is scaled with it. -/
def scaleCoefficientInPreAtom (v : V) (lcm : Int) (pret : PreAtom V) :
    Except String (PreAtom V) :=
  match pret with
  | .gt pl => .gt <$> scaleCoefficientInPoly v lcm pl
  | .eq pl => .eq <$> scaleCoefficientInPoly v lcm pl
  | .ineq pl => .ineq <$> scaleCoefficientInPoly v lcm pl
  | .divisible i pl =>
    let coe := getCoeInPoly v pl
    if coe = 0 then pure pret
    else .divisible (i * |lcm / coe|) <$> scaleCoefficientInPoly v lcm pl
  | .indivisible i pl =>
    let coe := getCoeInPoly v pl
    if coe = 0 then pure pret
    else .indivisible (i * |lcm / coe|) <$> scaleCoefficientInPoly v lcm pl

/-- `scale_coefficient_in_cformula`: scale every atom and add `lcm | lcm·v`. -/
def scaleCoefficientInCformula (v : V) (lcm : Int) (cf : Cformula V) :
    Except String (Cformula V) :=
  if lcm ≤ 0 then throw "Assert_failure"
  else if lcm = 1 then pure cf
  else (.divisible lcm [(lcm, (v : WithTop V))] :: ·) <$> cf.mapM (scaleCoefficientInPreAtom v lcm)

/-- `substitute_variable_in_poly`: replace `v` by `pt1` in `pt2`. -/
def substituteVariableInPoly (v : V) (pt1 pt2 : Poly V) : Except String (Poly V) :=
  if getCoeInPoly v pt2 = 0 then pure pt2
  else do
    let m ← multiplyTwoPolys pt1 [(getCoeInPoly v pt2, none)]
    pure (addTwoPolys [] m (pt2.filter fun x => !psummandContainsVariable v x))

/-- `substitute_variable_in_preAtom`. -/
def substituteVariableInPreAtom (v : V) (pl : Poly V) (pret : PreAtom V) :
    Except String (PreAtom V) :=
  match pret with
  | .gt pl' => .gt <$> substituteVariableInPoly v pl pl'
  | .eq pl' => .eq <$> substituteVariableInPoly v pl pl'
  | .ineq pl' => .ineq <$> substituteVariableInPoly v pl pl'
  | .divisible i pl' => .divisible i <$> substituteVariableInPoly v pl pl'
  | .indivisible i pl' => .indivisible i <$> substituteVariableInPoly v pl pl'

/-- `substitute_variable_in_cformula`. -/
def substituteVariableInCformula (v : V) (pl : Poly V) (cf : Cformula V) :
    Except String (Cformula V) :=
  cf.mapM (substituteVariableInPreAtom v pl)

/-- `substitute_summand_in_poly`: replace the summand `±lcm·v` of `pt2` by `±pt1`. The source's
last branch, a `failwith` for a coefficient neither zero, positive nor negative, is left out. -/
def substituteSummandInPoly (v : V) (pt1 pt2 : Poly V) : Poly V :=
  let i := getCoeInPoly v pt2
  if i = 0 then pt2
  else if 0 < i then addTwoPolys [] pt1 (pt2.filter fun x => !psummandContainsVariable v x)
  else addTwoPolys [] (negatePoly pt1) (pt2.filter fun x => !psummandContainsVariable v x)

/-- `substitute_summand_in_preAtom`. -/
def substituteSummandInPreAtom (v : V) (pl : Poly V) (pret : PreAtom V) : PreAtom V :=
  match pret with
  | .gt pl' => .gt (substituteSummandInPoly v pl pl')
  | .eq pl' => .eq (substituteSummandInPoly v pl pl')
  | .ineq pl' => .ineq (substituteSummandInPoly v pl pl')
  | .divisible i pl' => .divisible i (substituteSummandInPoly v pl pl')
  | .indivisible i pl' => .indivisible i (substituteSummandInPoly v pl pl')

/-- `substitute_summand_in_cformula`. -/
def substituteSummandInCformula (v : V) (pl : Poly V) (cf : Cformula V) : Cformula V :=
  cf.map (substituteSummandInPreAtom v pl)

/-- `eval_poly`: the value of a polynomial in the model. -/
def evalPoly (model : V → Int) (pt : Poly V) : Int :=
  pt.foldl (fun accum (coe, v) =>
    match v with
    | none => accum + coe
    | some v => accum + coe * model v) 0

/-- `find_rough_lower_bounds_in_cformula`: the lower bounds of `lcm·v` of the strict inequalities,
the last one first, or the bound of the first equation that has `v`. -/
def findRoughLowerBoundsInCformula (v : V) : Cformula V → List (Poly V) → List (Poly V)
  | [], l => l
  | .gt pl :: cf', l =>
    if 0 < getCoeInPoly v pl then
      -- `lcm·v + t > 0` gives `lcm·v ≥ -t + 1`
      let lb := addTwoPolys [] [(1, none)]
        (negatePoly (pl.filter fun x => !psummandContainsVariable v x))
      findRoughLowerBoundsInCformula v cf' (lb :: l)
    else findRoughLowerBoundsInCformula v cf' l
  | .eq pl :: cf', l =>
    if 0 < getCoeInPoly v pl then
      [negatePoly (pl.filter fun x => !psummandContainsVariable v x)]
    else if getCoeInPoly v pl < 0 then
      [pl.filter fun x => !psummandContainsVariable v x]
    else findRoughLowerBoundsInCformula v cf' l
  | .ineq _ :: cf', l | .divisible _ _ :: cf', l | .indivisible _ _ :: cf', l =>
    findRoughLowerBoundsInCformula v cf' l

/-- `find_divisible_lower_bound`: shift the bound `pl` by the offset that gives it the value of
`coe_lcm·v` in the model. -/
def findDivisibleLowerBound (model : V → Int) (v : V) (coeLcm : Int) (pl : Poly V) : Poly V :=
  let j := model v * coeLcm - evalPoly model pl
  addTwoPolys [] pl [(j, none)]

/-- `find_lower_bound_in_cformula`, with `none` for `Not_found`. -/
def findLowerBoundInCformula (model : V → Int) (v : V) (coeLcm : Int) (cf : Cformula V) :
    Option (Poly V) :=
  match findRoughLowerBoundsInCformula v cf [] with
  | [] => none
  | lb :: _ => some (findDivisibleLowerBound model v coeLcm lb)

/-- The test by which `handle_infinitely_small_case` filters the atoms: it keeps the comparisons
without `v` and every divisibility atom. -/
def keepInInfinitelySmallCase (v : V) : PreAtom V → Bool
  | .gt pl | .eq pl | .ineq pl => decide (getCoeInPoly v pl = 0)
  | _ => true

/-- `handle_infinitely_small_case`: drop the comparisons that contain `v` and replace `v` by its
value in the model in the rest. -/
def handleInfinitelySmallCase (model : V → Int) (v : V) (cf : Cformula V) :
    Except String (Cformula V) :=
  let cf' := cf.filter (keepInInfinitelySmallCase v)
  substituteVariableInCformula v [(model v, none)] cf'

/-- `preAtom_is_trivial`: the atom holds in every assignment. `Numeral.(mod)` raises
`Division_by_zero` on a zero divisor, where `Int.emod` returns the dividend; no well-formed atom
has a zero divisor. -/
def preAtomIsTrivial : PreAtom V → Bool
  | .gt [(c, none)] => decide (0 < c)
  | .eq [(c, none)] => decide (c = 0)
  | .ineq [(c, none)] => decide (c ≠ 0)
  | .divisible c pl =>
    if c = 1 then true
    else
      match pl with
      | [(c', none)] => decide (c' % c = 0)
      | _ => false
  | .indivisible i [(c, none)] => decide (c % i ≠ 0)
  | _ => false

/-- `eliminate_variable_in_cformula`. -/
def eliminateVariableInCformula (model : V → Int) (v : V) (cf : Cformula V) :
    Except String (Cformula V) := do
  let coeLcm := findLcmInCformula v cf
  if coeLcm = 0 then pure cf
  else
    let scf ← scaleCoefficientInCformula v coeLcm cf
    match findLowerBoundInCformula model v coeLcm scf with
    | some lowerBound =>
      let ret := substituteSummandInCformula v lowerBound scf
      pure (ret.filter fun x => !preAtomIsTrivial x)
    | none =>
      let ret ← handleInfinitelySmallCase model v scf
      pure (ret.filter fun x => !preAtomIsTrivial x)

/-- `eliminate`: eliminate the variables one after the other. -/
def eliminate (model : V → Int) : List V → Cformula V → Except String (Cformula V)
  | [], cf => pure cf
  | v :: l', cf => do
    let ret ← eliminateVariableInCformula model v cf
    eliminate model l' ret

end Code

end Kind2.QE

namespace Kind2.QE

open LinearForm Projection

variable {V : Type} [LinearOrder V]

/-! ## Each function's specification -/

section Spec

/-- A result of `Except` for each element of a list gives a result for the whole list. -/
theorem mapM_except_ok {α β ε : Type} {f : α → Except ε β} {g : α → β} :
    ∀ {l : List α}, (∀ a ∈ l, f a = .ok (g a)) → l.mapM f = .ok (l.map g)
  | [], _ => rfl
  | a :: l, h => by
    rw [List.mapM_cons, h a (List.mem_cons_self ..),
      mapM_except_ok fun b hb => h b (List.mem_cons_of_mem _ hb)]
    rfl

theorem greatestCommonDivisor_eq (i1 i2 : Int) :
    greatestCommonDivisor i1 i2 = (Int.gcd i1 i2 : Int) := by
  induction i1, i2 using greatestCommonDivisor.induct with
  | case1 i1 i2 h ih =>
    -- Euclid's step: `gcd i2 (i1 mod i2) = gcd i1 i2`
    rw [greatestCommonDivisor, dif_pos h, ih, Int.gcd_comm i2, Int.gcd_emod]
  | case2 i1 i2 h =>
    have h0 : i2 = 0 := not_not.1 h
    rw [greatestCommonDivisor, dif_neg h, h0, Int.gcd_zero_right, Int.natCast_natAbs]

theorem leastCommonMultiple_eq {i1 i2 : Int} (h1 : i1 ≠ 0) (h2 : i2 ≠ 0) :
    leastCommonMultiple i1 i2 = (Int.lcm i1 i2 : Int) := by
  rw [leastCommonMultiple, if_neg h1, if_neg h2, greatestCommonDivisor_eq, ← Int.natCast_natAbs,
    Int.natAbs_mul, Int.lcm, Nat.lcm, Int.gcd, Int.natCast_div, Nat.cast_mul]

theorem findLcmStep_eq (v : V) (i : Int) (a : PreAtom V) :
    findLcmStep v i a =
      if getCoeInPoly v a.poly = 0 then i
      else if i = 0 then |getCoeInPoly v a.poly|
      else leastCommonMultiple i (getCoeInPoly v a.poly) := by
  cases a <;> rfl

/-- The fold of `find_lcm_in_cformula` from a non-negative `i`: its result is a non-negative
multiple of `i` and of every non-zero coefficient of `v`, zero when they all are. -/
theorem foldl_findLcmStep (v : V) : ∀ (cf : Cformula V) {i : Int}, 0 ≤ i →
    0 ≤ cf.foldl (findLcmStep v) i ∧ (i ≠ 0 → i ∣ cf.foldl (findLcmStep v) i) ∧
      (∀ a ∈ cf, getCoeInPoly v a.poly ≠ 0 → getCoeInPoly v a.poly ∣ cf.foldl (findLcmStep v) i) ∧
      (cf.foldl (findLcmStep v) i = 0 → i = 0 ∧ ∀ a ∈ cf, getCoeInPoly v a.poly = 0)
  | [], i, hi => ⟨hi, fun _ => dvd_rfl, by simp, fun h => ⟨h, by simp⟩⟩
  | a :: cf, i, hi => by
    set coe := getCoeInPoly v a.poly with hcoe
    -- one step: the new value `i'` is a non-negative multiple of `i` and of `coe`
    have hstep : 0 ≤ findLcmStep v i a ∧ (i ≠ 0 → i ∣ findLcmStep v i a) ∧
        (coe ≠ 0 → coe ∣ findLcmStep v i a ∧ findLcmStep v i a ≠ 0) ∧
        (findLcmStep v i a = 0 → i = 0 ∧ coe = 0) := by
      rw [findLcmStep_eq, ← hcoe]
      by_cases h0 : coe = 0
      · simp only [if_pos h0]
        exact ⟨hi, fun _ => dvd_rfl, fun h => absurd h0 h, fun h => ⟨h, h0⟩⟩
      · rw [if_neg h0]
        by_cases hi0 : i = 0
        · rw [if_pos hi0]
          exact ⟨abs_nonneg _, fun h => absurd hi0 h, fun _ => ⟨self_dvd_abs _, abs_ne_zero.2 h0⟩,
            fun h => absurd (abs_eq_zero.1 h) h0⟩
        · rw [if_neg hi0, leastCommonMultiple_eq hi0 h0]
          have hne : (Int.lcm i coe : Int) ≠ 0 := Int.natCast_ne_zero.2 (Int.lcm_ne_zero hi0 h0)
          exact ⟨Int.natCast_nonneg _, fun _ => Int.dvd_lcm_left _ _,
            fun _ => ⟨Int.dvd_lcm_right _ _, hne⟩, fun h => absurd h hne⟩
    obtain ⟨h1, h2, h3, h4⟩ := hstep
    obtain ⟨ih1, ih2, ih3, ih4⟩ := foldl_findLcmStep v cf h1
    rw [List.foldl_cons]
    refine ⟨ih1, fun hi0 => ?_, fun b hb hb0 => ?_, fun h => ?_⟩
    · -- `i` divides the next value, which is not zero
      have hne : findLcmStep v i a ≠ 0 := fun h => hi0 (h4 h).1
      exact (h2 hi0).trans (ih2 hne)
    · rcases List.mem_cons.1 hb with rfl | hb
      · exact (h3 hb0).1.trans (ih2 (h3 hb0).2)
      · exact ih3 b hb hb0
    · obtain ⟨hz, hcf⟩ := ih4 h
      obtain ⟨hi0, hc0⟩ := h4 hz
      exact ⟨hi0, fun b hb => (List.mem_cons.1 hb).elim (fun h => h ▸ hc0) (hcf b)⟩

/-- Without `v` the fold of `find_lcm_in_cformula` keeps its value. -/
theorem foldl_findLcmStep_of_forall_eq_zero (v : V) {cf : Cformula V}
    (h : ∀ a ∈ cf, getCoeInPoly v a.poly = 0) (i : Int) : cf.foldl (findLcmStep v) i = i := by
  induction cf generalizing i with
  | nil => rfl
  | cons a cf ih =>
    rw [List.foldl_cons, findLcmStep_eq, if_pos (h a (List.mem_cons_self ..))]
    exact ih (fun b hb => h b (List.mem_cons_of_mem _ hb)) i

theorem findLcmInCformula_eq_zero {v : V} {cf : Cformula V}
    (h : ∀ a ∈ cf, getCoeInPoly v a.poly = 0) : findLcmInCformula v cf = 0 :=
  foldl_findLcmStep_of_forall_eq_zero v h 0

/-- `find_lcm_in_cformula` returns a non-negative common multiple of the coefficients of `v`,
zero exactly when `v` has coefficient zero everywhere. -/
theorem findLcmInCformula_spec (v : V) (cf : Cformula V) :
    0 ≤ findLcmInCformula v cf ∧
      (∀ a ∈ cf, getCoeInPoly v a.poly ≠ 0 → getCoeInPoly v a.poly ∣ findLcmInCformula v cf) ∧
      (findLcmInCformula v cf = 0 → ∀ a ∈ cf, getCoeInPoly v a.poly = 0) := by
  obtain ⟨h1, -, h3, h4⟩ := foldl_findLcmStep v cf le_rfl
  exact ⟨h1, h3, fun h => (h4 h).2⟩

/-! ### Scaling -/

/-- An atom with its polynomial, and the divisor of a divisibility atom, multiplied by `k`. -/
def PreAtom.scale (k : Int) : PreAtom V → PreAtom V
  | .gt pl => .gt (polyTimesNum pl k)
  | .eq pl => .eq (polyTimesNum pl k)
  | .ineq pl => .ineq (polyTimesNum pl k)
  | .divisible i pl => .divisible (i * k) (polyTimesNum pl k)
  | .indivisible i pl => .indivisible (i * k) (polyTimesNum pl k)

/-- What `scale_coefficient_in_preAtom` makes of an atom: unchanged without `v`, else scaled by
the positive factor `lcm / |coe|`. -/
def PreAtom.scaleFor (v : V) (lcm : Int) (a : PreAtom V) : PreAtom V :=
  if getCoeInPoly v a.poly = 0 then a else a.scale |lcm / getCoeInPoly v a.poly|

omit [LinearOrder V] in
theorem PreAtom.poly_scale (k : Int) (a : PreAtom V) : (a.scale k).poly = polyTimesNum a.poly k := by
  cases a <;> rfl

omit [LinearOrder V] in
/-- Multiplying an atom by a positive number keeps its models. -/
theorem PreAtom.holds_scale {k : Int} (hk : 0 < k) (N : V → Int) (a : PreAtom V) :
    (a.scale k).holds N ↔ a.holds N := by
  cases a with
  | gt pl =>
    show 0 < polyValue N (polyTimesNum pl k) ↔ 0 < polyValue N pl
    rw [polyValue_polyTimesNum, mul_pos_iff_of_pos_right hk]
  | eq pl =>
    show polyValue N (polyTimesNum pl k) = 0 ↔ polyValue N pl = 0
    rw [polyValue_polyTimesNum, mul_eq_zero, or_iff_left hk.ne']
  | ineq pl =>
    show polyValue N (polyTimesNum pl k) ≠ 0 ↔ polyValue N pl ≠ 0
    rw [polyValue_polyTimesNum, mul_ne_zero_iff, and_iff_left hk.ne']
  | divisible i pl =>
    show i * k ∣ polyValue N (polyTimesNum pl k) ↔ i ∣ polyValue N pl
    rw [polyValue_polyTimesNum, Int.mul_dvd_mul_iff_right hk.ne']
  | indivisible i pl =>
    show ¬ i * k ∣ polyValue N (polyTimesNum pl k) ↔ ¬ i ∣ polyValue N pl
    rw [polyValue_polyTimesNum, Int.mul_dvd_mul_iff_right hk.ne']

theorem PreAtom.WellFormed.scale {a : PreAtom V} (h : a.WellFormed) {k : Int} (hk : k ≠ 0) :
    (a.scale k).WellFormed := by
  refine ⟨a.poly_scale k ▸ sorted_polyTimesNum h.1 k, ?_⟩
  have hd := h.2
  cases a <;> simp_all [PreAtom.scale, PreAtom.divisor]

/-- The factor `lcm / |coe|` is positive and brings the coefficient `coe` to `±lcm`. -/
theorem scale_factor_spec {lcm coe : Int} (hl : 0 < lcm) (hd : coe ∣ lcm) :
    0 < |lcm / coe| ∧ |coe| * |lcm / coe| = lcm := by
  have hq : lcm / coe ≠ 0 := fun h => by
    have := Int.mul_ediv_cancel' hd
    rw [h, mul_zero] at this
    exact hl.ne this
  refine ⟨abs_pos.2 hq, ?_⟩
  rw [← abs_mul, Int.mul_ediv_cancel' hd, abs_of_pos hl]

omit [LinearOrder V] in
theorem PreAtom.scale_one (a : PreAtom V) : a.scale 1 = a := by
  cases a <;> simp [PreAtom.scale, polyTimesNum_eq]

section ScaleFor
variable {v : V} {lcm : Int} {a : PreAtom V}

/-- A scaled atom is the atom multiplied by a positive factor, `1` when `v` does not occur. -/
theorem PreAtom.scaleFor_eq_scale (hl : 0 < lcm)
    (hd : getCoeInPoly v a.poly ≠ 0 → getCoeInPoly v a.poly ∣ lcm) :
    ∃ k, 0 < k ∧ a.scaleFor v lcm = a.scale k := by
  unfold scaleFor
  by_cases h0 : getCoeInPoly v a.poly = 0
  · exact ⟨1, one_pos, by rw [if_pos h0, scale_one]⟩
  · exact ⟨_, (scale_factor_spec hl (hd h0)).1, if_neg h0⟩

theorem PreAtom.holds_scaleFor (hl : 0 < lcm)
    (hd : getCoeInPoly v a.poly ≠ 0 → getCoeInPoly v a.poly ∣ lcm) (N : V → Int) :
    (a.scaleFor v lcm).holds N ↔ a.holds N := by
  obtain ⟨k, hk, hs⟩ := a.scaleFor_eq_scale hl hd
  rw [hs, a.holds_scale hk]

/-- In a scaled atom `v` has the coefficient `0` or `±lcm`. -/
theorem PreAtom.getCoeInPoly_scaleFor (hl : 0 < lcm)
    (hd : getCoeInPoly v a.poly ≠ 0 → getCoeInPoly v a.poly ∣ lcm) :
    getCoeInPoly v (a.scaleFor v lcm).poly = 0 ∨
      |getCoeInPoly v (a.scaleFor v lcm).poly| = lcm := by
  unfold scaleFor
  by_cases h0 : getCoeInPoly v a.poly = 0
  · rw [if_pos h0]
    exact .inl h0
  · rw [if_neg h0]
    obtain ⟨-, hL⟩ := scale_factor_spec hl (hd h0)
    right
    rw [poly_scale, getCoeInPoly_polyTimesNum, abs_mul, abs_abs, hL]

/-- A scaled atom: the same models, well formed, and `v` with coefficient `0` or `±lcm`. -/
theorem PreAtom.scaleFor_spec (hl : 0 < lcm)
    (hd : getCoeInPoly v a.poly ≠ 0 → getCoeInPoly v a.poly ∣ lcm) (hwf : a.WellFormed) :
    (a.scaleFor v lcm).WellFormed ∧ (∀ N, (a.scaleFor v lcm).holds N ↔ a.holds N) ∧
      (getCoeInPoly v (a.scaleFor v lcm).poly = 0 ∨
        |getCoeInPoly v (a.scaleFor v lcm).poly| = lcm) ∧
      ∀ X, ZeroOn X a.poly → ZeroOn X (a.scaleFor v lcm).poly := by
  obtain ⟨k, hk, hs⟩ := a.scaleFor_eq_scale hl hd
  refine ⟨?_, a.holds_scaleFor hl hd, a.getCoeInPoly_scaleFor hl hd, fun X h => ?_⟩
  · rw [hs]
    exact hwf.scale hk.ne'
  · rw [hs, poly_scale]
    exact h.polyTimesNum _

/-- Scaling to `1` changes nothing: every coefficient of `v` it divides is `±1`. -/
theorem PreAtom.scaleFor_one (hd : getCoeInPoly v a.poly ≠ 0 → getCoeInPoly v a.poly ∣ 1) :
    a.scaleFor v 1 = a := by
  unfold scaleFor
  by_cases h0 : getCoeInPoly v a.poly = 0
  · rw [if_pos h0]
  · rw [if_neg h0]
    obtain ⟨hk, hL⟩ := scale_factor_spec one_pos (hd h0)
    rw [Int.eq_one_of_mul_eq_one_left hk.le hL, scale_one]

end ScaleFor

/-- `scale_coefficient_in_poly` with a multiple `lcm` of the coefficient of `v`. -/
theorem scaleCoefficientInPoly_eq {v : V} {lcm : Int} {pt : Poly V} (hl : 0 < lcm)
    (hd : getCoeInPoly v pt ≠ 0 → getCoeInPoly v pt ∣ lcm) :
    scaleCoefficientInPoly v lcm pt =
      .ok (if getCoeInPoly v pt = 0 then pt else polyTimesNum pt |lcm / getCoeInPoly v pt|) := by
  unfold scaleCoefficientInPoly
  by_cases h0 : getCoeInPoly v pt = 0
  · simp only [if_pos h0]
    rfl
  · have hdvd := hd h0
    have hne := ne_const_of_getCoeInPoly_ne_zero h0
    simp only [if_neg h0]
    by_cases hpos : 0 < getCoeInPoly v pt
    · have hq : 0 < lcm / getCoeInPoly v pt := Int.ediv_pos_of_pos_of_dvd hl hpos.le hdvd
      rw [if_pos hpos, abs_of_pos hq]
      exact multiplyTwoPolys_const_right hq.ne' hne
    · -- a negative coefficient: the factor is `-lcm / coe = -(lcm / coe)`
      have hneg : getCoeInPoly v pt < 0 := lt_of_le_of_ne (not_lt.1 hpos) h0
      have hq : lcm / getCoeInPoly v pt < 0 := by
        have hpos' : 0 < lcm / -getCoeInPoly v pt :=
          Int.ediv_pos_of_pos_of_dvd hl (by omega) (Int.neg_dvd.2 hdvd)
        rw [Int.ediv_neg] at hpos'
        omega
      rw [if_neg hpos, neg_one_mul, Int.neg_ediv_of_dvd hdvd, abs_of_neg hq]
      exact multiplyTwoPolys_const_right (neg_ne_zero.2 hq.ne) hne

theorem scaleCoefficientInPreAtom_eq {v : V} {lcm : Int} {a : PreAtom V} (hl : 0 < lcm)
    (hd : getCoeInPoly v a.poly ≠ 0 → getCoeInPoly v a.poly ∣ lcm) :
    scaleCoefficientInPreAtom v lcm a = .ok (a.scaleFor v lcm) := by
  have hs := scaleCoefficientInPoly_eq hl hd
  unfold PreAtom.scaleFor
  by_cases h0 : getCoeInPoly v a.poly = 0
  · rw [if_pos h0] at hs ⊢
    cases a <;> simp only [PreAtom.poly] at h0 hs <;>
      simp only [scaleCoefficientInPreAtom, hs, h0, ↓reduceIte] <;> rfl
  · rw [if_neg h0] at hs ⊢
    cases a <;> simp only [PreAtom.poly] at h0 hs <;>
      simp only [scaleCoefficientInPreAtom, hs, h0, ↓reduceIte] <;> rfl

/-- What `scale_coefficient_in_cformula` makes of a formula with a positive common multiple `lcm`
of the coefficients of `v`: every atom scaled, behind `lcm | lcm·v` unless `lcm = 1`. -/
def scaledCformula (v : V) (lcm : Int) (cf : Cformula V) : Cformula V :=
  (if lcm = 1 then [] else [.divisible lcm [(lcm, (v : WithTop V))]]) ++
    cf.map (PreAtom.scaleFor v lcm)

section Scaled
variable {v : V} {lcm : Int} {cf : Cformula V} {b : PreAtom V}

theorem mem_scaledCformula : b ∈ scaledCformula v lcm cf ↔
    (lcm ≠ 1 ∧ b = .divisible lcm [(lcm, (v : WithTop V))]) ∨ ∃ a ∈ cf, a.scaleFor v lcm = b := by
  unfold scaledCformula
  by_cases h1 : lcm = 1 <;> simp [h1]

variable (hl : 0 < lcm) (hdvd : ∀ a ∈ cf, getCoeInPoly v a.poly ≠ 0 → getCoeInPoly v a.poly ∣ lcm)
include hl hdvd

theorem scaleCoefficientInCformula_eq :
    scaleCoefficientInCformula v lcm cf = .ok (scaledCformula v lcm cf) := by
  unfold scaleCoefficientInCformula scaledCformula
  rw [if_neg (not_le.2 hl)]
  by_cases h1 : lcm = 1
  · -- nothing is scaled: every coefficient of `v` divides `1`
    subst h1
    rw [if_pos rfl, if_pos rfl, List.nil_append,
      List.map_congr_left fun a ha => PreAtom.scaleFor_one (hdvd a ha), List.map_id']
    rfl
  · rw [if_neg h1, if_neg h1,
      mapM_except_ok fun a ha => scaleCoefficientInPreAtom_eq hl (hdvd a ha)]
    rfl

/-- The scaled formula has the models of `cf`: `lcm | lcm·v` holds everywhere. -/
theorem sat_scaledCformula (N : V → Int) : Sat N (scaledCformula v lcm cf) ↔ Sat N cf := by
  have hdiv : (PreAtom.divisible lcm [(lcm, (v : WithTop V))]).holds N :=
    show lcm ∣ polyValue N [(lcm, (v : WithTop V))] by
      rw [polyValue_single]
      exact dvd_mul_right lcm (N v)
  constructor
  · intro h a ha
    exact (a.holds_scaleFor hl (hdvd a ha) N).1 (h _ (mem_scaledCformula.2 (.inr ⟨a, ha, rfl⟩)))
  · intro h b hb
    rcases mem_scaledCformula.1 hb with ⟨-, rfl⟩ | ⟨a, ha, rfl⟩
    · exact hdiv
    · exact (a.holds_scaleFor hl (hdvd a ha) N).2 (h a ha)

theorem getCoeInPoly_of_mem_scaledCformula (hb : b ∈ scaledCformula v lcm cf) :
    getCoeInPoly v b.poly = 0 ∨ |getCoeInPoly v b.poly| = lcm := by
  rcases mem_scaledCformula.1 hb with ⟨-, rfl⟩ | ⟨a, ha, rfl⟩
  · right
    show |getCoeInPoly v [(lcm, (v : WithTop V))]| = lcm
    rw [getCoeInPoly_single, abs_of_pos hl]
  · exact a.getCoeInPoly_scaleFor hl (hdvd a ha)

end Scaled

/-- The scaled formula has the models of `cf` and is well formed; `v` has the coefficient `0` or
`±lcm` in each atom, the variables other than `v` keep their zero coefficients, and `lcm | lcm·v`
is one of the atoms unless `lcm = 1`. -/
theorem scaleCoefficientInCformula_spec {v : V} {cf : Cformula V} (hwf : ∀ a ∈ cf, a.WellFormed)
    (hL : findLcmInCformula v cf ≠ 0) :
    ∃ scf, scaleCoefficientInCformula v (findLcmInCformula v cf) cf = .ok scf ∧
      (∀ a ∈ scf, a.WellFormed) ∧ (∀ N, Sat N scf ↔ Sat N cf) ∧
      (∀ a ∈ scf, getCoeInPoly v a.poly = 0 ∨ |getCoeInPoly v a.poly| = findLcmInCformula v cf) ∧
      (∀ X : V → Prop, ¬ X v → (∀ a ∈ cf, ZeroOn X a.poly) → ∀ a ∈ scf, ZeroOn X a.poly) ∧
      (findLcmInCformula v cf = 1 ∨
        .divisible (findLcmInCformula v cf) [(findLcmInCformula v cf, (v : WithTop V))] ∈ scf) := by
  obtain ⟨hL0, hdvd, -⟩ := findLcmInCformula_spec v cf
  set L := findLcmInCformula v cf with hLdef
  have hl : 0 < L := lt_of_le_of_ne hL0 (Ne.symm hL)
  have hspec := fun a (ha : a ∈ cf) => PreAtom.scaleFor_spec hl (hdvd a ha) (hwf a ha)
  refine ⟨_, scaleCoefficientInCformula_eq hl hdvd, fun b hb => ?_, sat_scaledCformula hl hdvd,
    fun b hb => getCoeInPoly_of_mem_scaledCformula hl hdvd hb, fun X hXv hX b hb => ?_, ?_⟩
  · rcases mem_scaledCformula.1 hb with ⟨-, rfl⟩ | ⟨a, ha, rfl⟩
    · exact ⟨sorted_singleton _, hl.ne'⟩
    · exact (hspec a ha).1
  · rcases mem_scaledCformula.1 hb with ⟨-, rfl⟩ | ⟨a, ha, rfl⟩
    · -- the one summand of `lcm | lcm·v` is that of `v`, which is not in `X`
      intro x hx s hs hk
      have hs' : s = (L, (v : WithTop V)) := List.mem_singleton.1 hs
      subst hs'
      exact absurd (WithTop.coe_injective hk ▸ hx) hXv
    · exact (hspec a ha).2.2.2 X (hX a ha)
  · by_cases h1 : L = 1
    · exact .inl h1
    · exact .inr (mem_scaledCformula.2 (.inl ⟨h1, rfl⟩))

/-- Coefficient normalisation: where `v` occurs in `cf`, the least common multiple `L` of its
coefficients is positive and a multiple of each of them, and scaling `cf` to `L` keeps its models
and gives `v` the coefficient `L` or `-L` in every atom of the result where it occurs. Each atom
of the result is `L | L·v` or an atom of `cf` whose polynomial and divisor are multiplied by one
positive factor. -/
theorem scaleCoefficientInCformula_findLcm (v : V) (cf : Cformula V)
    (hv : ∃ a ∈ cf, getCoeInPoly v a.poly ≠ 0) :
    0 < findLcmInCformula v cf ∧
      (∀ a ∈ cf, getCoeInPoly v a.poly ≠ 0 → getCoeInPoly v a.poly ∣ findLcmInCformula v cf) ∧
      ∃ scf, scaleCoefficientInCformula v (findLcmInCformula v cf) cf = .ok scf ∧
        (∀ N, Sat N scf ↔ Sat N cf) ∧
        (∀ b ∈ scf, getCoeInPoly v b.poly ≠ 0 →
          getCoeInPoly v b.poly = findLcmInCformula v cf ∨
            getCoeInPoly v b.poly = -findLcmInCformula v cf) ∧
        ∀ b ∈ scf, b = .divisible (findLcmInCformula v cf)
            [(findLcmInCformula v cf, (v : WithTop V))] ∨
          ∃ a ∈ cf, ∃ k, 0 < k ∧ b = a.scale k := by
  obtain ⟨hL0, hdvd, hzero⟩ := findLcmInCformula_spec v cf
  -- `L` is not zero, since `v` has a non-zero coefficient
  have hl : 0 < findLcmInCformula v cf := by
    refine lt_of_le_of_ne hL0 fun h => ?_
    obtain ⟨a, ha, hne⟩ := hv
    exact hne (hzero h.symm a ha)
  refine ⟨hl, hdvd, _, scaleCoefficientInCformula_eq hl hdvd, sat_scaledCformula hl hdvd,
    fun b hb hb0 => ?_, fun b hb => ?_⟩
  · rcases getCoeInPoly_of_mem_scaledCformula hl hdvd hb with h | h
    · exact absurd h hb0
    · exact (abs_eq hl.le).1 h
  · rcases mem_scaledCformula.1 hb with ⟨-, rfl⟩ | ⟨a, ha, rfl⟩
    · exact .inl rfl
    · obtain ⟨k, hk, hs⟩ := a.scaleFor_eq_scale hl (hdvd a ha)
      exact .inr ⟨a, ha, k, hk, hs⟩

/-- `2·x > 0 ∧ 3·x - 1 = 0` is scaled to `6`: `6·x > 0 ∧ 6·x - 2 = 0`, beside `6 | 6·x`. -/
theorem scaleCoefficientInCformula_findLcm_sample :
    (∃ a ∈ ([.gt [(2, some 0)], .eq [(3, some 0), (-1, none)]] : Cformula Nat),
        getCoeInPoly 0 a.poly ≠ 0) ∧
      0 < findLcmInCformula 0 ([.gt [(2, some 0)], .eq [(3, some 0), (-1, none)]] : Cformula Nat) ∧
      (∀ a ∈ ([.gt [(2, some 0)], .eq [(3, some 0), (-1, none)]] : Cformula Nat),
        getCoeInPoly 0 a.poly ≠ 0 → getCoeInPoly 0 a.poly ∣ findLcmInCformula 0
          ([.gt [(2, some 0)], .eq [(3, some 0), (-1, none)]] : Cformula Nat)) :=
  ⟨by decide, (scaleCoefficientInCformula_findLcm 0 _ (by decide)).1,
    (scaleCoefficientInCformula_findLcm 0 _ (by decide)).2.1⟩

/- The scaled formula of the sample. -/
example : scaleCoefficientInCformula 0 (findLcmInCformula 0
    ([.gt [(2, some 0)], .eq [(3, some 0), (-1, none)]] : Cformula Nat))
      [.gt [(2, some 0)], .eq [(3, some 0), (-1, none)]] =
    .ok [.divisible 6 [(6, some 0)], .gt [(6, some 0)], .eq [(6, some 0), (-2, none)]] := by
  decide +kernel

/-! ### Substitution -/

theorem substituteSummandInPreAtom_eq (v : V) (t : Poly V) (a : PreAtom V) :
    substituteSummandInPreAtom v t a = a.withPoly (substituteSummandInPoly v t a.poly) := by
  cases a <;> rfl

/-- Replacing the summand `±lcm·v` by `±t`, where `t` has the value `lcm·w`, gives the value of
the polynomial where `v` is `w`. -/
theorem polyValue_substituteSummandInPoly (N : V → Int) {v : V} {lcm w : Int} {t p : Poly V}
    (hp : Sorted p) (hc : getCoeInPoly v p = 0 ∨ |getCoeInPoly v p| = lcm)
    (ht : polyValue N t = lcm * w) :
    polyValue N (substituteSummandInPoly v t p) = polyValue (Function.update N v w) p := by
  have hdec := polyValue_eq_coe_add N v hp
  rw [polyValue_update N v w hp]
  unfold substituteSummandInPoly
  by_cases h0 : getCoeInPoly v p = 0
  · rw [if_pos h0, h0, zero_mul, add_zero]
  · have hL : |getCoeInPoly v p| = lcm := hc.resolve_left h0
    rw [if_neg h0]
    by_cases hpos : 0 < getCoeInPoly v p
    · have hc' : getCoeInPoly v p = lcm := by rw [← hL, abs_of_pos hpos]
      rw [if_pos hpos, polyValue_addTwoPolys_nil, ht]
      rw [hc'] at hdec ⊢
      linear_combination -hdec
    · have hc' : getCoeInPoly v p = -lcm := by
        rw [← hL, abs_of_neg (lt_of_le_of_ne (not_lt.1 hpos) h0), neg_neg]
      rw [if_neg hpos, polyValue_addTwoPolys_nil, polyValue_negatePoly, ht]
      rw [hc'] at hdec ⊢
      linear_combination -hdec

/-- The polynomials `substitute_summand_in_poly` builds from sorted ones are sorted, and a
substitute without `v` removes `v`. -/
theorem substituteSummandInPoly_normal {v : V} {X : V → Prop} {t p : Poly V} (hp : Sorted p)
    (ht : Sorted t) (hX : ZeroOn X p) (htX : ZeroOn (fun x => x = v ∨ X x) t) :
    Sorted (substituteSummandInPoly v t p) ∧
      ZeroOn (fun x => x = v ∨ X x) (substituteSummandInPoly v t p) := by
  have hrest : ZeroOn (fun x => x = v ∨ X x) (p.filter fun x => !psummandContainsVariable v x) :=
    (zeroOn_filter_not_contains v p).union (hX.filter _)
  unfold substituteSummandInPoly
  dsimp only
  split_ifs with h0 hpos
  · exact ⟨hp, (zeroOn_of_getCoeInPoly_eq_zero hp h0).union hX⟩
  · exact ⟨sorted_addTwoPolys_nil ht (sorted_filter_not_contains hp v), htX.addTwoPolys_nil hrest⟩
  · exact ⟨sorted_addTwoPolys_nil (sorted_negatePoly ht) (sorted_filter_not_contains hp v),
      htX.negatePoly.addTwoPolys_nil hrest⟩

/-- `substitute_variable_in_poly` by a constant never fails. -/
theorem substituteVariableInPoly_const (v : V) (m : Int) (pt : Poly V) :
    substituteVariableInPoly v ([(m, none)] : Poly V) pt =
      .ok (if getCoeInPoly v pt = 0 then pt
        else addTwoPolys [] ([(getCoeInPoly v pt * m, none)] : Poly V)
          (pt.filter fun x => !psummandContainsVariable v x)) := by
  unfold substituteVariableInPoly
  by_cases h0 : getCoeInPoly v pt = 0
  · simp only [if_pos h0]
    rfl
  · simp only [if_neg h0]
    rw [multiplyTwoPolys_consts]
    rfl

/-- Replacing `v` by the constant `m` in a sorted polynomial gives its value where `v` is `m`, and
a sorted polynomial without `v`. -/
theorem substituteVariableInPoly_const_spec (v : V) (m : Int) {pt : Poly V} (hs : Sorted pt) :
    let q := if getCoeInPoly v pt = 0 then pt
      else addTwoPolys [] ([(getCoeInPoly v pt * m, none)] : Poly V)
        (pt.filter fun x => !psummandContainsVariable v x)
    (∀ N, polyValue N q = polyValue (Function.update N v m) pt) ∧ Sorted q ∧
      ∀ X : V → Prop, ZeroOn X pt → ZeroOn (fun x => x = v ∨ X x) q := by
  intro q
  by_cases h0 : getCoeInPoly v pt = 0
  · have hq : q = pt := if_pos h0
    rw [hq]
    refine ⟨fun N => ?_, hs, fun X hX => (zeroOn_of_getCoeInPoly_eq_zero hs h0).union hX⟩
    rw [polyValue_update N v m hs, h0, zero_mul, add_zero]
  · have hq : q = addTwoPolys [] ([(getCoeInPoly v pt * m, none)] : Poly V)
        (pt.filter fun x => !psummandContainsVariable v x) := if_neg h0
    rw [hq]
    refine ⟨fun N => ?_, sorted_addTwoPolys_nil (sorted_const _) (sorted_filter_not_contains hs v),
      fun X hX => (zeroOn_const _ _).addTwoPolys_nil
        ((zeroOn_filter_not_contains v pt).union (hX.filter _))⟩
    rw [polyValue_addTwoPolys_nil, polyValue_const, polyValue_update N v m hs,
      polyValue_eq_coe_add N v hs]
    ring

theorem substituteVariableInPreAtom_eq (v : V) (pl : Poly V) (a : PreAtom V) :
    substituteVariableInPreAtom v pl a = a.withPoly <$> substituteVariableInPoly v pl a.poly := by
  cases a <;> rfl

/-! ### Lower bounds -/

/-- A left fold that adds a term for each element adds their sum. -/
theorem foldl_add_eq_sum {α : Type} {f : Int → α → Int} {g : α → Int}
    (hf : ∀ acc s, f acc s = acc + g s) : ∀ (l : List α) (acc : Int),
    l.foldl f acc = acc + (l.map g).sum
  | [], acc => by simp
  | s :: l, acc => by
    rw [List.foldl_cons, foldl_add_eq_sum hf l, hf, List.map_cons, List.sum_cons, add_assoc]

omit [LinearOrder V] in
/-- `eval_poly` computes the value of a polynomial. -/
theorem evalPoly_eq (M : V → Int) (pt : Poly V) : evalPoly M pt = polyValue M pt := by
  rw [evalPoly, foldl_add_eq_sum (g := fun s => s.1 * varVal M s.2), zero_add]
  · rfl
  · rintro acc ⟨c, _ | x⟩
    · show acc + c = acc + c * 1
      rw [mul_one]
    · rfl

/-- The bounds that `find_rough_lower_bounds_in_cformula` returns are sorted polynomials without
`v` whose variables of `X` have zero coefficients, if the atoms' polynomials are sorted and the
variables of `X` have zero coefficients there. -/
theorem findRoughLowerBoundsInCformula_spec {v : V} {X : V → Prop} :
    ∀ {cf : Cformula V} {l : List (Poly V)}, (∀ a ∈ cf, Sorted a.poly ∧ ZeroOn X a.poly) →
      (∀ lb ∈ l, Sorted lb ∧ ZeroOn (fun x => x = v ∨ X x) lb) →
      ∀ lb ∈ findRoughLowerBoundsInCformula v cf l, Sorted lb ∧ ZeroOn (fun x => x = v ∨ X x) lb
  | [], _, _, hl => hl
  | a :: cf, l, hcf, hl => by
    have ih := @findRoughLowerBoundsInCformula_spec v X cf
    have hcf' : ∀ b ∈ cf, Sorted b.poly ∧ ZeroOn X b.poly :=
      fun b hb => hcf b (List.mem_cons_of_mem _ hb)
    obtain ⟨hs, hX⟩ := hcf a (List.mem_cons_self ..)
    -- the summands without `v` of the atom's polynomial
    have hrest : Sorted (a.poly.filter fun x => !psummandContainsVariable v x) ∧
        ZeroOn (fun x => x = v ∨ X x) (a.poly.filter fun x => !psummandContainsVariable v x) :=
      ⟨sorted_filter_not_contains hs v, (zeroOn_filter_not_contains v _).union (hX.filter _)⟩
    cases a with
    | gt pl =>
      unfold findRoughLowerBoundsInCformula
      split_ifs
      · refine ih hcf' fun lb hlb => ?_
        rcases List.mem_cons.1 hlb with rfl | hlb
        · exact ⟨sorted_addTwoPolys_nil (sorted_const 1) (sorted_negatePoly hrest.1),
            (zeroOn_const _ 1).addTwoPolys_nil hrest.2.negatePoly⟩
        · exact hl lb hlb
      · exact ih hcf' hl
    | eq pl =>
      unfold findRoughLowerBoundsInCformula
      split_ifs
      · intro lb hlb
        rw [List.mem_singleton] at hlb
        subst hlb
        exact ⟨sorted_negatePoly hrest.1, hrest.2.negatePoly⟩
      · intro lb hlb
        rw [List.mem_singleton] at hlb
        subst hlb
        exact hrest
      · exact ih hcf' hl
    | ineq _ | divisible _ _ | indivisible _ _ => exact ih hcf' hl

/-- A collected bound is never dropped: an equation returns a bound of its own. -/
theorem findRoughLowerBoundsInCformula_ne_nil {v : V} :
    ∀ {cf : Cformula V} {l : List (Poly V)}, l ≠ [] → findRoughLowerBoundsInCformula v cf l ≠ []
  | [], _, hl => hl
  | a :: cf, l, hl => by
    have ih := @findRoughLowerBoundsInCformula_ne_nil v cf
    cases a with
    | gt pl =>
      unfold findRoughLowerBoundsInCformula
      split_ifs
      · exact ih (List.cons_ne_nil _ _)
      · exact ih hl
    | eq pl =>
      unfold findRoughLowerBoundsInCformula
      split_ifs
      · exact List.cons_ne_nil _ _
      · exact List.cons_ne_nil _ _
      · exact ih hl
    | ineq _ | divisible _ _ | indivisible _ _ => exact ih hl

/-- Without a lower bound, no strict inequality bounds `v` from below and no equation has `v`. -/
theorem findRoughLowerBoundsInCformula_eq_nil {v : V} :
    ∀ {cf : Cformula V} {l : List (Poly V)}, findRoughLowerBoundsInCformula v cf l = [] →
      ∀ a ∈ cf, (∀ pl, a = .gt pl → getCoeInPoly v pl ≤ 0) ∧
        (∀ pl, a = .eq pl → getCoeInPoly v pl = 0)
  | [], _, _ => by simp
  | a :: cf, l, h => by
    have ih := @findRoughLowerBoundsInCformula_eq_nil v cf
    intro b hb
    cases a with
    | gt pl =>
      unfold findRoughLowerBoundsInCformula at h
      split_ifs at h with hpos
      · exact absurd h (findRoughLowerBoundsInCformula_ne_nil (List.cons_ne_nil _ _))
      · rcases List.mem_cons.1 hb with rfl | hb
        · exact ⟨fun pl' h' => (by cases h'; exact not_lt.1 hpos), fun pl' h' => (by cases h')⟩
        · exact ih h b hb
    | eq pl =>
      unfold findRoughLowerBoundsInCformula at h
      split_ifs at h with hpos hneg
      rcases List.mem_cons.1 hb with rfl | hb
      · exact ⟨fun pl' h' => (by cases h'), fun pl' h' => (by cases h'; omega)⟩
      · exact ih h b hb
    | ineq _ | divisible _ _ | indivisible _ _ =>
      unfold findRoughLowerBoundsInCformula at h
      rcases List.mem_cons.1 hb with rfl | hb
      · exact ⟨fun pl' h' => (by cases h'), fun pl' h' => (by cases h')⟩
      · exact ih h b hb

/-- The lower bound `find_lower_bound_in_cformula` returns has the model's value of `lcm·v`, and
it is a sorted polynomial without `v`. -/
theorem findLowerBoundInCformula_spec {M : V → Int} {v : V} {L : Int} {X : V → Prop}
    {cf : Cformula V} {lb : Poly V} (hcf : ∀ a ∈ cf, Sorted a.poly ∧ ZeroOn X a.poly)
    (h : findLowerBoundInCformula M v L cf = some lb) :
    polyValue M lb = L * M v ∧ Sorted lb ∧ ZeroOn (fun x => x = v ∨ X x) lb := by
  unfold findLowerBoundInCformula at h
  split at h
  · cases h
  · rename_i lb₀ _ hrough
    cases h
    have hmem : lb₀ ∈ findRoughLowerBoundsInCformula v cf [] := by
      rw [hrough]
      exact List.mem_cons_self ..
    obtain ⟨hs, hz⟩ :=
      findRoughLowerBoundsInCformula_spec hcf (fun _ h => absurd h List.not_mem_nil) lb₀ hmem
    refine ⟨?_, sorted_addTwoPolys_nil hs (sorted_const _), hz.addTwoPolys_nil (zeroOn_const _ _)⟩
    -- the offset `j = lcm·M v - M lb₀` makes up the difference
    rw [findDivisibleLowerBound, polyValue_addTwoPolys_nil, polyValue_const, evalPoly_eq]
    ring

/-! ### Trivial atoms -/

omit [LinearOrder V] in
/-- An atom that `preAtom_is_trivial` drops holds in every assignment. -/
theorem holds_of_preAtomIsTrivial {a : PreAtom V} (h : preAtomIsTrivial a = true) (N : V → Int) :
    a.holds N := by
  unfold preAtomIsTrivial at h
  split at h
  · show 0 < polyValue N _
    rw [polyValue_const]
    exact of_decide_eq_true h
  · show polyValue N _ = 0
    rw [polyValue_const]
    exact of_decide_eq_true h
  · show polyValue N _ ≠ 0
    rw [polyValue_const]
    exact of_decide_eq_true h
  · rename_i c pl
    show c ∣ polyValue N pl
    split at h
    · rename_i hc
      rw [hc]
      exact one_dvd _
    · split at h
      · rw [polyValue_const]
        exact Int.dvd_of_emod_eq_zero (of_decide_eq_true h)
      · cases h
  · show ¬ _ ∣ polyValue N _
    rw [polyValue_const]
    exact fun hd => of_decide_eq_true h (Int.emod_eq_zero_of_dvd hd)
  · cases h

omit [LinearOrder V] in
/-- Dropping the trivial atoms keeps the models. -/
theorem sat_filter_not_preAtomIsTrivial {N : V → Int} {cf : Cformula V} :
    Sat N (cf.filter fun x => !preAtomIsTrivial x) ↔ Sat N cf := by
  refine ⟨fun h a ha => ?_, fun h => h.filter _⟩
  by_cases ht : preAtomIsTrivial a = true
  · exact holds_of_preAtomIsTrivial ht N
  · exact h a (List.mem_filter.2 ⟨ha, by simpa using ht⟩)

/-! ### The infinitely small case -/

/-- The infinitely small case keeps the atoms `keep_in_infinitely_small_case` accepts, with `v`
replaced by its value in the model. -/
theorem handleInfinitelySmallCase_spec (M : V → Int) (v : V) {X : V → Prop} {cf : Cformula V}
    (hwf : ∀ a ∈ cf, a.WellFormed) (hX : ∀ a ∈ cf, ZeroOn X a.poly) :
    ∃ r, handleInfinitelySmallCase M v cf = .ok r ∧
      (∀ b ∈ r, b.WellFormed ∧ ZeroOn (fun x => x = v ∨ X x) b.poly) ∧
      ∀ N, Sat N r ↔ Sat (Function.update N v (M v)) (cf.filter (keepInInfinitelySmallCase v)) := by
  -- the atom `a` with `v` replaced by `M v`
  let g : PreAtom V → PreAtom V := fun a => a.withPoly
    (if getCoeInPoly v a.poly = 0 then a.poly
      else addTwoPolys [] ([(getCoeInPoly v a.poly * M v, none)] : Poly V)
        (a.poly.filter fun x => !psummandContainsVariable v x))
  have hg : ∀ a ∈ cf.filter (keepInInfinitelySmallCase v),
      substituteVariableInPreAtom v [(M v, none)] a = .ok (g a) := by
    intro a _
    rw [substituteVariableInPreAtom_eq, substituteVariableInPoly_const]
    rfl
  have hspec := fun a (ha : a ∈ cf) => substituteVariableInPoly_const_spec v (M v) (hwf a ha).1
  refine ⟨_, mapM_except_ok hg, fun b hb => ?_, fun N => ?_⟩
  · obtain ⟨a, ha, rfl⟩ := List.mem_map.1 hb
    have ha' := List.mem_of_mem_filter ha
    refine ⟨⟨?_, ?_⟩, ?_⟩
    · rw [PreAtom.poly_withPoly]
      exact (hspec a ha').2.1
    · rw [PreAtom.divisor_withPoly]
      exact (hwf a ha').2
    · rw [PreAtom.poly_withPoly]
      exact (hspec a ha').2.2 X (hX a ha')
  · rw [Sat, Sat, List.forall_mem_map]
    refine forall₂_congr fun a ha => a.holds_withPoly_iff ?_
    exact (hspec a (List.mem_of_mem_filter ha)).1 N

/-- In the infinitely small case `v` moves down by a multiple of every divisor until the
comparisons that were dropped hold: those are strict upper bounds and disequalities of `v`. -/
theorem exists_update_of_infinitelySmall {M N : V → Int} {v : V} {cf : Cformula V}
    (hwf : ∀ a ∈ cf, a.WellFormed) (hnone : findRoughLowerBoundsInCformula v cf [] = [])
    (hN : Sat (Function.update N v (M v)) (cf.filter (keepInInfinitelySmallCase v))) :
    ∃ w, Sat (Function.update N v w) cf := by
  -- the value of an atom's summands without `v`, a bound on their size, and a common multiple
  -- of the divisors
  let R : PreAtom V → Int := fun a => polyValue N (a.poly.filter fun x => !psummandContainsVariable v x)
  let B : Int := (cf.map fun a => |R a|).sum
  let P : Int := (cf.map fun a => |a.divisor|).prod
  have hB : ∀ a ∈ cf, |R a| ≤ B := fun a ha =>
    List.single_le_sum (fun _ hx => by obtain ⟨b, _, rfl⟩ := List.mem_map.1 hx; exact abs_nonneg _)
      _ (List.mem_map_of_mem ha)
  have hP : 0 < P := List.prod_pos fun x hx => by
    obtain ⟨a, ha, rfl⟩ := List.mem_map.1 hx
    exact abs_pos.2 (hwf a ha).2
  have hdP : ∀ a ∈ cf, a.divisor ∣ P := fun a ha =>
    (self_dvd_abs _).trans (List.dvd_prod (List.mem_map_of_mem ha))
  have hB0 : 0 ≤ B := List.sum_nonneg fun _ hx => by
    obtain ⟨b, _, rfl⟩ := List.mem_map.1 hx
    exact abs_nonneg _
  set T := |M v| + B + 1 with hT
  refine ⟨M v - P * T, fun a ha => ?_⟩
  have hw : M v - P * T ≤ -B - 1 := by
    have hT1 : T ≤ P * T := le_mul_of_one_le_left (by positivity) hP
    have := le_abs_self (M v)
    linarith
  have hs := (hwf a ha).1
  -- the value at `w` differs from the value at `M v` by `coe·P·T`
  have hshift : polyValue (Function.update N v (M v - P * T)) a.poly =
      polyValue (Function.update N v (M v)) a.poly - getCoeInPoly v a.poly * P * T := by
    rw [← Function.update_idem (f := N) (a := v) (M v) (M v - P * T),
      polyValue_update _ v _ hs, Function.update_self]
    ring
  -- and it is `coe·w + R a`
  have hdec : polyValue (Function.update N v (M v - P * T)) a.poly =
      getCoeInPoly v a.poly * (M v - P * T) + R a := by
    rw [polyValue_eq_coe_add _ v hs, Function.update_self,
      polyValue_update_of_zeroAt N v _ (zeroOn_filter_not_contains v a.poly v rfl)]
  by_cases hk : keepInInfinitelySmallCase v a = true
  · have hold := hN a (List.mem_filter.2 ⟨ha, hk⟩)
    by_cases h0 : getCoeInPoly v a.poly = 0
    · refine (a.holds_iff_of_polyValue_eq ?_).2 hold
      rw [hshift, h0]
      ring
    · -- a kept atom with `v` is a divisibility atom, whose divisor divides `P`
      have hd := hdP a ha
      cases a with
      | gt pl | eq pl | ineq pl => exact absurd (of_decide_eq_true hk) h0
      | divisible i pl =>
        change i ∣ P at hd
        change i ∣ polyValue (Function.update N v (M v)) pl at hold
        change polyValue _ pl = polyValue _ pl - getCoeInPoly v pl * P * T at hshift
        show i ∣ polyValue (Function.update N v (M v - P * T)) pl
        rw [hshift]
        exact (dvd_sub_left ((hd.mul_left _).mul_right T)).2 hold
      | indivisible i pl =>
        change i ∣ P at hd
        change ¬ i ∣ polyValue (Function.update N v (M v)) pl at hold
        change polyValue _ pl = polyValue _ pl - getCoeInPoly v pl * P * T at hshift
        show ¬ i ∣ polyValue (Function.update N v (M v - P * T)) pl
        rw [hshift]
        exact fun h => hold ((dvd_sub_left ((hd.mul_left _).mul_right T)).1 h)
  · -- a dropped comparison: far below, the summand of `v` outweighs the rest
    have hR := abs_le.1 (hB a ha)
    obtain ⟨hgt, heq⟩ := findRoughLowerBoundsInCformula_eq_nil hnone a ha
    have h0 : getCoeInPoly v a.poly ≠ 0 := by
      cases a <;> simp_all [keepInInfinitelySmallCase, PreAtom.poly]
    cases a with
    | gt pl =>
      change getCoeInPoly v pl ≠ 0 at h0
      change polyValue _ pl = getCoeInPoly v pl * (M v - P * T) + R (.gt pl) at hdec
      have hneg : getCoeInPoly v pl < 0 := lt_of_le_of_ne (hgt pl rfl) h0
      show 0 < polyValue _ pl
      rw [hdec]
      nlinarith
    | eq pl => exact absurd (heq pl rfl) h0
    | ineq pl =>
      change getCoeInPoly v pl ≠ 0 at h0
      change polyValue _ pl = getCoeInPoly v pl * (M v - P * T) + R (.ineq pl) at hdec
      show polyValue _ pl ≠ 0
      rw [hdec]
      intro hz
      rcases lt_or_gt_of_ne h0 with hc | hc <;> nlinarith
    | divisible _ _ | indivisible _ _ => exact absurd rfl hk

/-! ### The lower bound case -/

/-- Substituting `lcm·v` in `lcm | lcm·v` gives `lcm | t`. -/
theorem substituteSummandInPoly_single (v : V) {L : Int} (hL : 0 < L) (t : Poly V) :
    substituteSummandInPoly v t [(L, (v : WithTop V))] = addTwoPolys [] t [] := by
  have hf : ([(L, (v : WithTop V))] : Poly V).filter (fun x => !psummandContainsVariable v x) = [] := by
    simp [psummandContainsVariable_eq]
  unfold substituteSummandInPoly
  dsimp only
  rw [getCoeInPoly_single, if_neg hL.ne', if_pos hL, hf]

/-- With a lower bound `t` of value `lcm·w`, the substituted formula holds where the scaled one
holds with `v` set to `w`. -/
theorem sat_substituteSummandInCformula {N : V → Int} {v : V} {L w : Int} {cf : Cformula V}
    {t : Poly V} (hwf : ∀ a ∈ cf, a.WellFormed)
    (hsc : ∀ a ∈ cf, getCoeInPoly v a.poly = 0 ∨ |getCoeInPoly v a.poly| = L)
    (ht : polyValue N t = L * w) :
    Sat N (substituteSummandInCformula v t cf) ↔ Sat (Function.update N v w) cf := by
  rw [substituteSummandInCformula, Sat, List.forall_mem_map]
  refine forall₂_congr fun a ha => ?_
  rw [substituteSummandInPreAtom_eq]
  exact a.holds_withPoly_iff (polyValue_substituteSummandInPoly N (hwf a ha).1 (hsc a ha) ht)

/-- The lower bound case: the result is well formed without `v`, the model satisfies it, and it
under-approximates the projection of the scaled formula. -/
theorem lowerBound_case_spec {M : V → Int} {v : V} {L : Int} {X : V → Prop} {scf : Cformula V}
    {lb : Poly V} (hl : 0 < L) (hwf : ∀ a ∈ scf, a.WellFormed) (hX : ∀ a ∈ scf, ZeroOn X a.poly)
    (hsc : ∀ a ∈ scf, getCoeInPoly v a.poly = 0 ∨ |getCoeInPoly v a.poly| = L)
    (hdiv : L = 1 ∨ PreAtom.divisible L [(L, (v : WithTop V))] ∈ scf)
    (hlb : findLowerBoundInCformula M v L scf = some lb) (hM : Sat M scf) :
    (∀ b ∈ (substituteSummandInCformula v lb scf).filter (fun x => !preAtomIsTrivial x),
        b.WellFormed ∧ ZeroOn (fun x => x = v ∨ X x) b.poly) ∧
      Sat M ((substituteSummandInCformula v lb scf).filter fun x => !preAtomIsTrivial x) ∧
      UnderApprox Sat [v] scf
        ((substituteSummandInCformula v lb scf).filter fun x => !preAtomIsTrivial x) := by
  obtain ⟨hval, hls, hlz⟩ := findLowerBoundInCformula_spec (fun a ha => ⟨(hwf a ha).1, hX a ha⟩) hlb
  refine ⟨fun b hb => ?_, ?_, UnderApprox.of_update fun N hN => ?_⟩
  · obtain ⟨a, ha, rfl⟩ := List.mem_map.1 (List.mem_of_mem_filter hb)
    obtain ⟨hs, hz⟩ := substituteSummandInPoly_normal (hwf a ha).1 hls (hX a ha) hlz
    rw [substituteSummandInPreAtom_eq]
    refine ⟨⟨?_, ?_⟩, ?_⟩
    · rw [PreAtom.poly_withPoly]
      exact hs
    · rw [PreAtom.divisor_withPoly]
      exact (hwf a ha).2
    · rw [PreAtom.poly_withPoly]
      exact hz
  · -- the bound has the model's value of `lcm·v`, so the model keeps `v`
    rw [sat_filter_not_preAtomIsTrivial, sat_substituteSummandInCformula hwf hsc hval,
      Function.update_eq_self]
    exact hM
  · rw [sat_filter_not_preAtomIsTrivial] at hN
    -- `lcm | lb` is one of the substituted atoms, so `lb` has the value `lcm·w` for some `w`
    have hdvd : L ∣ polyValue N lb := by
      rcases hdiv with h1 | hmem
      · rw [h1]
        exact one_dvd _
      · have := hN _ (List.mem_map_of_mem hmem)
        rwa [substituteSummandInPreAtom_eq, PreAtom.withPoly, PreAtom.poly,
          substituteSummandInPoly_single v hl, PreAtom.holds, polyValue_addTwoPolys_nil,
          show polyValue N ([] : Poly V) = 0 from rfl, add_zero] at this
    refine ⟨polyValue N lb / L, ?_⟩
    exact (sat_substituteSummandInCformula hwf hsc (Int.mul_ediv_cancel' hdvd).symm).1 hN

/-! ### One variable, and a list of variables -/

/-- `eliminate_variable_in_cformula` on a well-formed formula and a model of it: the result is
well formed, `v` and the variables of `X` have coefficient zero in it, the model satisfies it, and
it under-approximates the projection of `cf` on the variables other than `v`. -/
theorem eliminateVariableInCformula_spec (M : V → Int) (v : V) {X : V → Prop} {cf : Cformula V}
    (hwf : ∀ a ∈ cf, a.WellFormed) (hX : ∀ a ∈ cf, ZeroOn X a.poly) (hM : Sat M cf) :
    ∃ r, eliminateVariableInCformula M v cf = .ok r ∧
      (∀ b ∈ r, b.WellFormed ∧ ZeroOn (fun x => x = v ∨ X x) b.poly) ∧ Sat M r ∧
      UnderApprox Sat [v] cf r := by
  obtain ⟨-, -, hzero⟩ := findLcmInCformula_spec v cf
  by_cases hL : findLcmInCformula v cf = 0
  · -- `v` does not occur: the formula is returned unchanged
    refine ⟨cf, ?_, fun a ha => ⟨hwf a ha, ?_⟩, hM, UnderApprox.refl _ _⟩
    · simp only [eliminateVariableInCformula, hL, if_true]
      rfl
    · exact (zeroOn_of_getCoeInPoly_eq_zero (hwf a ha).1 (hzero hL a ha)).union (hX a ha)
  · -- `v` occurs, so it is not among the variables with zero coefficients
    have hXv : ¬ X v := fun hv => hL <| findLcmInCformula_eq_zero fun a ha => by
      rw [getCoeInPoly_eq]
      exact (hX a ha v hv).coeff_eq_zero
    obtain ⟨scf, hscf, hswf, hsat, hsc, hsX, hdiv⟩ := scaleCoefficientInCformula_spec hwf hL
    have hMs : Sat M scf := (hsat M).2 hM
    have hX' := hsX X hXv hX
    have hl : 0 < findLcmInCformula v cf := lt_of_le_of_ne (findLcmInCformula_spec v cf).1 (Ne.symm hL)
    cases hlb : findLowerBoundInCformula M v (findLcmInCformula v cf) scf with
    | some lb =>
      obtain ⟨h1, h2, h3⟩ := lowerBound_case_spec hl hswf hX' hsc hdiv hlb hMs
      refine ⟨_, ?_, h1, h2, h3.mono_left fun N h => (hsat N).1 h⟩
      simp only [eliminateVariableInCformula, hL, if_false, hscf, bind, Except.bind, hlb]
      rfl
    | none =>
      -- no lower bound: the infinitely small case
      have hnone : findRoughLowerBoundsInCformula v scf [] = [] := by
        unfold findLowerBoundInCformula at hlb
        split at hlb
        · assumption
        · cases hlb
      obtain ⟨ret, hret, hrwf, hrsat⟩ := handleInfinitelySmallCase_spec M v hswf hX'
      refine ⟨ret.filter fun x => !preAtomIsTrivial x, ?_,
        fun b hb => hrwf b (List.mem_of_mem_filter hb), ?_, ?_⟩
      · simp only [eliminateVariableInCformula, hL, if_false, hscf, bind, Except.bind, hlb, hret]
        rfl
      · rw [sat_filter_not_preAtomIsTrivial, hrsat, Function.update_eq_self]
        exact hMs.filter _
      · refine (UnderApprox.of_update fun N hN => ?_).mono_left fun N h => (hsat N).1 h
        rw [sat_filter_not_preAtomIsTrivial, hrsat] at hN
        exact exists_update_of_infinitelySmall hswf hnone hN

/-- `eliminate` on a well-formed formula and a model of it: the result is well formed, the
eliminated variables and those of `X` have coefficient zero in it, the model satisfies it, and
it under-approximates the projection of `cf` on the variables not eliminated. -/
theorem eliminate_spec (M : V → Int) : ∀ (elim : List V) {X : V → Prop} {cf : Cformula V},
    (∀ a ∈ cf, a.WellFormed) → (∀ a ∈ cf, ZeroOn X a.poly) → Sat M cf →
    ∃ r, eliminate M elim cf = .ok r ∧
      (∀ b ∈ r, b.WellFormed ∧ ZeroOn (fun x => x ∈ elim ∨ X x) b.poly) ∧ Sat M r ∧
      UnderApprox Sat elim cf r
  | [], X, cf, hwf, hX, hM =>
    ⟨cf, rfl, fun a ha => ⟨hwf a ha, (hX a ha).mono fun _ h => h.resolve_left List.not_mem_nil⟩,
      hM, UnderApprox.refl _ _⟩
  | v :: l, X, cf, hwf, hX, hM => by
    -- eliminate `v`, then the rest from the result, which has zero coefficients for `v` too
    obtain ⟨r₁, h₁, hr₁, hM₁, hu₁⟩ := eliminateVariableInCformula_spec M v hwf hX hM
    obtain ⟨r, h, hr, hMr, hu⟩ := eliminate_spec M l (X := fun x => x = v ∨ X x)
      (fun b hb => (hr₁ b hb).1) (fun b hb => (hr₁ b hb).2) hM₁
    refine ⟨r, ?_, fun b hb => ⟨(hr b hb).1, (hr b hb).2.mono fun x hx => ?_⟩, hMr, hu₁.trans hu⟩
    · simp only [eliminate, bind, Except.bind, h₁]
      exact h
    · rcases hx with hx | hx
      · rcases List.mem_cons.1 hx with rfl | hx
        · exact .inr (.inl rfl)
        · exact .inl hx
      · exact .inr (.inr hx)

end Spec

/-! ## Model-based projection -/

/-- Cooper's projection with a model: on a conjunction of well-formed atoms (sorted polynomials,
non-zero divisors) and an integer model of it, `eliminate` returns a conjunction in which the
eliminated variables have coefficient zero, that the model satisfies, and each of whose models
becomes a model of `cf` when changed on the eliminated variables only. -/
theorem eliminate_model_projection (M : V → Int) (elim : List V) (cf : Cformula V)
    (hwf : ∀ a ∈ cf, a.WellFormed) (hM : Sat M cf) :
    ∃ r, eliminate M elim cf = .ok r ∧
      (∀ x ∈ elim, ∀ a ∈ r, ∀ s ∈ a.poly, s.2 = (x : WithTop V) → s.1 = 0) ∧
      Sat M r ∧
      ∀ N, Sat N r → ∃ N', (∀ x, x ∉ elim → N' x = N x) ∧ Sat N' cf := by
  obtain ⟨r, h, hr, hMr, hu⟩ :=
    eliminate_spec M elim (X := fun _ => False) hwf (fun _ _ _ h => h.elim) hM
  exact ⟨r, h, fun x hx a ha => (hr a ha).2 x (.inl hx), hMr, hu⟩

/-- `2·x₀ - x₁ - 3 > 0 ∧ 3 | x₀ + x₁` with the model `x₀ = 3, x₁ = 0`. -/
theorem eliminate_model_projection_sample :
    (∀ a ∈ ([.gt [(2, some 0), (-1, some 1), (-3, none)], .divisible 3 [(1, some 0), (1, some 1)]] :
        Cformula Nat), a.WellFormed) ∧
      Sat (fun x => if x = 0 then 3 else 0)
        ([.gt [(2, some 0), (-1, some 1), (-3, none)], .divisible 3 [(1, some 0), (1, some 1)]] :
          Cformula Nat) ∧
      ∃ r, eliminate (fun x => if x = 0 then 3 else 0) [0]
          [.gt [(2, some 0), (-1, some 1), (-3, none)], .divisible 3 [(1, some 0), (1, some 1)]] =
            .ok r ∧
        (∀ x ∈ ([0] : List Nat), ∀ a ∈ r, ∀ s ∈ a.poly, s.2 = (x : WithTop Nat) → s.1 = 0) ∧
        Sat (fun x => if x = 0 then 3 else 0) r ∧
        ∀ N, Sat N r → ∃ N', (∀ x, x ∉ [0] → N' x = N x) ∧
          Sat N' [.gt [(2, some 0), (-1, some 1), (-3, none)], .divisible 3 [(1, some 0), (1, some 1)]] :=
  have hwf : ∀ a ∈ ([.gt [(2, some 0), (-1, some 1), (-3, none)],
      .divisible 3 [(1, some 0), (1, some 1)]] : Cformula Nat), a.WellFormed := by decide
  have hM : Sat (fun x => if x = 0 then 3 else 0)
      ([.gt [(2, some 0), (-1, some 1), (-3, none)], .divisible 3 [(1, some 0), (1, some 1)]] :
        Cformula Nat) := by decide
  ⟨hwf, hM, eliminate_model_projection _ [0] _ hwf hM⟩

/-- Without the normal form the model can be lost: `x₀ + x₀ - 2 = 0` holds for `x₀ = 1`, but
`get_coe_in_poly` reads the coefficient `1` of the first summand only, and `eliminate` returns
`-1 = 0`. -/
theorem eliminate_unsorted_poly_loses_model :
    Sat (fun _ => 1) ([.eq [(1, some 0), (1, some 0), (-2, none)]] : Cformula Nat) ∧
      eliminate (fun _ : Nat => 1) [0] [.eq [(1, some 0), (1, some 0), (-2, none)]] =
        .ok [.eq [(-1, none)]] ∧
      ¬ Sat (fun _ => 1) ([.eq [(-1, none)]] : Cformula Nat) :=
  ⟨by decide, by decide +kernel, by decide⟩

end Kind2.QE
