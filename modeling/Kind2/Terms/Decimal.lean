import Mathlib

/-!
# Extended rationals (`src/terms/decimal.ml`)

`Decimal.t` is an arbitrary precision rational `N q` or one of `InfPos`, `InfNeg` and `Undef`.
The rational of `N` is a `Num.num`; the model keeps the rational it denotes. Equality tests
against `zero` in the source are structural, and `Num` returns its results in normal form, where
zero has the one representation `Int 0`: so `n = zero` is `q = 0`.

The comparisons and the arithmetic operations are matches over pairs of constructors whose
clauses overlap; the model keeps each clause in its order. Their meaning is given by the order of
the extended rationals (`ERat`: `WithBot (WithTop ℚ)`, with `⊥` for `InfNeg` and `⊤` for `InfPos`)
and by its addition with the indeterminate sum `⊤ + ⊥` left undefined.

`of_string` scans a literal into three buffers (integer, fractional and exponent digits) with three
mutually recursive functions over positions, then combines the numbers the buffers denote. The
model scans the list of characters with the same positions, so the error messages are those of
the source.
-/

namespace Kind2

/-- `Decimal.t`. -/
inductive Decimal where
  | infPos
  | infNeg
  | undef
  | n (q : ℚ)
  deriving DecidableEq, Repr

/-- The extended rationals: `⊥` is minus infinity and `⊤` plus infinity. -/
abbrev ERat := WithBot (WithTop ℚ)

namespace Decimal

/-- `zero`. -/
def zero : Decimal := n 0

/-- `one`. -/
def one : Decimal := n 1

/-- `to_big_int`: the floor of a rational; `Invalid_argument` with the printed value otherwise. -/
def toBigInt : Decimal → Except String Int
  | n q => .ok ⌊q⌋
  | infPos => .error "to_int 1/0"
  | infNeg => .error "to_int -1/0"
  | undef => .error "to_int 0/0"

/-- `is_int`: the decimal is a rational that is an integer (`Num.Int` or `Num.Big_int`). -/
def isInt : Decimal → Bool
  | n q => q.den == 1
  | _ => false

/-! ## Comparisons -/

/-- `equal`: `Num.eq_num` on rationals, structural equality otherwise. -/
def equal : Decimal → Decimal → Bool
  | n l, n r => decide (l = r)
  | l, r => decide (l = r)

/-- `compare`: the sign of `Num.compare_num` on rationals, and `100` or `-100` around the
infinities and `Undef`. -/
def compare : Decimal → Decimal → Int
  | n l, n r => if l < r then -1 else if l = r then 0 else 1
  | undef, undef => 0
  | undef, _ => 100
  | _, undef => -100
  | infPos, infPos => 0
  | infPos, _ => 100
  | _, infPos => -100
  | infNeg, infNeg => 0
  | infNeg, _ => -100
  | _, infNeg => 100

/-- `leq`. -/
def leq : Decimal → Decimal → Bool
  | n l, n r => decide (l ≤ r)
  | undef, _ | _, undef => false
  | infPos, _ | _, infNeg => true
  | _, infPos | infNeg, _ => false

/-- `lt`. -/
def lt : Decimal → Decimal → Bool
  | n l, n r => decide (l < r)
  | l, r => leq l r && !equal l r

/-- `geq`. -/
def geq : Decimal → Decimal → Bool
  | n l, n r => decide (r ≤ l)
  | l, r => !lt l r

/-- `gt`. -/
def gt : Decimal → Decimal → Bool
  | n l, n r => decide (r < l)
  | l, r => !leq l r

/-! ## Arithmetic -/

/-- `neg`. -/
def neg : Decimal → Decimal
  | n q => n (-q)
  | undef => undef
  | infPos => infNeg
  | infNeg => infPos

/-- `abs`. -/
def abs : Decimal → Decimal
  | n q => n |q|
  | undef => undef
  | _ => infPos

/-- `add`. -/
def add : Decimal → Decimal → Decimal
  | n l, n r => n (l + r)
  | undef, _ | _, undef => undef
  | infPos, infNeg | infNeg, infPos => undef
  | infPos, _ | _, infPos => infPos
  | infNeg, _ | _, infNeg => infNeg

/-- `sub`. -/
def sub : Decimal → Decimal → Decimal
  | n l, n r => n (l - r)
  | undef, _ | _, undef => undef
  | infPos, infNeg => infPos
  | infNeg, infPos => infNeg
  | infPos, _ | _, infNeg => infPos
  | infNeg, _ | _, infPos => infNeg

/-- `mult`. -/
def mult : Decimal → Decimal → Decimal
  | n l, n r => n (l * r)
  | undef, _ | _, undef => undef
  | infPos, infNeg | infNeg, infPos => infNeg
  | infPos, infPos | infNeg, infNeg => infPos
  | infPos, m | m, infPos => if m = zero then undef else if lt m zero then infNeg else infPos
  | infNeg, m | m, infNeg => if m = zero then undef else if lt m zero then infPos else infNeg

/-- `div`. -/
def div : Decimal → Decimal → Decimal
  | n l, n r =>
    if n r = zero then
      if n l = zero then undef else if lt (n l) zero then infNeg else infPos
    else n (l / r)
  | n _, infNeg | n _, infPos => zero
  | infPos, n r => if lt (n r) zero then infNeg else infPos
  | infNeg, n r => if lt (n r) zero then infPos else infNeg
  | _, _ => undef

/-! ## Meaning -/

/-- The extended rational of a decimal, `none` for `Undef`. -/
def toERat : Decimal → Option ERat
  | n q => some ((q : WithTop ℚ) : ERat)
  | infPos => some ⊤
  | infNeg => some ⊥
  | undef => none

/-- A comparison of extended rationals holds between two defined decimals. -/
def ERel (r : ERat → ERat → Prop) (a b : Decimal) : Prop :=
  ∃ x y, a.toERat = some x ∧ b.toERat = some y ∧ r x y

/-- The sum of extended rationals, undefined for an undefined summand and for `⊤ + ⊥`. -/
def eratAdd : Option ERat → Option ERat → Option ERat
  | some x, some y => if (x = ⊤ ∧ y = ⊥) ∨ (x = ⊥ ∧ y = ⊤) then none else some (x + y)
  | _, _ => none

/-- A decimal is one of the two infinities. -/
def IsInfinite (a : Decimal) : Prop := a = infPos ∨ a = infNeg

/-! ### The comparisons and the arithmetic against the extended rationals -/

@[simp] theorem coe_lt_top (q : ℚ) : ((q : WithTop ℚ) : ERat) < ⊤ :=
  WithBot.coe_lt_coe.2 (WithTop.coe_lt_top q)

/-- Between an infinity and a defined decimal, `leq` holds when the extended order puts the
arguments the other way round: it reads `InfPos` as the least and `InfNeg` as the greatest
value. -/
theorem leq_iff_reversed_of_infinite {a b : Decimal} (ha : a ≠ undef) (hb : b ≠ undef)
    (hinf : a.IsInfinite ∨ b.IsInfinite) : leq a b = true ↔ ERel (· ≤ ·) b a := by
  cases a <;> cases b <;> simp_all [leq, ERel, toERat, IsInfinite]

/-- An infinity with itself and an infinity in the opposite direction: the instance of
`leq_iff_reversed_of_infinite` where `leq` holds of `InfPos` and zero. -/
theorem leq_infPos_zero : infPos ≠ undef ∧ n 0 ≠ undef ∧
    (leq infPos (n 0) = true ↔ ERel (· ≤ ·) (n 0) infPos) :=
  ⟨by decide, by decide,
    leq_iff_reversed_of_infinite (a := infPos) (b := n 0) (by decide) (by decide) (.inl (.inl rfl))⟩

/-! ## Parsing -/

/-- The exceptions of `of_string`: `Invalid_argument` from the scanner and `Failure` from
`Num.num_of_string`. -/
inductive ParseError where
  | invalidArgument (msg : String)
  | failure (msg : String)
  deriving DecidableEq, Repr

/-- The integer, fractional and exponent buffers of `of_string`. -/
structure Buffers where
  intBuf : List Char := []
  fracBuf : List Char := []
  expBuf : List Char := []
  deriving DecidableEq, Repr

/-- The message of the scanner's `Invalid_argument`. -/
def invalidCharacter (c : Char) (pos : Nat) : ParseError :=
  .invalidArgument s!"of_string: invalid character {c} at position {pos}"

/-- `scan_exp start_pos pos`, on the characters from `start_pos + pos` on. -/
def scanExp (startPos : Nat) : Nat → List Char → Buffers → Except ParseError Buffers
  | _, [], b => .ok b
  | pos, c :: cs, b =>
    if c.isDigit then scanExp startPos (pos + 1) cs { b with expBuf := b.expBuf ++ [c] }
    else if (c = '-' ∨ c = '+') ∧ pos = 0 then
      scanExp startPos (pos + 1) cs { b with expBuf := b.expBuf ++ [c] }
    else .error (invalidCharacter c (startPos + pos))

/-- `scan_frac start_pos pos`, on the characters from `start_pos + pos` on. -/
def scanFrac (startPos : Nat) : Nat → List Char → Buffers → Except ParseError Buffers
  | _, [], b => .ok b
  | pos, c :: cs, b =>
    if c = 'E' ∧ 0 < pos then scanExp (startPos + (pos + 1)) 0 cs b
    else if c.isDigit then scanFrac startPos (pos + 1) cs { b with fracBuf := b.fracBuf ++ [c] }
    else .error (invalidCharacter c (startPos + pos))

/-- `scan_int pos`, on the characters from `pos` on. -/
def scanInt : Nat → List Char → Buffers → Except ParseError Buffers
  | _, [], b => .ok b
  | pos, c :: cs, b =>
    if c = '.' then scanFrac (pos + 1) 0 cs b
    else if c = 'E' ∧ 0 < pos then scanExp (pos + 1) 0 cs b
    else if c.isDigit then scanInt (pos + 1) cs { b with intBuf := b.intBuf ++ [c] }
    else if (c = '-' ∨ c = '+') ∧ pos = 0 then
      scanInt (pos + 1) cs { b with intBuf := b.intBuf ++ [c] }
    else .error (invalidCharacter c pos)

/-- The number a string of decimal digits denotes. -/
def digitsValue (ds : List Char) : Nat := ds.foldl (fun v c => 10 * v + (c.toNat - '0'.toNat)) 0

/-- `Num.num_of_string` on what the scanner puts in a buffer: decimal digits after an optional
sign; `Big_int.sys_big_int_of_string` rejects a sign without digits. -/
def numOfString : List Char → Except ParseError Int
  | '-' :: ds => if ds.isEmpty then .error (.failure "num_of_string") else .ok (-(digitsValue ds))
  | '+' :: ds => if ds.isEmpty then .error (.failure "num_of_string") else .ok (digitsValue ds)
  | ds => .ok (digitsValue ds)

/-- The number in a buffer, zero for an empty buffer. -/
def numOfBuffer (buf : List Char) : Except ParseError Int :=
  if buf.isEmpty then .ok 0 else numOfString buf

/-- `of_string`: the fractional part takes the sign of the integer part, and the mantissa is
multiplied by ten to the exponent. -/
def ofString (s : List Char) : Except ParseError Decimal := do
  let b ← scanInt 0 s {}
  let intNum ← numOfBuffer b.intBuf
  let fracNum ← numOfBuffer b.fracBuf
  let expNum ← numOfBuffer b.expBuf
  let exp : ℚ := (10 : ℚ) ^ expNum
  let frac : ℚ := fracNum / (10 : ℚ) ^ b.fracBuf.length
  pure (n ((if intNum < 0 then (intNum : ℚ) - frac else intNum + frac) * exp))

/-! ### Scanning digits -/

theorem scanFrac_digits {f : List Char} (hf : ∀ c ∈ f, c.isDigit) (startPos pos : Nat)
    (b : Buffers) : scanFrac startPos pos f b = .ok { b with fracBuf := b.fracBuf ++ f } := by
  induction f generalizing pos b with
  | nil => simp [scanFrac]
  | cons c f ih =>
    have hc : c.isDigit = true := hf c (List.mem_cons_self ..)
    have hE : c ≠ 'E' := by rintro rfl; simp at hc
    have hf' : ∀ c ∈ f, c.isDigit := fun c h => hf c (List.mem_cons_of_mem _ h)
    rw [scanFrac, if_neg (fun h => hE h.1), if_pos hc, ih hf']
    simp

theorem numOfString_digits {ds : List Char} (h : ∀ c ∈ ds, c.isDigit) :
    numOfString ds = .ok (digitsValue ds) := by
  match ds, h with
  | [], _ => rfl
  | c :: ds, h =>
    have hc : c.isDigit = true := h c (List.mem_cons_self ..)
    have hm : c ≠ '-' := by rintro rfl; simp at hc
    have hp : c ≠ '+' := by rintro rfl; simp at hc
    unfold numOfString
    split <;> simp_all

theorem numOfBuffer_digits {ds : List Char} (h : ∀ c ∈ ds, c.isDigit) :
    numOfBuffer ds = .ok (digitsValue ds) := by
  unfold numOfBuffer
  split
  · rename_i he
    simp [List.isEmpty_iff.1 he, digitsValue]
  · exact numOfString_digits h

/-- A negative literal with integer part zero is read as a positive number: the fractional part
takes the sign of the integer part, which the numeral `-0` does not have. -/
theorem ofString_neg_zero_point {f : List Char} (hf : ∀ c ∈ f, c.isDigit) :
    ofString ('-' :: '0' :: '.' :: f) = .ok (n (digitsValue f / 10 ^ f.length)) := by
  have hscan : scanInt 0 ('-' :: '0' :: '.' :: f) {} =
      .ok { intBuf := ['-', '0'], fracBuf := f } := by
    rw [show scanInt 0 ('-' :: '0' :: '.' :: f) {} = scanFrac 3 0 f { intBuf := ['-', '0'] }
      from rfl, scanFrac_digits hf]
    rfl
  have hint : numOfBuffer ['-', '0'] = .ok 0 := rfl
  have hexp : numOfBuffer [] = .ok 0 := rfl
  simp only [ofString, hscan, hint, hexp, numOfBuffer_digits hf, bind, Except.bind, pure,
    Except.pure]
  simp

/-- The literal `-0.5`, read as `1/2`. -/
theorem ofString_neg_zero_point_five :
    (∀ c ∈ ['5'], c.isDigit) ∧
      ofString ['-', '0', '.', '5'] = .ok (n (digitsValue ['5'] / 10 ^ ['5'].length)) :=
  ⟨by simp, ofString_neg_zero_point (by simp)⟩

end Decimal

end Kind2
