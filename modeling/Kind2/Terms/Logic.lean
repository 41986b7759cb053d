import Kind2.Terms.Term
import Kind2.Terms.Decimal

/-!
# The logic of a term (`src/terms/termLib.ml`)

Before a solver is started, `TransSys.mk_trans_sys` infers the SMT logic of a transition system as
the union of the feature sets `TermLib.logic_of_term` gives its terms and `logic_of_sort` the sorts
of its state variables (`src/transSys.ml:1533`), and the drivers send the name of that set with
`set-logic` (`TermLib.string_of_features`, `Z3Driver.string_of_logic`).

`logic_of_term` folds `logic_of_flat` bottom-up over the term. A variable contributes the features
of its sort; an arithmetic operator contributes linear or non-linear arithmetic; numeral and
decimal constants contribute nothing, as their cases are commented out in the source. Terms here
are the quantifier-free, let-free terms over Bool, Int and Real of `Term`, whose symbols are all
interpreted: `remove_top_level_quantifier` is the identity on them, `check_add_Q` adds nothing,
and the cases of uninterpreted symbols, arrays and `select` do not arise.
-/

namespace Kind2
namespace TermLib

/-- `TermLib.feature`. -/
inductive Feature where
  | q
  | uf
  | a
  | ia
  | ra
  | la
  | na
  deriving DecidableEq, Repr

/-- `TermLib.features`, a `FeatureSet.t`. -/
abbrev Features := Finset Feature

/-- `logic_of_sort`. -/
def logicOfSort : Ty → Features
  | .bool => ∅
  | .int => {.ia}
  | .real => {.ra}

/-- `sup_logics`: the union of a list of feature sets. -/
def supLogics (l : List Features) : Features := l.foldl (· ∪ ·) ∅

variable {V : Type}

/-! ## Constants -/

/-- `Term.is_numeral`: an integer numeral, a decimal that is an integer, or the negation of one. -/
def isNumeral : Term V → Bool
  | .const (.numeral _) => true
  | .const (.decimal d) => (Decimal.n d).isInt
  | .app .minus [a] => isNumeral a
  | _ => false

/-- `Term.numeral_of_term`, `none` where the source raises `Invalid_argument`. -/
def numeralOfTerm : Term V → Option Int
  | .const (.numeral i) => some i
  | .const (.decimal d) => if (Decimal.n d).isInt then some d.floor else none
  | .app .minus [a] => if isNumeral a then (numeralOfTerm a).map (- ·) else none
  | _ => none

mutual
/-- `Term.decimal_of_term`, `none` where the source raises `Invalid_argument`. -/
def decimalOfTerm : Term V → Option Decimal
  | .const (.decimal d) => some (.n d)
  | .app .minus [a] => if isDecimal a then (decimalOfTerm a).map Decimal.neg else none
  | .app .div [n, d] =>
    if isNumeral n && isNumeral d then
      match numeralOfTerm n, numeralOfTerm d with
      | some n', some d' => some (Decimal.div (.n n') (.n d'))
      | _, _ => none
    else none
  | _ => none

/-- `Term.is_decimal`: a decimal, its negation, or the quotient of two integral constants. -/
def isDecimal : Term V → Bool
  | .const (.decimal _) => true
  | .app .minus [a] => isDecimal a
  | .app .div [n, d] =>
    (isNumeral n || isDecimal n && ((decimalOfTerm n).map Decimal.isInt).getD false) &&
      (isNumeral d || isDecimal d && ((decimalOfTerm d).map Decimal.isInt).getD false)
  | _ => false
end

/-- `at_most_one_non_num`: at most one of the terms is not a numeral or decimal constant. -/
def atMostOneNonNum (l : List (Term V)) : Bool :=
  (l.filter fun t => !(isNumeral t || isDecimal t)).length ≤ 1

/-! ## The features of a term -/

/-- `logic_of_flat t acc`: the features of a node given those of its subterms `acc`. -/
def logicOfFlat (varType : V → Ty) : Term V → List Features → Features
  | .var v, acc => logicOfSort (varType v) ∪ supLogics acc
  | .const _, acc | .app _ [], acc => supLogics acc
  | .app .plus _, acc | .app .minus _, acc => insert .la (supLogics acc)
  | .app .times l, acc =>
    if atMostOneNonNum l then insert .la (supLogics acc) else insert .na (supLogics acc)
  | .app .div _, acc | .app .abs _, acc | .app .intdiv _, acc | .app .mod _, acc =>
    insert .na (supLogics acc)
  | .app .lt _, acc | .app .gt _, acc | .app .leq _, acc | .app .geq _, acc =>
    insert .la (supLogics acc)
  | .app _ _, acc => supLogics acc

mutual
/-- `logic_of_term`: `logic_of_flat` folded bottom-up with `eval_t`. -/
def logicOfTerm (varType : V → Ty) : Term V → Features
  | .var v => logicOfFlat varType (.var v) []
  | .const s => logicOfFlat varType (.const s) []
  | .app s args => logicOfFlat varType (.app s args) (logicOfTerms varType args)

/-- The features of the arguments of a node. -/
def logicOfTerms (varType : V → Ty) : List (Term V) → List Features
  | [] => []
  | t :: ts => logicOfTerm varType t :: logicOfTerms varType ts
end

/-- `pp_print_features` (`string_of_features`), with the flag `Flags.Arrays.smt` as `arrays`. -/
def stringOfFeatures (arrays : Bool) (l : Features) : String :=
  (if .q ∈ l then "" else "QF_") ++ (if l = ∅ then "SAT" else "") ++
    (if .a ∈ l ∧ arrays then "A" else "") ++ (if .uf ∈ l then "UF" else "") ++
    (if .na ∈ l then "N" else if .la ∈ l ∨ .ia ∈ l ∨ .ra ∈ l then "L" else "") ++
    (if .ia ∈ l then "I" else "") ++ (if .ra ∈ l then "R" else "") ++
    (if .ia ∈ l ∨ .ra ∈ l then "A" else "")

/-- `Z3Driver.string_of_logic` of an inferred feature set. -/
def z3StringOfLogic (arrays : Bool) (l : Features) : String :=
  if l = ∅ then "QF_UF"
  else if .ia ∈ l ∧ .ra ∈ l then (if .q ∈ l then "AUFLIRA" else "QF_AUFLIRA")
  else stringOfFeatures arrays l

/-! ## Where the features come from -/

theorem mem_foldl_union {f : Feature} (l : List Features) (acc : Features) :
    f ∈ l.foldl (· ∪ ·) acc ↔ f ∈ acc ∨ ∃ s ∈ l, f ∈ s := by
  induction l generalizing acc with
  | nil => simp
  | cons s l ih =>
    rw [List.foldl_cons, ih, Finset.mem_union]
    simp only [List.mem_cons, exists_eq_or_imp]
    tauto

theorem mem_supLogics {f : Feature} {l : List Features} : f ∈ supLogics l ↔ ∃ s ∈ l, f ∈ s := by
  rw [supLogics, mem_foldl_union]
  simp

variable {varType : V → Ty} {f : Feature}

/-- A node adds linear or non-linear arithmetic, or the features of the sort of a variable, to
those of its subterms. -/
theorem mem_logicOfFlat {t : Term V} {acc : List Features} (h : f ∈ logicOfFlat varType t acc) :
    f = .la ∨ f = .na ∨ (∃ v, f ∈ logicOfSort (varType v)) ∨ ∃ s ∈ acc, f ∈ s := by
  unfold logicOfFlat at h
  split at h <;> (try split_ifs at h) <;>
    simp only [Finset.mem_insert, Finset.mem_union, mem_supLogics] at h <;> grind

mutual
/-- Every feature of a term is linear or non-linear arithmetic, or a feature of the sort of one
of the variables. -/
theorem mem_logicOfTerm : ∀ (t : Term V), f ∈ logicOfTerm varType t →
    f = .la ∨ f = .na ∨ ∃ v, f ∈ logicOfSort (varType v)
  | .var v, h | .const _, h => by
    rw [logicOfTerm] at h
    rcases mem_logicOfFlat h with h | h | h | ⟨s, hs, _⟩
    · exact .inl h
    · exact .inr (.inl h)
    · exact .inr (.inr h)
    · simp at hs
  | .app _ args, h => by
    rw [logicOfTerm] at h
    rcases mem_logicOfFlat h with h | h | h | ⟨s, hs, hf⟩
    · exact .inl h
    · exact .inr (.inl h)
    · exact .inr (.inr h)
    · exact mem_logicOfTerms args hs hf

theorem mem_logicOfTerms : ∀ (ts : List (Term V)) {s : Features}, s ∈ logicOfTerms varType ts →
    f ∈ s → f = .la ∨ f = .na ∨ ∃ v, f ∈ logicOfSort (varType v)
  | [], _, hs, _ => by simp [logicOfTerms] at hs
  | t :: ts, s, hs, hf => by
    rw [logicOfTerms, List.mem_cons] at hs
    rcases hs with rfl | hs
    · exact mem_logicOfTerm t hf
    · exact mem_logicOfTerms ts hs hf
end

/-- Integer arithmetic is in the logic of a term only when some variable is an integer: integer
numerals, `to_int`, `div` and `mod` do not add it. -/
theorem ia_not_mem_logicOfTerm (varType : V → Ty) (hv : ∀ v, varType v ≠ .int) (t : Term V) :
    Feature.ia ∉ logicOfTerm varType t := by
  intro h
  rcases mem_logicOfTerm t h with h | h | ⟨v, hmem⟩
  · cases h
  · cases h
  · apply hv v
    cases hty : varType v <;> simp_all [logicOfSort]

/-- The comparison `to_int x >= 0` of a real variable `x`: its logic is that of linear real
arithmetic, whose name has no integers. -/
theorem ia_not_mem_logicOfTerm_toInt :
    (∀ v : Unit, (fun _ => Ty.real) v ≠ .int) ∧
      Feature.ia ∉ logicOfTerm (fun _ => Ty.real)
        (.app .geq [.app .toInt [.var ()], .const (.numeral 0)]) ∧
      Term.typeOf (fun _ => Ty.real) (.app .toInt [.var ()]) = .ok .int :=
  ⟨fun _ => by simp, ia_not_mem_logicOfTerm _ (fun _ => by simp) _, rfl⟩

example : stringOfFeatures false (logicOfTerm (fun _ : Unit => Ty.real)
    (.app .geq [.app .toInt [.var ()], .const (.numeral 0)])) = "QF_LRA" := by decide

/-- Real arithmetic is in the logic of a term only when some variable is real: decimal constants,
`/` and `to_real` do not add it. -/
theorem ra_not_mem_logicOfTerm (hv : ∀ v, varType v ≠ .real) (t : Term V) :
    Feature.ra ∉ logicOfTerm varType t := by
  intro h
  rcases mem_logicOfTerm t h with h | h | ⟨v, hmem⟩
  · cases h
  · cases h
  · apply hv v
    cases hty : varType v <;> simp_all [logicOfSort]

theorem ra_not_mem_logicOfTerm_toReal :
    (∀ v : Unit, (fun _ => Ty.int) v ≠ .real) ∧
      Feature.ra ∉ logicOfTerm (fun _ : Unit => Ty.int) (.app .toReal [.var ()]) :=
  ⟨fun _ => by simp, ra_not_mem_logicOfTerm (fun _ => by simp) _⟩

end TermLib
end Kind2
