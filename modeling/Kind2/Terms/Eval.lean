import Kind2.Simplify

/-!
# Evaluating terms under a model

`Eval.eval_term uf_defs model t` simplifies `t` with the model and reads the value off the
simplified term (`src/terms/eval.ml:136`). Its simplification is the fold of
`simplify_term_node`, so it inherits every `assert false` of the simplifier's cases.

`evalTerm_eq_bool_chain`: an equation between three or more Boolean terms, such as
`(= true true true)`, is not evaluated. The simplifier handles Boolean equality only when it
is binary; any longer equation goes to `relation_eq`, whose `relation` accepts integer and real
arguments only and meets the Boolean first argument with `assert false`
(`src/simplify.ml:951`).
-/

namespace Kind2
namespace Eval

open Simplify Term

variable {V : Type}

/-- `value_of_term (term_of_nf nf)` for a constant normal form. -/
def valueOfNF : NF → Value
  | .bool b => .bool b
  | .num n => .num n
  | .dec d => .dec d

/-- `eval_term` under a model that gives every variable a value. -/
def evalTerm (model : V → Value) (t : Term V) : Except Stop Value :=
  (simplifyTermModel model t).map valueOfNF

/-- `bool_of_value`. -/
def boolOfValue : Value → Except Exn Bool
  | .bool b => .ok b
  | _ => .error (.invalidArgument "bool_of_value")

/-- An equation whose first argument is a Boolean and that has three or more arguments fails
with `assert false`. -/
theorem eqNF_bool_chain (b : Bool) (args : List NF) (hlen : 2 ≤ args.length) :
    eqNF (.bool b :: args) = assertFalse := by
  match args, hlen with
  | a :: c :: args, _ =>
    -- the equation has a third argument, so it is not the binary Boolean case
    cases a <;> cases c <;> cases args <;> rfl

/-- `(= true true true)` is not evaluated: `eval_term` fails with `assert false` under every
model. -/
theorem evalTerm_eq_bool_chain (model : V → Value) :
    evalTerm model (.app .eq [.const (.bool true), .const (.bool true), .const (.bool true)]) =
      .error (.exn .assertFailure) := rfl

/-- `bool_of_value (eval_term model t)`, with `Invalid_argument` for a value that is not a
Boolean. -/
def evalBool (model : V → Value) (t : Term V) : Except Stop Bool := do
  let v ← evalTerm model t
  match boolOfValue v with
  | .ok b => pure b
  | .error e => .error (.exn e)

section
variable {model : V → Value}

/-- `bool_of_value (eval_term t)` succeeds exactly on a Boolean normal form. -/
theorem evalBool_eq_ok_iff {t : Term V} {b : Bool} :
    evalBool model t = .ok b ↔ simplifyTermModel model t = .ok (.bool b) := by
  unfold evalBool evalTerm
  cases simplifyTermModel model t with
  | error e => simp [Except.map, bind, Except.bind]
  | ok nf =>
    cases nf <;> simp [Except.map, bind, Except.bind, valueOfNF, boolOfValue, pure, Except.pure]

theorem simplifyTermModel_app (s : Symbol) (args : List (Term V)) :
    simplifyTermModel model (.app s args) =
      (evalTList (simplifyTermNode model) args).bind (simplifyTermNode model (.app s)) := rfl

theorem evalTList_singleton {x : Term V} {nx : NF} (hx : simplifyTermModel model x = .ok nx) :
    evalTList (simplifyTermNode model) [x] = .ok [nx] := by
  simp only [evalTList, bind, Except.bind, pure, Except.pure]
  rw [show evalT (simplifyTermNode model) x = .ok nx from hx]

theorem evalTList_pair {x y : Term V} {nx ny : NF} (hx : simplifyTermModel model x = .ok nx)
    (hy : simplifyTermModel model y = .ok ny) :
    evalTList (simplifyTermNode model) [x, y] = .ok [nx, ny] := by
  simp only [evalTList, bind, Except.bind, pure, Except.pure]
  rw [show evalT (simplifyTermNode model) x = .ok nx from hx,
    show evalT (simplifyTermNode model) y = .ok ny from hy]

/-- A negation evaluates to the opposite of its argument. -/
theorem evalBool_mkNot {t : Term V} {b : Bool} (h : evalBool model t = .ok b) :
    evalBool model (mkNot t) = .ok !b := by
  rw [evalBool_eq_ok_iff] at h ⊢
  rw [mkNot, simplifyTermModel_app, evalTList_singleton h]
  rfl

/-- The argument of a negation that evaluates to `b` evaluates to `!b`. -/
theorem evalBool_of_mkNot {t : Term V} {b : Bool} (h : evalBool model (mkNot t) = .ok b) :
    evalBool model t = .ok !b := by
  rw [evalBool_eq_ok_iff] at h ⊢
  rw [mkNot, simplifyTermModel_app] at h
  cases ht : simplifyTermModel model t with
  | error e =>
    simp [evalTList, bind, Except.bind, show evalT (simplifyTermNode model) t = _ from ht] at h
  | ok nf =>
    rw [evalTList_singleton ht] at h
    cases nf <;> simp_all [simplifyTermNode, notNF, Except.bind]

/-- `Term.negate` negates the value of a Boolean term. -/
theorem evalBool_negate {t : Term V} {b : Bool} (h : evalBool model t = .ok b) :
    evalBool model (negate t) = .ok !b := by
  by_cases hn : ∃ t', t = .app .not [t']
  · obtain ⟨t', rfl⟩ := hn
    rw [negate_not]
    simpa using evalBool_of_mkNot h
  · rw [negate_of_ne fun t' ht => hn ⟨t', ht⟩]
    exact evalBool_mkNot h

/-- A binary disjunction evaluates to the disjunction of the values. -/
theorem evalBool_mkOr_pair {x y : Term V} {bx byy : Bool} (hx : evalBool model x = .ok bx)
    (hy : evalBool model y = .ok byy) : evalBool model (mkOr [x, y]) = .ok (bx || byy) := by
  rw [evalBool_eq_ok_iff] at hx hy ⊢
  rw [show mkOr [x, y] = .app .or [x, y] from rfl, simplifyTermModel_app, evalTList_pair hx hy]
  cases bx <;> cases byy <;> rfl

end

end Eval
end Kind2
