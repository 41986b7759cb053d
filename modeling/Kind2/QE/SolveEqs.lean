import Kind2.Terms.Term
import Kind2.Lib.Machine

/-!
# Solving equations before projection (`src/qe/QE.ml`)

`QE.solve_eqs vars terms` (line 543) removes from a conjunction the variables of `vars` that have
a definition in it. `collect_eqs` splits the conjunction into the definitions `v = e` of variables
of `vars` and the other terms; `order_defs` sorts the definitions so that a definition comes after
the definitions of the variables it reads, moving those to the top of a stack; `subst_defs`
let-binds the definitions of the variables a term reads until it reads none.

Both loops are tail-recursive without a measure, and the source notes that cycles are not checked.
They are step functions run with fuel (`Machine.run`), where `none` means that the fuel ran out.
Terms are the let-free terms of `Term`: `Term.mk_let defs t` is modelled by the term it stands
for, `t` with the definitions substituted, which is what `Term.vars_of_term` reads (it folds the
term with `eval_t`, which unfolds let bindings).
-/

namespace Kind2
namespace QE

variable {V : Type}

section Vars

mutual
/-- `Term.vars_of_term`, as a list that may repeat a variable. -/
def varsOfTerm : Term V → List V
  | .var v => [v]
  | .const _ => []
  | .app _ args => varsOfTerms args

/-- The variables of a list of terms. -/
def varsOfTerms : List (Term V) → List V
  | [] => []
  | t :: ts => varsOfTerm t ++ varsOfTerms ts
end

mutual
/-- The term with each variable replaced by its image under `σ`, where it has one. -/
def substTerm (σ : V → Option (Term V)) : Term V → Term V
  | .var v => (σ v).getD (.var v)
  | .const s => .const s
  | .app s args => .app s (substTerms σ args)

/-- Substitution in a list of terms. -/
def substTerms (σ : V → Option (Term V)) : List (Term V) → List (Term V)
  | [] => []
  | t :: ts => substTerm σ t :: substTerms σ ts
end

mutual
/-- Substituting `e` for `x` in a term that reads `x` gives a term that reads every variable of
`e`. -/
theorem mem_varsOfTerm_substTerm {x : V} {σ : V → Option (Term V)} {e : Term V}
    (hσ : σ x = some e) {w : V} (hw : w ∈ varsOfTerm e) :
    ∀ t, x ∈ varsOfTerm t → w ∈ varsOfTerm (substTerm σ t)
  | .var v, h => by
    rw [varsOfTerm, List.mem_singleton] at h
    subst h
    simpa [substTerm, hσ] using hw
  | .const _, h => by simp [varsOfTerm] at h
  | .app _ args, h => by
    rw [varsOfTerm] at h
    rw [substTerm, varsOfTerm]
    exact mem_varsOfTerms_substTerms hσ hw args h

theorem mem_varsOfTerms_substTerms {x : V} {σ : V → Option (Term V)} {e : Term V}
    (hσ : σ x = some e) {w : V} (hw : w ∈ varsOfTerm e) :
    ∀ ts, x ∈ varsOfTerms ts → w ∈ varsOfTerms (substTerms σ ts)
  | [], h => by simp [varsOfTerms] at h
  | t :: ts, h => by
    rw [varsOfTerms, List.mem_append] at h
    rw [substTerms, varsOfTerms, List.mem_append]
    exact h.imp (mem_varsOfTerm_substTerm hσ hw t) (mem_varsOfTerms_substTerms hσ hw ts)
end

end Vars

variable [DecidableEq V]

/-- `Term.mk_let defs t`: `t` with each defined variable replaced by its definition, the last
binding of a variable taking effect as in `Ltree.bind`. -/
def mkLet (defs : List (V × Term V)) (t : Term V) : Term V :=
  substTerm (fun v => defs.reverse.lookup v) t

/-! ## The three stages -/

/-- `collect_eqs vars (eqs, terms) l`: the equations `v = e` with `v` in `vars` become definitions;
a second equation of a variable is rewritten to the equation of the two definitions, and
`v = v` is dropped. -/
def collectEqs (vars : List V) :
    List (V × Term V) × List (Term V) → List (Term V) → List (V × Term V) × List (Term V)
  | acc, [] => acc
  | (eqs, terms), term :: tl =>
    match term with
    | .app .eq [.var v, e] =>
      if v ∈ vars then
        match eqs.find? fun d => decide (d.1 = v) with
        | some (_, e') => collectEqs vars (eqs, .app .eq [e, e'] :: terms) tl
        | none =>
          if Term.var v = e then collectEqs vars (eqs, terms) tl
          else collectEqs vars ((v, e) :: eqs, terms) tl
      else collectEqs vars (eqs, term :: terms) tl
    | _ => collectEqs vars (eqs, term :: terms) tl

/-- The definitions sorted so far and the stack of definitions still to sort. -/
abbrev DefsState (V : Type) := List (V × Term V) × List (V × Term V)

/-- One iteration of `order_defs accum stack`: a definition whose variables have no definition
below it on the stack is sorted; otherwise those definitions move above it. A definition of a
variable that is sorted already is an `assert false`. -/
def orderDefsStep : DefsState V → Machine.Step (DefsState V) (List (V × Term V)) Exn
  | (accum, []) => .halt accum
  | (accum, (v, e) :: tl) =>
    if accum.any fun d => decide (d.1 = v) then .fail .assertFailure
    else
      let dep := (varsOfTerm e).filter fun w => tl.any fun d => decide (d.1 = w)
      if dep.isEmpty then .next ((v, e) :: accum, tl)
      else
        let parts := tl.partition fun d => dep.any fun w => decide (d.1 = w)
        .next (accum, parts.1 ++ (v, e) :: parts.2)

/-- One iteration of `subst_defs term`: let-bind the definitions of the variables of the term,
or stop when it has none. -/
def substDefsStep (eqs : List (V × Term V)) (term : Term V) : Machine.Step (Term V) (Term V) Exn :=
  match eqs.filter fun d => (varsOfTerm term).any fun w => decide (d.1 = w) with
  | [] => .halt term
  | defs => .next (mkLet defs term)

/-- `subst_defs` run for at most `fuel` iterations. -/
def substDefs (fuel : Nat) (eqs : List (V × Term V)) (term : Term V) : Option (Term V) :=
  match Machine.run (substDefsStep eqs) fuel term with
  | some (.ok t) => some t
  | _ => none

/-- `solve_eqs vars terms`, with `fuel` for each of its loops: `none` when one of them runs out
of it. -/
def solveEqs (fuel : Nat) (vars : List V) (terms : List (Term V)) :
    Option (Except Exn (List (Term V))) :=
  let collected := collectEqs vars ([], []) terms
  match Machine.run orderDefsStep fuel ([], collected.1) with
  | none => none
  | some (.error e) => some (.error e)
  | some (.ok eqs') => (collected.2.mapM (substDefs fuel eqs')).map .ok

/-! ## Divergence on cyclic definitions -/

section Cycles

variable {x y : V}

/-- Two definitions that read each other swap places on the stack. -/
theorem orderDefsStep_swap (x y : V) :
    orderDefsStep ([], [(y, .var x), (x, .var y)]) =
      .next ([], [(x, .var y), (y, .var x)]) := by
  simp [orderDefsStep, varsOfTerm]

theorem collectEqs_mutual (hxy : x ≠ y) {vars : List V} (hx : x ∈ vars) (hy : y ∈ vars) :
    collectEqs vars ([], []) [.app .eq [.var x, .var y], .app .eq [.var y, .var x]] =
      ([(y, .var x), (x, .var y)], []) := by
  simp [collectEqs, hx, hy, hxy, Ne.symm hxy]

/-- `solve_eqs` does not terminate on the definitions `x = y` and `y = x`: `order_defs` swaps them
on its stack forever. -/
theorem solveEqs_mutual_definitions (hxy : x ≠ y) {vars : List V} (hx : x ∈ vars)
    (hy : y ∈ vars) (fuel : Nat) :
    solveEqs fuel vars [.app .eq [.var x, .var y], .app .eq [.var y, .var x]] = none := by
  have hcycle :
      Machine.run orderDefsStep fuel (([], [(y, .var x), (x, .var y)]) : DefsState V) = none :=
    Machine.run_of_cycle (orderDefsStep_swap x y)
      (Machine.Reaches.single (orderDefsStep_swap y x)) fuel
  simp only [solveEqs, collectEqs_mutual hxy hx hy, hcycle]

theorem solveEqs_mutual_definitions_zero_one :
    (0 : ℕ) ≠ 1 ∧ 0 ∈ [0, 1] ∧ 1 ∈ [0, 1] ∧
      solveEqs 100 [0, 1]
        [.app .eq [.var 0, .var 1], .app .eq [.var 1, .var 0]] = none :=
  ⟨by decide, by simp, by simp, solveEqs_mutual_definitions (by decide) (by simp) (by simp) 100⟩

end Cycles

end QE
end Kind2
