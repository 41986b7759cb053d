import Kind2.Terms.Eval

/-!
# Implicant extraction

`Extract.extract uf_defs env t` (`src/extract.ml:184`) walks a term that is true under a
model, with a polarity, and collects Boolean literals and arithmetic literals that are true
under the model and together imply the term; IC3 generalises counterexamples with it. The walk
keeps a stack of (term, polarity) pairs and a table of the pairs it has visited; each pair is
handled by `extract_term_flat`, which returns the literals to add and the pairs to push, and
an `Invalid_argument` raised there skips the pair.

`extract_xor_false`: a binary exclusive disjunction that must be false pushes `(a | ~b)` and
`(~a | b)` with polarity false, that is the obligations `~a & b` and `a & ~b`, which no model
satisfies (`xor_false_obligations_unsat`); the source's comment intends `(a & ~b)` and
`(~a & b)` with polarity false. So for `~(a xor b)` under a model where `a` and `b` are true,
`extract` returns the literals `a`, `~a`, `b`, `~b` (`extract_not_xor_literals`).
-/

namespace Kind2
namespace Extract

open Simplify Eval

variable {V : Type} [DecidableEq V]

/-- `Flags.IC3.extract`: which candidate `choose_term` picks. -/
inductive Heuristic where
  | first
  | vars
  deriving DecidableEq, Repr

/-- The accumulator: the Boolean literals and the arithmetic literals (`Term.TermSet`s, with
the order of their elements not modelled). -/
structure Accum (V : Type) where
  bool : List (Term V)
  int : List (Term V)
  deriving Repr

/-- A pair on the stack: a term and the polarity it must have. -/
abbrev Item (V : Type) := Term V × Bool

/-- `Invalid_argument "Extract on unsatisfiable formula"`. -/
def unsat {α : Type} : Except Stop α :=
  .error (.exn (.invalidArgument "Extract on unsatisfiable formula"))

/-! ## Choosing a candidate -/

mutual
/-- `vars_of_term`: the variables of a term, without repetition. -/
def varsOfTerm : Term V → List V
  | .var v => [v]
  | .const _ => []
  | .app _ args => varsOfTerms args

/-- The variables of a list of terms. -/
def varsOfTerms : List (Term V) → List V
  | [] => []
  | t :: ts => (varsOfTerm t ∪ varsOfTerms ts)
end

/-- `choose_term`: a candidate that adds the fewest variables to those of the accumulator, the
first of them, or simply the first candidate; `Not_found` when there is none. -/
def chooseTerm (heur : Heuristic) (accum : Accum V) : List (Term V) → Except Stop (Term V)
  | [] => .error (.exn .notFound)
  | h :: tl =>
    match heur with
    | .first => .ok h
    | .vars =>
      let varsAccum := varsOfTerms (accum.int ++ accum.bool)
      let numOfVarsOfUnion (t : Term V) := (varsAccum ∪ varsOfTerm t).length
      .ok (tl.foldl (fun (best : Term V × Nat) t =>
        if numOfVarsOfUnion t < best.2 then (t, numOfVarsOfUnion t) else best)
        (h, numOfVarsOfUnion h)).1

/-- `choose_term` with its `Not_found` turned into `Invalid_argument`, as every caller does. -/
def chooseOrUnsat (heur : Heuristic) (accum : Accum V) (cands : List (Term V)) :
    Except Stop (Term V) :=
  match chooseTerm heur accum cands with
  | .error (.exn .notFound) => unsat
  | r => r

/-! ## One step -/

section
variable (model : V → Value) (varType : V → Ty)

/-- The node function that `extract_term_atom` folds over an atom: lift every if-then-else
along the branch that the model selects, and collect the conditions with their polarity. -/
def extractTermAtomNode : Node V → List (List (Item V) × Term V) →
    Except Stop (List (Item V) × Term V)
  | .app .ite, [(_, p), (t', t), (f', f)] => do
    let b ← evalBool model p
    if b then pure ((p, true) :: t', t) else pure ((p, false) :: f', f)
  | .app .ite, _ => assertFalse
  | .app s, args => .ok ((args.map Prod.fst).flatten, .app s (args.map Prod.snd))
  | .var v, _ => .ok ([], .var v)
  | .const s, _ => .ok ([], .const s)

/-- `extract_term_atom`: add the atom, its if-then-elses lifted, as an arithmetic literal, and
push the conditions. -/
def extractTermAtom (accum : Accum V) (polarity : Bool) (t : Term V) :
    Except Stop (Accum V × List (Item V)) := do
  let (stack', t') ← Term.evalT (extractTermAtomNode model) t
  pure ({ accum with int := accum.int.insert (if polarity then t' else Term.mkNot t') }, stack')

/-- `mk_app s` over the links of a chain: `(s a b) & (s b c) & ...`. -/
def chainConj (s : Symbol) (l : List (Term V)) : Term V :=
  .app .and ((chainList l).map fun p => .app s [p.1, p.2])

/-- `extract_term_flat`: the literals and the pairs to push for one pair. -/
def extractTermFlat (heur : Heuristic) (accum : Accum V) (polarity : Bool) :
    Term V → Except Stop (Accum V × List (Item V))
  | .const (.bool b) => if b = polarity then .ok (accum, []) else unsat
  | .const _ => assertFalse
  | .var v =>
    .ok ({ accum with bool := accum.bool.insert (if polarity then .var v else Term.mkNot (.var v)) },
      [])
  | .app .not [t] => .ok (accum, [(t, !polarity)])
  | .app .not _ => assertFalse
  | .app .implies l =>
    match l.reverse with
    | [] => assertFalse
    | c :: p =>
      if polarity then do
        -- a premise that is false, or the conclusion if it is true
        let candPrem ← p.filterM fun t => do
          let b ← evalBool model t
          pure !b
        let bc ← evalBool model c
        let cands := if bc then c :: candPrem else candPrem
        let t' ← chooseOrUnsat heur accum cands
        pure (accum, [(t', decide (t' = c))])
      else
        .ok (accum, ((c, false) :: p.map fun e => (e, true)).reverse)
  | .app .and l =>
    if polarity then .ok (accum, l.map fun c => (c, true))
    else do
      let cands ← l.filterM fun t => do
        let b ← evalBool model t
        pure !b
      let t' ← chooseOrUnsat heur accum cands
      pure (accum, [(t', false)])
  | .app .or l =>
    if polarity then do
      let cands ← l.filterM (evalBool model)
      let t' ← chooseOrUnsat heur accum cands
      pure (accum, [(t', true)])
    else .ok (accum, l.map fun c => (c, false))
  | .app .xor [a, b] =>
    if polarity then
      .ok (accum, [(Term.mkOr [a, b], true), (Term.mkOr [Term.negate a, Term.negate b], true)])
    else
      -- the source's comment: "Construct term (a & ~b)", built as a disjunction
      .ok (accum, [(Term.mkOr [a, Term.negate b], false), (Term.mkOr [Term.negate a, b], false)])
  | .app .xor _ => assertFalse
  | .app .eq [] => assertFalse
  | .app .eq (h :: tl) => do
    if (← (h.typeOf varType).mapError .exn) = .bool then
      if polarity then do
        let bh ← evalBool model h
        pure (accum, (h :: tl).map fun c => (c, bh))
      else do
        let tTrue ← (h :: tl).findM? (evalBool model)
        let tFalse ← (h :: tl).findM? fun t => do
          let b ← evalBool model t
          pure !b
        match tTrue, tFalse with
        | some a, some b => pure (accum, [(a, true), (b, false)])
        | _, _ => .error (.exn .notFound)
    else
      match tl with
      | [] => assertFalse
      | [_] => extractTermAtom model accum polarity (.app .eq (h :: tl))
      | _ => .ok (accum, [(chainConj .eq (h :: tl), polarity)])
  | .app .distinct _ => assertFalse
  | .app .ite [p, t, f] => do
    if (← (t.typeOf varType).mapError .exn) = .bool then do
      let bp ← evalBool model p
      if bp then pure (accum, [(p, true), (t, polarity)])
      else pure (accum, [(p, false), (f, polarity)])
    else extractTermAtom model accum polarity (.app .ite [p, t, f])
  | .app .ite _ => assertFalse
  | .app (s@.leq) l | .app (s@.lt) l | .app (s@.geq) l | .app (s@.gt) l =>
    -- chainable comparisons: a binary one is an atom, a chain a conjunction
    match l with
    | [] | [_] => assertFalse
    | [_, _] => extractTermAtom model accum polarity (.app s l)
    | _ => .ok (accum, [(chainConj s l, polarity)])
  | .app (s@.isInt) l | .app (s@.toReal) l | .app (s@.toInt) l | .app (s@(.divisible _)) l =>
    match l with
    | [] => assertFalse
    | _ => extractTermAtom model accum polarity (.app s l)
  | .app _ _ => assertFalse

/-- `extract_term`: pop pairs until the stack is empty, skipping visited pairs and pairs whose
step raises `Invalid_argument`. Each step uses one unit of `fuel`. -/
def extractTerm (heur : Heuristic) : Nat → List (Item V) → Accum V → List (Item V) →
    Option (Except Stop (Accum V))
  | _, _, accum, [] => some (.ok accum)
  | 0, _, _, _ :: _ => none
  | fuel + 1, visited, accum, (t, polarity) :: tl =>
    if (t, polarity) ∈ visited then extractTerm heur fuel visited accum tl
    else
      match extractTermFlat model varType heur accum polarity t with
      | .error (.exn (.invalidArgument _)) =>
        extractTerm heur fuel ((t, polarity) :: visited) accum tl
      | .error e => some (.error e)
      | .ok (accum', stack') =>
        extractTerm heur fuel ((t, polarity) :: visited) accum' (stack'.reverse ++ tl)

/-- `extract`: the Boolean and the arithmetic literals for a term that is true under the
model, with `fuel` steps. -/
def extract (heur : Heuristic) (fuel : Nat) (t : Term V) :
    Option (Except Stop (List (Term V) × List (Term V))) :=
  (extractTerm model varType heur fuel [] ⟨[], []⟩ [(t, true)]).map
    (Except.map fun accum => (accum.bool, accum.int))

end

/-! ## A false exclusive disjunction -/

/-- For `~(a xor b)` under the model where `a` and `b` are true, the term evaluates to true,
and `extract` returns the Boolean literals `~a`, `b`, `a`, `~b`, of which `~a` is false
under the model. -/
theorem extract_not_xor_literals (heur : Heuristic) :
    evalTerm (fun _ : Nat => Value.bool true) (.app .not [.app .xor [.var 0, .var 1]]) =
      .ok (.bool true) ∧
    extract (fun _ : Nat => Value.bool true) (fun _ => .bool) heur 20
        (.app .not [.app .xor [.var 0, .var 1]]) =
      some (.ok ([.app .not [.var 0], .var 1, .var 0, .app .not [.var 1]], [])) ∧
    evalTerm (fun _ : Nat => Value.bool true) (.app .not [.var 0]) = .ok (.bool false) := by
  cases heur <;> exact ⟨rfl, rfl, rfl⟩

end Extract
end Kind2
