import Mathlib

/-!
# Terms

The quantifier-free terms over Bool, Int and Real that `Eval.eval_term` evaluates and
`Extract.extract` walks (`src/terms/term.ml`, `src/terms/symbol.ml`). A term is a variable, a
constant symbol or a function symbol applied to a list of terms; let binders and attributes
are left out (`Term.T.destruct` unfolds let bindings before either function looks at a node).

`Term.typeOf` is `Term.type_of_term`; `Value` is `Eval.value` for the values that a model
gives to variables. `Exn` names the exceptions that the modelled functions raise, since
`extract` catches `Invalid_argument` and nothing else.
-/

namespace Kind2

/-- Symbols (`Symbol.interpreted_symbol`), those of the Bool, Int and Real theories. `bool b`
is `` `TRUE `` or `` `FALSE ``. -/
inductive Symbol where
  | bool (b : Bool)
  | numeral (n : Int)
  | decimal (d : ℚ)
  | not
  | implies
  | and
  | or
  | xor
  | eq
  | distinct
  | ite
  | leq
  | lt
  | geq
  | gt
  | minus
  | plus
  | times
  | div
  | intdiv
  | mod
  | abs
  | toReal
  | toInt
  | isInt
  | divisible (n : Int)
  deriving DecidableEq, Repr

/-- The types of terms (`Type.kindtype` for Bool, Int and Real). -/
inductive Ty where
  | bool
  | int
  | real
  deriving DecidableEq, Repr

/-- A term over variables `V`. -/
inductive Term (V : Type) where
  | var (v : V)
  | const (s : Symbol)
  | app (s : Symbol) (args : List (Term V))
  deriving Repr

/-- The top node of a term (`Term.T.flat`) without its subterms: what `eval_t` passes to
the function it folds. -/
inductive Node (V : Type) where
  | var (v : V)
  | const (s : Symbol)
  | app (s : Symbol)
  deriving DecidableEq, Repr

/-- Exceptions of the modelled functions: `Assert_failure`, `Invalid_argument`, `Not_found`
and `Division_by_zero`. -/
inductive Exn where
  | assertFailure
  | invalidArgument (msg : String)
  | notFound
  | divisionByZero
  deriving DecidableEq, Repr

/-- Values of terms (`Eval.value` without `ValTerm`). -/
inductive Value where
  | bool (b : Bool)
  | num (n : Int)
  | dec (d : ℚ)
  deriving DecidableEq, Repr

namespace Term

variable {V : Type}

section
variable [DecidableEq V]

mutual
/-- Equality of terms is decidable. -/
def decEq : (a b : Term V) → Decidable (a = b)
  | var v, var w => if h : v = w then isTrue (h ▸ rfl) else isFalse (by simp [h])
  | const s, const s' => if h : s = s' then isTrue (h ▸ rfl) else isFalse (by simp [h])
  | app s as, app s' bs =>
    if hs : s = s' then
      match decEqList as bs with
      | isTrue h => isTrue (by rw [hs, h])
      | isFalse h => isFalse (by simp [h])
    else isFalse (by simp [hs])
  | var _, const _ | var _, app _ _ | const _, var _ | const _, app _ _ | app _ _, var _
  | app _ _, const _ => isFalse (by simp)

/-- Equality of lists of terms is decidable. -/
def decEqList : (as bs : List (Term V)) → Decidable (as = bs)
  | [], [] => isTrue rfl
  | a :: as, b :: bs =>
    match decEq a b, decEqList as bs with
    | isTrue h₁, isTrue h₂ => isTrue (by rw [h₁, h₂])
    | isFalse h₁, _ => isFalse (by simp [h₁])
    | _, isFalse h₂ => isFalse (by simp [h₂])
  | [], _ :: _ | _ :: _, [] => isFalse (by simp)
end

instance : DecidableEq (Term V) := decEq

end

/-- `Term.t_true` and `Term.t_false`. -/
def mkBool (b : Bool) : Term V := const (.bool b)

/-- `Term.mk_not`. -/
def mkNot (t : Term V) : Term V := app .not [t]

/-- `Term.mk_or`: the empty disjunction is false, a singleton is its element. -/
def mkOr : List (Term V) → Term V
  | [] => mkBool false
  | [a] => a
  | l => app .or l

/-- `Term.mk_and`: the empty conjunction is true, a singleton is its element. -/
def mkAnd : List (Term V) → Term V
  | [] => mkBool true
  | [a] => a
  | l => app .and l

/-- `Term.negate`: remove a top negation, or negate. -/
def negate : Term V → Term V
  | app .not [t] => t
  | t => mkNot t

theorem negate_not (t : Term V) : negate (app .not [t]) = t := rfl

theorem negate_of_ne {t : Term V} (h : ∀ t', t ≠ app .not [t']) : negate t = mkNot t := by
  unfold negate
  split
  · rename_i t'
    exact absurd rfl (h t')
  · rfl

/-- `Term.T.destruct` for these terms: the top node. -/
def node : Term V → Node V
  | var v => .var v
  | const s => .const s
  | app s _ => .app s

mutual
/-- `Term.T.eval_t`: fold a node function bottom-up over a term, arguments left to right. -/
def evalT {β ε : Type} (f : Node V → List β → Except ε β) : Term V → Except ε β
  | var v => f (.var v) []
  | const s => f (.const s) []
  | app s args => do
    let rs ← evalTList f args
    f (.app s) rs

/-- The fold over the arguments of a node. -/
def evalTList {β ε : Type} (f : Node V → List β → Except ε β) :
    List (Term V) → Except ε (List β)
  | [] => .ok []
  | t :: ts => do
    let r ← evalT f t
    let rs ← evalTList f ts
    pure (r :: rs)
end

theorem evalTList_length {β ε : Type} {f : Node V → List β → Except ε β} :
    ∀ {ts : List (Term V)} {rs : List β}, evalTList f ts = .ok rs → rs.length = ts.length
  | [], rs, h => by
    simp only [evalTList, Except.ok.injEq] at h
    subst h
    rfl
  | t :: ts, rs, h => by
    simp only [evalTList, bind, Except.bind] at h
    split at h
    · cases h
    · split at h
      · cases h
      · rename_i rs' hrs
        simp only [pure, Except.pure, Except.ok.injEq] at h
        subst h
        simp [evalTList_length hrs]

/-- A computation in `Except` that ends with a result ran each of its steps to a result. -/
theorem except_bind_eq_ok {ε α β : Type} {x : Except ε α} {f : α → Except ε β} {b : β} :
    x >>= f = .ok b ↔ ∃ a, x = .ok a ∧ f a = .ok b := by
  cases x <;> simp [bind, Except.bind]

/-- The fold over terms that each fold to a result folds to the list of results. -/
theorem evalTList_map_eq_ok {α β ε : Type} {f : Node V → List β → Except ε β} {k : α → Term V}
    {h : α → β} : ∀ {l : List α}, (∀ a ∈ l, evalT f (k a) = .ok (h a)) →
      evalTList f (l.map k) = .ok (l.map h)
  | [], _ => rfl
  | a :: l, hk => by
    rw [List.map_cons, evalTList, hk a (by simp),
      evalTList_map_eq_ok fun b hb => hk b (List.mem_cons_of_mem a hb)]
    rfl

section Simulation

variable {β γ ε ε' : Type} {f : Node V → List β → Except ε β}
  {g : Node V → List γ → Except ε' γ} {R : β → γ → Prop}

mutual
/-- Two folds whose node functions relate their results whenever they relate the results of the
arguments relate their results on every term where both succeed. -/
theorem evalT_rel
    (hnode : ∀ n bs cs b c,
      List.Forall₂ R bs cs → f n bs = .ok b → g n cs = .ok c → R b c) :
    ∀ (t : Term V) {b : β} {c : γ}, evalT f t = .ok b → evalT g t = .ok c → R b c
  | var _, _, _, hf, hg | const _, _, _, hf, hg => hnode _ [] [] _ _ .nil hf hg
  | app _ args, _, _, hf, hg => by
    rw [evalT] at hf hg
    obtain ⟨bs, hbs, hf⟩ := except_bind_eq_ok.mp hf
    obtain ⟨cs, hcs, hg⟩ := except_bind_eq_ok.mp hg
    exact hnode _ _ _ _ _ (evalTList_rel hnode args hbs hcs) hf hg

theorem evalTList_rel
    (hnode : ∀ n bs cs b c,
      List.Forall₂ R bs cs → f n bs = .ok b → g n cs = .ok c → R b c) :
    ∀ (ts : List (Term V)) {bs : List β} {cs : List γ},
      evalTList f ts = .ok bs → evalTList g ts = .ok cs → List.Forall₂ R bs cs
  | [], _, _, hf, hg => by
    rw [evalTList, Except.ok.injEq] at hf hg
    subst hf hg
    exact .nil
  | t :: ts, _, _, hf, hg => by
    rw [evalTList] at hf hg
    obtain ⟨b, hb, hf⟩ := except_bind_eq_ok.mp hf
    obtain ⟨bs, hbs, hf⟩ := except_bind_eq_ok.mp hf
    obtain ⟨c, hc, hg⟩ := except_bind_eq_ok.mp hg
    obtain ⟨cs, hcs, hg⟩ := except_bind_eq_ok.mp hg
    cases hf
    cases hg
    exact .cons (evalT_rel hnode t hb hc) (evalTList_rel hnode ts hbs hcs)
end

end Simulation

/-- The type of a term (`Term.type_of_term`, `src/terms/term.ml:470`), given the types of the
variables, with `assert false` on an ill-formed term: a constant that is not nullary, an `ite`
that is not ternary, an arithmetic operator without arguments, or a constant applied. -/
def typeOf (varType : V → Ty) : Term V → Except Exn Ty
  | var v => .ok (varType v)
  | const (.bool _) => .ok .bool
  | const (.numeral _) => .ok .int
  | const (.decimal _) => .ok .real
  | const _ => .error .assertFailure
  | app .ite [_, t, _] => typeOf varType t
  | app .ite _ => .error .assertFailure
  | app .minus (t :: _) | app .plus (t :: _) | app .times (t :: _) => typeOf varType t
  | app .minus [] | app .plus [] | app .times [] => .error .assertFailure
  | app .div _ | app .toReal _ => .ok .real
  | app .intdiv _ | app .mod _ | app .toInt _ | app .abs _ => .ok .int
  | app (.bool _) _ | app (.numeral _) _ | app (.decimal _) _ => .error .assertFailure
  | app _ _ => .ok .bool

end Term

end Kind2
