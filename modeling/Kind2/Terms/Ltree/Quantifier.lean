import Kind2.Terms.Ltree.Map

/-!
# Whether a term has a quantifier

`has_quantifier term` (`src/terms/ltree.ml:1776`) walks a term with the instructions of `map`
(`Mapstack`), without binder counts and without results. A subterm on top of the stack is
replaced by what it contains: the arguments of an application and the definitions of a let binding
in reverse order, above the body of the let and above a marker of the node, the term of an
annotation above a marker of the annotation. A marker is popped, and the walk stops with `true` at
the first quantifier. `TermLib.logic_of_term` calls it to add the feature `Q`, and
`QE.generalize` to refuse a quantified term. The flag `has` of the loop is `false` throughout, as
nothing sets it; the model keeps it as the source does.

`Quantified t` says that a quantifier occurs in `t`: `t` is one, or one occurs in an argument, an
annotated term, or the body or a definition of a let binding. Visiting a term on top of a stack
is a search for it in the sense of `Machine.Decides`: it halts with `true` if the term is
`Quantified`, and otherwise hands on to the stack below (`decides_mTree`). So `has_quantifier`
halts on every term, with `true` exactly for the quantified ones (`hasQuantifier_iff`).
-/

namespace Kind2
namespace Ltree

variable {T : BaseTypes}

/-! ## The walk -/

/-- The local `push` of `has_quantifier`: the subterms go onto the instruction stack in reverse
order. -/
def hasQuantifierPush : List (Term T) → List (Mapstack T) → List (Mapstack T)
  | [], st => st
  | h :: t, st => hasQuantifierPush t (.mTree h :: st)

/-- One iteration of the local `has_quantifier has n`: its recursive calls become `.next`, its
results `.halt`. -/
def hasQuantifierStep : Bool × List (Mapstack T) →
    Machine.Step (Bool × List (Mapstack T)) Bool Empty
  | (has, n) =>
    if has then .halt true
    else
      match n with
      | [] => .halt has
      | .mTree (.freeVar _) :: s | .mTree (.boundVar _) :: s | .mTree (.leaf _) :: s =>
        .next (has, s)
      | .mTree (.node o a) :: s => .next (has, hasQuantifierPush a (.mNode o :: s))
      | .mTree (.annot t a) :: s => .next (has, .mTree t :: .mAnnot a :: s)
      | .mTree (.letE x t b) :: s => .next (has, hasQuantifierPush b (.mTree t :: .mLet x :: s))
      | .mTree (.existsE _ _) :: _ | .mTree (.forallE _ _) :: _ => .halt true
      | .mNode _ :: s | .mAnnot _ :: s | .mLet _ :: s => .next (has, s)
      | .mExists _ :: _ | .mForall _ :: _ => .halt true

/-- `has_quantifier term`, run for at most `fuel` iterations; `none` when the fuel runs out. -/
def hasQuantifier (fuel : Nat) (term : Term T) : Option (Except Empty Bool) :=
  Machine.run hasQuantifierStep fuel (false, [.mTree term])

/-! ## Quantified terms -/

/-- A quantifier occurs in the term: it is one, or one occurs in an argument of an application,
in the term of an annotation, or in the body or a definition of a let binding. -/
inductive Quantified : Term T → Prop
  | existsE (x : List T.sort) (t : Term T) : Quantified (.existsE x t)
  | forallE (x : List T.sort) (t : Term T) : Quantified (.forallE x t)
  | node (o : T.symbol) {a : List (Term T)} {u : Term T} :
      u ∈ a → Quantified u → Quantified (.node o a)
  | annot {t : Term T} (a : T.attr) : Quantified t → Quantified (.annot t a)
  | letBody (x : List T.sort) {t : Term T} (b : List (Term T)) :
      Quantified t → Quantified (.letE x t b)
  | letDef (x : List T.sort) (t : Term T) {b : List (Term T)} {u : Term T} :
      u ∈ b → Quantified u → Quantified (.letE x t b)

section Quantified

variable {o : T.symbol} {a : List (Term T)} {t : Term T} {x : List T.sort} {b : List (Term T)}

theorem not_quantified_freeVar (v : T.var) : ¬Quantified (.freeVar v : Term T) := nofun

theorem not_quantified_boundVar (i : Int) : ¬Quantified (.boundVar i : Term T) := nofun

theorem not_quantified_leaf (c : T.symbol) : ¬Quantified (.leaf c : Term T) := nofun

theorem quantified_node_iff : Quantified (.node o a) ↔ ∃ u ∈ a, Quantified u := by
  constructor
  · rintro (_ | _ | ⟨_, hu, hq⟩)
    exact ⟨_, hu, hq⟩
  · rintro ⟨u, hu, hq⟩
    exact .node o hu hq

theorem quantified_annot_iff {an : T.attr} : Quantified (.annot t an) ↔ Quantified t := by
  constructor
  · rintro (_ | _ | _ | ⟨_, hq⟩)
    exact hq
  · exact .annot an

/-- In the order the walk visits them: the definitions, then the body. -/
theorem quantified_letE_iff :
    Quantified (.letE x t b) ↔ (∃ u ∈ b, Quantified u) ∨ Quantified t := by
  constructor
  · rintro (_ | _ | _ | _ | ⟨_, _, hq⟩ | ⟨_, _, hu, hq⟩)
    · exact .inr hq
    · exact .inl ⟨_, hu, hq⟩
  · rintro (⟨u, hu, hq⟩ | hq)
    · exact .letDef x t hu hq
    · exact .letBody x b hq

end Quantified

/-! ## Runs of the walk -/

/-- Popping the marker of a node, an annotation or a let finds nothing. -/
theorem decides_marker {m : Mapstack T} {s : List (Mapstack T)}
    (hm : hasQuantifierStep (false, m :: s) = .next (false, s)) :
    Machine.Decides hasQuantifierStep (false, m :: s) False true (false, s) :=
  Machine.Decides.head hm (Machine.Decides.refl not_false)

mutual
/-- Visiting a term halts with `true` if a quantifier occurs in it, and otherwise comes back to
the stack below it. -/
theorem decides_mTree : ∀ (t : Term T) (s : List (Mapstack T)),
    Machine.Decides hasQuantifierStep (false, .mTree t :: s) (Quantified t) true (false, s)
  | .freeVar v, s => Machine.Decides.head rfl (Machine.Decides.refl (not_quantified_freeVar v))
  | .boundVar i, s => Machine.Decides.head rfl (Machine.Decides.refl (not_quantified_boundVar i))
  | .leaf c, s => Machine.Decides.head rfl (Machine.Decides.refl (not_quantified_leaf c))
  | .node o a, s => by
    have h := (decides_push a (.mNode o :: s)).seq (decides_marker rfl)
    exact Machine.Decides.head rfl (h.congr (by rw [or_false, quantified_node_iff]))
  | .annot t an, s => by
    have h := (decides_mTree t (.mAnnot an :: s)).seq (decides_marker rfl)
    exact Machine.Decides.head rfl (h.congr (by rw [or_false, quantified_annot_iff]))
  | .letE x t b, s => by
    -- the definitions are visited first, then the body, then the marker of the let
    have h := (decides_push b (.mTree t :: .mLet x :: s)).seq
      ((decides_mTree t (.mLet x :: s)).seq (decides_marker rfl))
    exact Machine.Decides.head rfl (h.congr (by rw [or_false, quantified_letE_iff]))
  | .existsE x t, _ => Machine.Decides.of_halt rfl (.existsE x t)
  | .forallE x t, _ => Machine.Decides.of_halt rfl (.forallE x t)

/-- The subterms pushed by the local `push` are visited last to first; the search looks for a
quantifier in any of them. -/
theorem decides_push : ∀ (a : List (Term T)) (st : List (Mapstack T)),
    Machine.Decides hasQuantifierStep (false, hasQuantifierPush a st) (∃ u ∈ a, Quantified u) true
      (false, st)
  | [], _ => Machine.Decides.refl (by simp)
  | h :: t, st => by
    rw [hasQuantifierPush]
    refine ((decides_push t (.mTree h :: st)).seq (decides_mTree h st)).congr ?_
    rw [List.exists_mem_cons_iff]
    exact or_comm
end

/-- `has_quantifier` halts on every term, with `true` exactly when a quantifier occurs in it. -/
theorem hasQuantifier_iff (t : Term T) :
    ∃ b, (b = true ↔ Quantified t) ∧
      ∃ n, ∀ fuel, n ≤ fuel → hasQuantifier fuel t = some (.ok b) := by
  have h := decides_mTree t []
  by_cases hq : Quantified t
  · exact ⟨true, iff_of_true rfl hq, (h.1 hq).run⟩
  · -- the walk comes back to the empty stack, where it halts with the flag `false`
    exact ⟨false, iff_of_false Bool.false_ne_true hq, Machine.run_of_reaches_halt (h.2 hq) rfl⟩

end Ltree
end Kind2
