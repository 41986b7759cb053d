import Mathlib.Logic.Relation

/-!
# Deterministic machines run with fuel

A machine is a step function: from a state it moves to a next state, halts with an answer or
fails with an error. `run` iterates the step for at most `fuel` steps and gives `none` when the
fuel runs out first. `Reaches` is the reflexive-transitive closure of moving.

A run from a state is a run from any state it reaches, with the steps in between added
(`Reaches.run_add`); so a state that reaches a halting state has that answer for all fuel from
some bound on (`run_of_reaches_halt`), and a state that reaches itself again in at least one
step has no answer for any fuel (`run_of_cycle`), nor has a state from which every step keeps an
invariant and none halts (`run_of_invariant`). A step that keeps an invariant and lowers a
well-founded measure until it halts gives an answer (`run_of_variant`).

`Leads s r k` says that the run from `s` computes `r`: it reaches `k b` for `r = ok b` and fails
for `r = error e`. It composes like the computations in `Except` (`Leads.bind`), so a machine
that runs a recursive program can be proved to compute what the program computes by following
the program's structure.

`Decides s P a s'` says the same of a search: from `s` the machine halts with `a` if `P` holds and
otherwise hands on to `s'`. Searches in sequence decide the disjunction (`Decides.seq`).
-/

namespace Machine

/-- What one step of a machine does. -/
inductive Step (σ α ε : Type) where
  | next (s : σ)
  | halt (a : α)
  | fail (e : ε)

variable {σ α ε : Type} (step : σ → Step σ α ε)

/-- Iterate `step` for at most `fuel` steps. -/
def run : Nat → σ → Option (Except ε α)
  | 0, _ => none
  | fuel + 1, s =>
    match step s with
    | .next s' => run fuel s'
    | .halt a => some (.ok a)
    | .fail e => some (.error e)

/-- One step moves from `s` to `s'`. -/
def Moves (s s' : σ) : Prop := step s = .next s'

/-- `s'` follows `s` after some steps. -/
def Reaches : σ → σ → Prop := Relation.ReflTransGen (Moves step)

variable {step}

theorem run_succ_of_next {s s' : σ} (h : step s = .next s') (fuel : Nat) :
    run step (fuel + 1) s = run step fuel s' := by
  simp [run, h]

theorem Reaches.refl (s : σ) : Reaches step s s := Relation.ReflTransGen.refl

theorem Reaches.single {s s' : σ} (h : step s = .next s') : Reaches step s s' :=
  Relation.ReflTransGen.single h

theorem Reaches.head {s s' s'' : σ} (h : step s = .next s') (h' : Reaches step s' s'') :
    Reaches step s s'' :=
  Relation.ReflTransGen.head h h'

theorem Reaches.trans {s s' s'' : σ} (h : Reaches step s s') (h' : Reaches step s' s'') :
    Reaches step s s'' :=
  Relation.ReflTransGen.trans h h'

/-- A run loses exactly the steps to a state it reaches. -/
theorem Reaches.run_add {s s' : σ} (h : Reaches step s s') :
    ∃ n, ∀ fuel, run step (n + fuel) s = run step fuel s' := by
  induction h using Relation.ReflTransGen.head_induction_on with
  | refl => exact ⟨0, fun fuel => by rw [Nat.zero_add]⟩
  | head hmove _ ih =>
    obtain ⟨n, hn⟩ := ih
    refine ⟨n + 1, fun fuel => ?_⟩
    rw [Nat.add_right_comm, run_succ_of_next hmove, hn]

/-- A state that reaches a halting state has its answer once the fuel is large enough. -/
theorem run_of_reaches_halt {s s' : σ} {a : α} (h : Reaches step s s') (hhalt : step s' = .halt a) :
    ∃ n, ∀ fuel, n ≤ fuel → run step fuel s = some (.ok a) := by
  obtain ⟨n, hn⟩ := h.run_add
  refine ⟨n + 1, fun fuel hfuel => ?_⟩
  obtain ⟨k, rfl⟩ : ∃ k, fuel = n + (k + 1) := ⟨fuel - n - 1, by omega⟩
  rw [hn]
  simp [run, hhalt]

/-- A state that reaches a failing state has that error once the fuel is large enough. -/
theorem run_of_reaches_fail {s s' : σ} {e : ε} (h : Reaches step s s') (hfail : step s' = .fail e) :
    ∃ n, ∀ fuel, n ≤ fuel → run step fuel s = some (.error e) := by
  obtain ⟨n, hn⟩ := h.run_add
  refine ⟨n + 1, fun fuel hfuel => ?_⟩
  obtain ⟨k, rfl⟩ : ∃ k, fuel = n + (k + 1) := ⟨fuel - n - 1, by omega⟩
  rw [hn]
  simp [run, hfail]

/-- A statement about every fuel from `n + 1` on, from the statement about the successor of every
fuel from `n` on: the first step of a recursion that spends one unit of fuel per call. -/
theorem forall_fuel_of_succ {P : Nat → Prop} {n : Nat} (h : ∀ f, n ≤ f → P (f + 1)) :
    ∀ fuel, n + 1 ≤ fuel → P fuel := by
  intro fuel hfuel
  obtain ⟨f, rfl⟩ : ∃ f, fuel = f + 1 := ⟨fuel - 1, by omega⟩
  exact h f (by omega)

/-- An answer, once a run has it, stays with more fuel. -/
theorem run_mono {s : σ} {r : Except ε α} {fuel fuel' : Nat} (h : run step fuel s = some r)
    (hle : fuel ≤ fuel') : run step fuel' s = some r := by
  induction fuel generalizing fuel' s with
  | zero => simp [run] at h
  | succ n ih =>
    obtain ⟨m, rfl⟩ : ∃ m, fuel' = m + 1 := ⟨fuel' - 1, by omega⟩
    -- both runs take the same first step
    cases hs : step s with
    | next s' =>
      rw [run_succ_of_next hs] at h ⊢
      exact ih h (by omega)
    | halt a => simpa [run, hs] using h
    | fail e => simpa [run, hs] using h

/-- A state that comes back to itself after at least one step runs out of any fuel. -/
theorem run_of_cycle {s s' : σ} (h : step s = .next s') (h' : Reaches step s' s) :
    ∀ fuel, run step fuel s = none := by
  obtain ⟨n, hn⟩ := h'.run_add
  -- with less fuel than the way back, the run from `s'` has no answer either
  have hshort : ∀ m, m < n → run step m s' = none := by
    intro m hm
    cases hr : run step m s' with
    | none => rfl
    | some r =>
      have := run_mono hr (Nat.le_of_lt hm)
      rw [← Nat.add_zero n, hn] at this
      simp [run] at this
  intro fuel
  induction fuel using Nat.strongRecOn with
  | ind fuel ih =>
    match fuel with
    | 0 => rfl
    | m + 1 =>
      rw [run_succ_of_next h]
      by_cases hm : n ≤ m
      · obtain ⟨k, rfl⟩ : ∃ k, m = n + k := ⟨m - n, by omega⟩
        rw [hn]
        exact ih k (by omega)
      · exact hshort m (by omega)

/-- A machine that can always move on from an invariant state to another one runs out of any
fuel. -/
theorem run_of_invariant {I : σ → Prop} (hstep : ∀ s, I s → ∃ s', step s = .next s' ∧ I s') :
    ∀ fuel {s}, I s → run step fuel s = none
  | 0, _, _ => rfl
  | fuel + 1, s, hs => by
    obtain ⟨s', hs', hI⟩ := hstep s hs
    rw [run_succ_of_next hs']
    exact run_of_invariant hstep fuel hI

/-- A step that, from every state of an invariant, either halts with an answer of `Q` or moves to a
state of the invariant smaller in a well-founded relation, halts from every state of the invariant
with an answer of `Q`, once the fuel is large enough. -/
theorem run_of_variant {I : σ → Prop} {Q : α → Prop} {r : σ → σ → Prop} (hwf : WellFounded r)
    (hstep : ∀ s, I s → (∃ a, step s = .halt a ∧ Q a) ∨ ∃ s', step s = .next s' ∧ I s' ∧ r s' s) :
    ∀ s, I s → ∃ a, Q a ∧ ∃ n, ∀ fuel, n ≤ fuel → run step fuel s = some (.ok a) := by
  intro s
  induction s using hwf.induction with
  | _ s ih =>
    intro hs
    rcases hstep s hs with ⟨a, hhalt, hQ⟩ | ⟨s', hnext, hs', hr⟩
    · exact ⟨a, hQ, run_of_reaches_halt (Reaches.refl s) hhalt⟩
    · obtain ⟨a, hQ, n, hn⟩ := ih s' hr hs'
      refine ⟨a, hQ, n + 1, forall_fuel_of_succ fun f hf => ?_⟩
      rw [run_succ_of_next hnext]
      exact hn f hf

/-! ## Runs that compute a result or fail -/

section Leads

variable (step) {β : Type}

/-- From `s` the machine reaches `k b` if `r` is `ok b`, and fails with `e` if `r` is `error e`:
the run computes `r` and continues with `k`. -/
def Leads (s : σ) (r : Except ε β) (k : β → σ) : Prop :=
  match r with
  | .ok b => Reaches step s (k b)
  | .error e => ∃ s', Reaches step s s' ∧ step s' = .fail e

variable {step} {s s' : σ} {k : β → σ}

/-- One step that moves on with the result or fails with the error. -/
theorem Leads.of_step {r : Except ε β}
    (h : step s = match r with | .ok b => .next (k b) | .error e => .fail e) : Leads step s r k := by
  cases r with
  | ok b => exact Reaches.single h
  | error e => exact ⟨s, Reaches.refl s, h⟩

/-- Steps before a computation. -/
theorem Leads.reaches_head {r : Except ε β} (h : Reaches step s s') (h' : Leads step s' r k) :
    Leads step s r k := by
  cases r with
  | ok b => exact h.trans h'
  | error e =>
    obtain ⟨s'', hr, hfail⟩ := h'
    exact ⟨s'', h.trans hr, hfail⟩

theorem Leads.head {r : Except ε β} (h : step s = .next s') (h' : Leads step s' r k) :
    Leads step s r k :=
  Leads.reaches_head (Reaches.single h) h'

/-- Two computations in sequence: the second starts where the first leaves off. -/
theorem Leads.bind {γ : Type} {x : Except ε β} {g : β → Except ε γ} {k₁ : β → σ} {k : γ → σ}
    (h : Leads step s x k₁) (h' : ∀ b, x = .ok b → Leads step (k₁ b) (g b) k) :
    Leads step s (x >>= g) k := by
  cases x with
  | ok b => exact Leads.reaches_head h (h' b rfl)
  | error e => exact h

/-- A computation that ends in halting states runs to its result. -/
theorem run_of_leads {r : Except ε α} {k : α → σ} (h : Leads step s r k)
    (hk : ∀ b, step (k b) = .halt b) : ∃ n, ∀ fuel, n ≤ fuel → run step fuel s = some r := by
  cases r with
  | ok b => exact run_of_reaches_halt h (hk b)
  | error e =>
    obtain ⟨s', hr, hfail⟩ := h
    exact run_of_reaches_fail hr hfail

end Leads

/-! ## Searches that stop at the first hit -/

section Search

variable (step)

/-- From `s` the machine reaches a state that halts with `a`. -/
def Halts (s : σ) (a : α) : Prop := ∃ s', Reaches step s s' ∧ step s' = .halt a

/-- From `s` the machine halts with `a` if `P` holds, and otherwise reaches `s'`: a search for `P`
that stops at the first hit and hands on to `s'` when there is none. -/
def Decides (s : σ) (P : Prop) (a : α) (s' : σ) : Prop :=
  (P → Halts step s a) ∧ (¬P → Reaches step s s')

variable {step} {s s' s'' : σ} {a : α} {P Q : Prop}

theorem Halts.reaches_head (h : Reaches step s s') (h' : Halts step s' a) : Halts step s a := by
  obtain ⟨s'', hr, hhalt⟩ := h'
  exact ⟨s'', h.trans hr, hhalt⟩

theorem Halts.run (h : Halts step s a) :
    ∃ n, ∀ fuel, n ≤ fuel → run step fuel s = some (.ok a) := by
  obtain ⟨s', hr, hhalt⟩ := h
  exact run_of_reaches_halt hr hhalt

/-- A state that halts with `a` decides whatever holds. -/
theorem Decides.of_halt (h : step s = .halt a) (hP : P) : Decides step s P a s' :=
  ⟨fun _ => ⟨s, Reaches.refl s, h⟩, fun hn => absurd hP hn⟩

/-- Every state decides what does not hold, handing on to itself. -/
theorem Decides.refl (hP : ¬P) : Decides step s P a s :=
  ⟨fun h => absurd h hP, fun _ => Reaches.refl s⟩

theorem Decides.head (h : step s = .next s') (h' : Decides step s' P a s'') :
    Decides step s P a s'' :=
  ⟨fun hP => (h'.1 hP).reaches_head (Reaches.single h), fun hP => Reaches.head h (h'.2 hP)⟩

theorem Decides.congr (h : Decides step s P a s') (hPQ : P ↔ Q) : Decides step s Q a s' :=
  ⟨fun hQ => h.1 (hPQ.2 hQ), fun hQ => h.2 (mt hPQ.1 hQ)⟩

/-- Two searches in sequence: the second starts where the first hands on, and the two together
look for either. -/
theorem Decides.seq (h : Decides step s P a s') (h' : Decides step s' Q a s'') :
    Decides step s (P ∨ Q) a s'' := by
  refine ⟨fun hPQ => ?_, fun hPQ => ?_⟩
  · by_cases hP : P
    · exact h.1 hP
    · exact (h'.1 (hPQ.resolve_left hP)).reaches_head (h.2 hP)
  · rw [not_or] at hPQ
    exact (h.2 hPQ.1).trans (h'.2 hPQ.2)

end Search

end Machine
