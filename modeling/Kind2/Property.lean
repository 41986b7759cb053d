import Mathlib.Data.List.Perm.Basic
import Mathlib.Order.Lattice

/-!
# Property statuses and the order of status reports

`src/property.ml` keeps one mutable status per property. The engines report `PropKTrue k`,
`PropInvariant cert` and `PropFalse cex` messages, and every process applies them in the
order they arrive (`Event.update_trans_sys'`, `src/event.ml:1323`) through `set_prop_ktrue`,
`set_prop_invariant` and `set_prop_false`. Each of these checks the new report against the
current status only and raises `Failure` on a contradiction.

The model keeps the status as a value and the failure as `Except String`. The statuses are
generic in the state variables `σ`, the model values `ν` and the certificates `κ`, which
no function here inspects.

`Verdict` forgets the certificate and the counterexample's contents. On verdicts the three
updates are one join (`Verdict.join`), commutative and associative. `setPropStatus_verdict`
says one update computes that join when the report is consistent with the current status,
and `applyReports_verdict` lifts it to a whole run. `applyReports_perm` is the resulting
order independence. `applyReports_ktrue_false_order` shows that the check against the
current status alone makes two inconsistent reports order dependent.
-/

namespace Kind2

/-! ## Statuses and their updates -/

/-- The status of a property (`prop_status`, `src/property.ml:22`). A counterexample is a
list of state variables, each with its values along the path. -/
inductive PropStatus (σ ν κ : Type) where
  | propUnknown
  | propKTrue (k : Int)
  | propInvariant (cert : κ)
  | propFalse (cex : List (σ × List ν))
  deriving DecidableEq, Repr

namespace PropStatus

variable {σ ν κ : Type}

/-- The length of a counterexample: the number of values of its first state variable
(`length_of_cex`, `src/property.ml:89`). -/
def lengthOfCex : List (σ × List ν) → Nat
  | [] => 0
  | (_, l) :: _ => l.length

/-- `set_prop_invariant` (`src/property.ml:172`). -/
def setPropInvariant (cert : κ) : PropStatus σ ν κ → Except String (PropStatus σ ν κ)
  | .propKTrue _ | .propInvariant _ | .propUnknown => .ok (.propInvariant cert)
  | .propFalse _ => .error "set_prop_invariant"

/-- `set_prop_false` (`src/property.ml:191`). A `k`-true status is compared with the new
counterexample by `l > length_of_cex cex`. -/
def setPropFalse (cex : List (σ × List ν)) : PropStatus σ ν κ → Except String (PropStatus σ ν κ)
  | .propUnknown => .ok (.propFalse cex)
  | .propInvariant _ => .error "prop_false"
  | .propKTrue l =>
    if l > (lengthOfCex cex : Int) then
      .error ("set_prop_false: was " ++ toString l ++ "-true before, now cex of length " ++
        toString (lengthOfCex cex))
    else .ok (.propFalse cex)
  | .propFalse cex' =>
    if lengthOfCex cex' ≤ lengthOfCex cex then .ok (.propFalse cex') else .ok (.propFalse cex)

/-- `set_prop_ktrue` (`src/property.ml:230`). A false status is compared with the new bound
by `length_of_cex cex > k`. -/
def setPropKtrue (k : Int) : PropStatus σ ν κ → Except String (PropStatus σ ν κ)
  | .propUnknown => .ok (.propKTrue k)
  | .propKTrue l => if l > k then .ok (.propKTrue l) else .ok (.propKTrue k)
  | .propInvariant c => .ok (.propInvariant c)
  | .propFalse cex =>
    if (lengthOfCex cex : Int) > k then .ok (.propFalse cex) else .error "set_prop_ktrue"

/-- `set_prop_status` (`src/property.ml:259`): apply one status report to the current
status. An unknown report leaves the status as it is. -/
def setPropStatus (s : PropStatus σ ν κ) : PropStatus σ ν κ → Except String (PropStatus σ ν κ)
  | .propUnknown => .ok s
  | .propKTrue k => setPropKtrue k s
  | .propInvariant cert => setPropInvariant cert s
  | .propFalse cex => setPropFalse cex s

/-- A process applies the reports of one property in the order they arrive, stopping at
the first `Failure` (`update_trans_sys'`, `src/event.ml:1323`). -/
def applyReports (s : PropStatus σ ν κ) (rs : List (PropStatus σ ν κ)) :
    Except String (PropStatus σ ν κ) :=
  rs.foldlM setPropStatus s

@[simp] theorem applyReports_nil (s : PropStatus σ ν κ) : applyReports s [] = .ok s := rfl

theorem applyReports_cons (s r : PropStatus σ ν κ) (rs : List (PropStatus σ ν κ)) :
    applyReports s (r :: rs) = (setPropStatus s r).bind (applyReports · rs) := rfl

end PropStatus

/-! ## Verdicts

What a status says about the property once its certificate and the contents of its
counterexample are forgotten. -/

/-- A status up to its certificate and the contents of its counterexample. -/
inductive Verdict where
  | unknown
  | kTrue (k : Int)
  | invariant
  | falseAt (n : Nat)
  deriving DecidableEq, Repr

namespace Verdict

/-- The verdict reached from two sets of reports: a counterexample wins and the shortest
one is kept, then invariance, then the largest `k`. -/
def join : Verdict → Verdict → Verdict
  | unknown, v | v, unknown => v
  | falseAt m, falseAt n => falseAt (min m n)
  | falseAt m, _ | _, falseAt m => falseAt m
  | invariant, _ | _, invariant => invariant
  | kTrue k, kTrue l => kTrue (max k l)

/-- Two verdicts that can hold of one property at once: invariance excludes any
counterexample, and a bound `k` is below the length of every counterexample. -/
def Consistent : Verdict → Verdict → Prop
  | invariant, falseAt _ | falseAt _, invariant => False
  | kTrue k, falseAt n | falseAt n, kTrue k => k < n
  | _, _ => True

instance : DecidableRel Consistent := fun a b => by
  cases a <;> cases b <;> unfold Consistent <;> infer_instance

theorem join_comm (a b : Verdict) : a.join b = b.join a := by
  cases a <;> cases b <;> simp [join, min_comm, max_comm]

theorem join_assoc (a b c : Verdict) : (a.join b).join c = a.join (b.join c) := by
  cases a <;> cases b <;> cases c <;> simp [join, min_assoc, max_assoc]

@[simp] theorem unknown_join (a : Verdict) : unknown.join a = a := by cases a <;> rfl

theorem consistent_comm {a b : Verdict} (h : Consistent a b) : Consistent b a := by
  cases a <;> cases b <;> simp_all [Consistent]

/-- A verdict consistent with a third verdict stays so when joined with another one
consistent with it: the join keeps one of them, or the larger bound, or the shorter
counterexample. -/
theorem consistent_join {a b c : Verdict} (ha : Consistent a c) (hb : Consistent b c) :
    Consistent (a.join b) c := by
  cases a <;> cases b <;> cases c <;> simp only [join, Consistent] at * <;> omega

end Verdict

namespace PropStatus

variable {σ ν κ : Type}

/-- The verdict of a status. -/
def verdict : PropStatus σ ν κ → Verdict
  | .propUnknown => .unknown
  | .propKTrue k => .kTrue k
  | .propInvariant _ => .invariant
  | .propFalse cex => .falseAt (lengthOfCex cex)

/-- Two statuses, or a status and a report, that can hold of one property at once. -/
def Consistent (s r : PropStatus σ ν κ) : Prop := Verdict.Consistent s.verdict r.verdict

instance : DecidableRel (Consistent (σ := σ) (ν := ν) (κ := κ)) := fun s r =>
  inferInstanceAs (Decidable (Verdict.Consistent s.verdict r.verdict))

theorem Consistent.symm {s r : PropStatus σ ν κ} (h : Consistent s r) : Consistent r s :=
  Verdict.consistent_comm h

/-! ## One update -/

/-- A report consistent with the current status is accepted, and the new status has the
join of the two verdicts. This is where the boundary conditions of `set_prop_false` and
`set_prop_ktrue` are read: consistency puts the bound strictly below the length. -/
theorem setPropStatus_verdict {s r : PropStatus σ ν κ} (h : Consistent s r) :
    ∃ t, setPropStatus s r = .ok t ∧ t.verdict = s.verdict.join r.verdict := by
  unfold Consistent at h
  cases r with
  | propUnknown => exact ⟨s, rfl, by cases s <;> rfl⟩
  | propKTrue k =>
    cases s with
    | propUnknown => exact ⟨_, rfl, rfl⟩
    | propKTrue l =>
      by_cases hlk : l > k
      · exact ⟨_, if_pos hlk, by simp [verdict, Verdict.join]; omega⟩
      · exact ⟨_, if_neg hlk, by simp [verdict, Verdict.join]; omega⟩
    | propInvariant c => exact ⟨_, rfl, rfl⟩
    | propFalse cex =>
      have hk : (lengthOfCex cex : Int) > k := by simpa [verdict, Verdict.Consistent] using h
      exact ⟨_, if_pos hk, rfl⟩
  | propInvariant cert =>
    cases s with
    | propFalse cex => simp [verdict, Verdict.Consistent] at h
    | _ => exact ⟨_, rfl, rfl⟩
  | propFalse cex =>
    cases s with
    | propUnknown => exact ⟨_, rfl, rfl⟩
    | propKTrue l =>
      have hl : ¬ l > (lengthOfCex cex : Int) := by
        simp only [verdict, Verdict.Consistent] at h; omega
      exact ⟨_, if_neg hl, rfl⟩
    | propInvariant c => simp [verdict, Verdict.Consistent] at h
    | propFalse cex' =>
      by_cases hle : lengthOfCex cex' ≤ lengthOfCex cex
      · exact ⟨_, if_pos hle, by simp [verdict, Verdict.join, hle]⟩
      · exact ⟨_, if_neg hle, by simp [verdict, Verdict.join]; omega⟩

/-! ## Whole runs -/

/-- A run over reports that are pairwise consistent with each other and with the initial
status raises no `Failure`, and ends in the join of all their verdicts. The invariant is
that the current verdict, a join of verdicts each consistent with every remaining report,
stays consistent with them (`Verdict.consistent_join`). -/
theorem applyReports_verdict :
    ∀ (rs : List (PropStatus σ ν κ)) (s : PropStatus σ ν κ), (s :: rs).Pairwise Consistent →
      ∃ t, applyReports s rs = .ok t ∧
        t.verdict = (rs.map verdict).foldl Verdict.join s.verdict
  | [], s, _ => ⟨s, rfl, rfl⟩
  | r :: rs, s, h => by
    obtain ⟨hs, hrs⟩ := List.pairwise_cons.mp h
    obtain ⟨t, ht, htv⟩ := setPropStatus_verdict (hs r (List.mem_cons_self ..))
    have htc : (t :: rs).Pairwise Consistent := by
      refine List.pairwise_cons.mpr ⟨fun r' hr' => ?_, (List.pairwise_cons.mp hrs).2⟩
      unfold Consistent
      rw [htv]
      exact Verdict.consistent_join (hs r' (List.mem_cons_of_mem _ hr'))
        ((List.pairwise_cons.mp hrs).1 r' hr')
    obtain ⟨u, hu, huv⟩ := applyReports_verdict rs t htc
    refine ⟨u, by rw [applyReports_cons, ht]; exact hu, ?_⟩
    rw [huv, htv]
    rfl

/-- The join of a list of verdicts does not depend on their order. -/
theorem foldl_join_perm {vs vs' : List Verdict} (h : vs.Perm vs') (v : Verdict) :
    vs.foldl Verdict.join v = vs'.foldl Verdict.join v := by
  apply h.foldl_eq'
  intro a _ b _ c
  rw [Verdict.join_assoc, Verdict.join_comm a b, ← Verdict.join_assoc]

theorem applyReports_perm (s : PropStatus σ ν κ) {rs rs' : List (PropStatus σ ν κ)}
    (hperm : rs.Perm rs') (hcons : (s :: rs).Pairwise Consistent) :
    ∃ t t', applyReports s rs = .ok t ∧ applyReports s rs' = .ok t' ∧
      t.verdict = t'.verdict := by
  have hcons' : (s :: rs').Pairwise Consistent :=
    (List.Perm.cons s hperm).pairwise_iff (fun h => h.symm) |>.mp hcons
  obtain ⟨t, ht, htv⟩ := applyReports_verdict rs s hcons
  obtain ⟨t', ht', htv'⟩ := applyReports_verdict rs' s hcons'
  exact ⟨t, t', ht, ht', by rw [htv, htv', foldl_join_perm (hperm.map verdict)]⟩

/-- A 1-true report and a counterexample of length 3 reach an unknown property in either
order. -/
theorem applyReports_perm_ktrue_false :
    [.propKTrue 1, .propFalse [((), [(), (), ()])]].Perm
        [.propFalse [((), [(), (), ()])], (.propKTrue 1 : PropStatus Unit Unit Unit)] ∧
      ((.propUnknown : PropStatus Unit Unit Unit) ::
        [.propKTrue 1, .propFalse [((), [(), (), ()])]]).Pairwise Consistent ∧
      ∃ t t' : PropStatus Unit Unit Unit,
        applyReports .propUnknown [.propKTrue 1, .propFalse [((), [(), (), ()])]] = .ok t ∧
        applyReports .propUnknown [.propFalse [((), [(), (), ()])], .propKTrue 1] = .ok t' ∧
        t.verdict = t'.verdict :=
  ⟨List.Perm.swap _ _ _, by decide,
    applyReports_perm .propUnknown (List.Perm.swap _ _ _) (by decide)⟩

/-- The updates compare a report with the current status only. A property false with a
counterexample of length 2 accepts a 1-true report (the stored counterexample is longer)
and then a counterexample of length 1. In the other order the length-1 counterexample is
stored first, and the 1-true report then fails against it. -/
theorem applyReports_ktrue_false_order :
    applyReports (.propFalse [((), [(), ()])] : PropStatus Unit Unit Unit)
        [.propKTrue 1, .propFalse [((), [()])]] = .ok (.propFalse [((), [()])]) ∧
      applyReports (.propFalse [((), [(), ()])] : PropStatus Unit Unit Unit)
        [.propFalse [((), [()])], .propKTrue 1] = .error "set_prop_ktrue" :=
  ⟨rfl, rfl⟩

end PropStatus

end Kind2
