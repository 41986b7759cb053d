import Mathlib

/-!
# Model-based projection

A procedure that eliminates the variables `elim` from a formula `φ` with the help of a model
`M` of `φ` returns a formula `ψ` that `M` still satisfies and that under-approximates the
projection of `φ`: every assignment that satisfies `ψ` satisfies `φ` after it is changed on the
variables of `elim` only. The formulas and their satisfaction relation `Sat` are parameters.

`UnderApprox` is the second condition. It is reflexive, it holds between formulas with the same
models, it composes along a sequence of eliminations, and it follows for one variable from a
choice of its value (`UnderApprox.of_update`).
-/

namespace Projection

variable {V α F : Type} (Sat : (V → α) → F → Prop)

/-- Every model of `ψ` is a model of `φ` once it is changed on the variables of `elim` only. -/
def UnderApprox (elim : List V) (φ ψ : F) : Prop :=
  ∀ N, Sat N ψ → ∃ N', (∀ x, x ∉ elim → N' x = N x) ∧ Sat N' φ

variable {Sat}

theorem UnderApprox.of_imp {elim : List V} {φ ψ : F} (h : ∀ N, Sat N ψ → Sat N φ) :
    UnderApprox Sat elim φ ψ :=
  fun N hN => ⟨N, fun _ _ => rfl, h N hN⟩

theorem UnderApprox.refl (elim : List V) (φ : F) : UnderApprox Sat elim φ φ :=
  UnderApprox.of_imp fun _ h => h

/-- A formula with fewer models under-approximates less. -/
theorem UnderApprox.mono_left {elim : List V} {φ φ' ψ : F} (h : ∀ N, Sat N φ' → Sat N φ)
    (h' : UnderApprox Sat elim φ' ψ) : UnderApprox Sat elim φ ψ := by
  intro N hN
  obtain ⟨N', hN', hφ'⟩ := h' N hN
  exact ⟨N', hN', h N' hφ'⟩

/-- Eliminating `l₁` and then `l₂` eliminates `l₁ ++ l₂`. -/
theorem UnderApprox.trans {l₁ l₂ : List V} {φ ψ χ : F} (h₁ : UnderApprox Sat l₁ φ ψ)
    (h₂ : UnderApprox Sat l₂ ψ χ) : UnderApprox Sat (l₁ ++ l₂) φ χ := by
  intro N hN
  obtain ⟨N₁, hN₁, hψ⟩ := h₂ N hN
  obtain ⟨N₂, hN₂, hφ⟩ := h₁ N₁ hψ
  refine ⟨N₂, fun x hx => ?_, hφ⟩
  have hx₁ : x ∉ l₁ := fun h => hx (List.mem_append_left _ h)
  have hx₂ : x ∉ l₂ := fun h => hx (List.mem_append_right _ h)
  rw [hN₂ x hx₁, hN₁ x hx₂]

/-- To eliminate one variable it is enough to choose its value. -/
theorem UnderApprox.of_update [DecidableEq V] {v : V} {φ ψ : F}
    (h : ∀ N, Sat N ψ → ∃ w, Sat (Function.update N v w) φ) : UnderApprox Sat [v] φ ψ := by
  intro N hN
  obtain ⟨w, hw⟩ := h N hN
  refine ⟨Function.update N v w, fun x hx => ?_, hw⟩
  exact Function.update_of_ne (fun hxv => hx (List.mem_singleton.2 hxv)) w N

end Projection
