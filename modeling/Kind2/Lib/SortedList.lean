import Mathlib

/-!
# Subsets of strictly increasing lists

Facts about `⊆` between lists whose elements strictly increase, which is how sets are kept
as keys: comparing the heads of two such lists decides whether the head of one can occur in
the other. `StrictSorted l` is `l.Pairwise (· < ·)`.
-/

namespace SortedList

variable {κ : Type} [LinearOrder κ]

/-- The elements strictly increase. -/
abbrev StrictSorted (l : List κ) : Prop := l.Pairwise (· < ·)

section
variable {h k : κ} {r s : List κ}

/-- Every element of the tail lies above the head. -/
theorem lt_of_mem_tail (hs : StrictSorted (h :: r)) {x : κ} (hx : x ∈ r) : h < x :=
  List.rel_of_pairwise_cons hs hx

/-- An element below the head does not occur. -/
theorem not_mem_of_lt_head (hs : StrictSorted (h :: r)) (hk : k < h) : k ∉ h :: r := by
  intro hm
  rcases List.mem_cons.mp hm with rfl | hm
  · exact lt_irrefl _ hk
  · exact lt_asymm hk (lt_of_mem_tail hs hm)

/-- A list headed above `h` does not contain `h`. -/
theorem not_cons_subset_of_lt (hs : StrictSorted (k :: r)) (hk : h < k) : ¬ h :: s ⊆ k :: r :=
  fun hsub => not_mem_of_lt_head hs hk (hsub List.mem_cons_self)

/-- Skipping an element below the head of `h :: s` does not change containment. -/
theorem subset_cons_iff_of_lt (hs : StrictSorted (h :: s)) (hk : k < h) :
    h :: s ⊆ k :: r ↔ h :: s ⊆ r := by
  constructor
  · intro hsub x hx
    rcases List.mem_cons.mp (hsub hx) with rfl | hr
    · exact absurd hx (not_mem_of_lt_head hs hk)
    · exact hr
  · exact fun hsub => List.Subset.trans hsub (List.subset_cons_self _ _)

/-- Matching heads: containment is decided by the tails. -/
theorem cons_subset_cons_iff (hs : StrictSorted (h :: s)) : h :: s ⊆ h :: r ↔ s ⊆ r := by
  constructor
  · intro hsub x hx
    rcases List.mem_cons.mp (hsub (List.mem_cons_of_mem _ hx)) with rfl | hr
    · exact absurd (lt_of_mem_tail hs hx) (lt_irrefl _)
    · exact hr
  · intro hsub
    exact List.cons_subset_cons _ hsub

end

end SortedList
