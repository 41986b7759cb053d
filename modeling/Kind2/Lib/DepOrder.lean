import Mathlib

/-!
# Lists in dependency order, and lists grouped by keys

A list is in dependency order for a relation `dep` when each element occurs once and every element
it depends on comes after it (`DepOrdered`). This is the list a walk builds when it puts an element
in front once everything the element depends on is in the list; `DepOrdered.after` states the order
at every position of the list, and `DepOrdered.mono` carries it to a relation that the elements of
the list satisfy only where `dep` does.

Grouping a list by a list of keys, each key replaced by the elements with that key, is a permutation
of the list when the keys are distinct and cover every element (`perm_flatMap_filter`). An element
of `A ++ B` that does not occur in `A` comes after every element of `A`
(`mem_left_of_append_eq_append_cons`).
-/

namespace DepOrder

variable {α : Type}

section Ordered

variable (dep : α → α → Prop)

/-- Each element occurs once, and every element it depends on comes after it. -/
def DepOrdered : List α → Prop
  | [] => True
  | x :: l => x ∉ l ∧ (∀ y, dep x y → y ∈ l) ∧ DepOrdered l

variable {dep}

theorem DepOrdered.nodup : ∀ {l : List α}, DepOrdered dep l → l.Nodup
  | [], _ => .nil
  | _ :: _, ⟨hx, _, hl⟩ => List.nodup_cons.2 ⟨hx, hl.nodup⟩

/-- At every position, what the element there depends on comes after it. -/
theorem DepOrdered.after : ∀ {l : List α}, DepOrdered dep l →
    ∀ l₁ x l₂, l = l₁ ++ x :: l₂ → ∀ y, dep x y → y ∈ l₂
  | [], _, l₁, _, _, h => by simp at h
  | _ :: _, ⟨_, hz, _⟩, [], _, _, h => by
    simp only [List.nil_append, List.cons.injEq] at h
    obtain ⟨rfl, rfl⟩ := h
    exact hz
  | _ :: _, ⟨_, _, hl⟩, _ :: l₁, x, l₂, h => by
    simp only [List.cons_append, List.cons.injEq] at h
    exact hl.after l₁ x l₂ h.2

/-- A dependency order for `dep` is one for every relation that relates, from the elements of the
list, only what `dep` relates. -/
theorem DepOrdered.mono {dep' : α → α → Prop} : ∀ {l : List α}, DepOrdered dep l →
    (∀ x ∈ l, ∀ y, dep' x y → dep x y) → DepOrdered dep' l
  | [], _, _ => trivial
  | x :: _, ⟨hx, hdep, hl⟩, h =>
    ⟨hx, fun y hy => hdep y (h x List.mem_cons_self y hy),
      hl.mono fun z hz => h z (List.mem_cons_of_mem _ hz)⟩

end Ordered

section Grouping

variable {κ : Type} [DecidableEq κ] (key : α → κ)

/-- A list grouped by distinct keys that cover its elements is a permutation of it. By induction
on the keys: the first group and the elements with the other keys make up the list. -/
theorem perm_flatMap_filter : ∀ {ks : List κ}, ks.Nodup → ∀ {l : List α}, (∀ a ∈ l, key a ∈ ks) →
    (ks.flatMap fun k => l.filter fun a => key a = k).Perm l
  | [], _, [], _ => by simp
  | [], _, a :: _, hl => absurd (hl a List.mem_cons_self) List.not_mem_nil
  | k :: ks, hks, l, hl => by
    obtain ⟨hk, hks⟩ := List.nodup_cons.1 hks
    -- the other keys see only the elements whose key is not `k`
    have hrest : (ks.flatMap fun k' => l.filter fun a => key a = k') =
        ks.flatMap fun k' => (l.filter fun a => !decide (key a = k)).filter fun a => key a = k' := by
      refine List.flatMap_congr fun k' hk' => ?_
      rw [List.filter_filter]
      refine List.filter_congr fun a _ => ?_
      by_cases ha : key a = k'
      · have hne : k' ≠ k := fun h => hk (h ▸ hk')
        simp [ha, hne]
      · simp [ha]
    have hcover : ∀ a ∈ l.filter (fun a => !decide (key a = k)), key a ∈ ks := by
      intro a ha
      obtain ⟨hal, hne⟩ := List.mem_filter.1 ha
      rcases List.mem_cons.1 (hl a hal) with h | h
      · simp [h] at hne
      · exact h
    rw [List.flatMap_cons, hrest]
    exact ((perm_flatMap_filter hks hcover).append_left _).trans (List.filter_append_perm _ l)

end Grouping

/-- An element of `A ++ B` that does not occur in `A` comes after every element of `A`. -/
theorem mem_left_of_append_eq_append_cons {A B r₁ r₂ : List α} {a : α}
    (h : A ++ B = r₁ ++ a :: r₂) (ha : a ∉ A) : ∀ b ∈ A, b ∈ r₁ := by
  rcases List.append_eq_append_iff.1 h with ⟨as, hr₁, -⟩ | ⟨bs, hA, hbs⟩
  · intro b hb
    rw [hr₁]
    exact List.mem_append_left _ hb
  · cases bs with
    | nil =>
      intro b hb
      rwa [hA, List.append_nil] at hb
    | cons c bs =>
      -- then `a` is the element `c` of `A`
      simp only [List.cons_append, List.cons.injEq] at hbs
      obtain ⟨rfl, -⟩ := hbs
      exact absurd (hA ▸ List.mem_append_right _ List.mem_cons_self) ha

end DepOrder
