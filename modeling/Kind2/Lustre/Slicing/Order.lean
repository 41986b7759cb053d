import Kind2.Lustre.Slicing
import Kind2.Lib.DepOrder

/-!
# The topological order of `order_state_vars`

`order_state_vars accum seen stack` (`src/lustre/lustreSlicing.ml:465`) sorts the state variables
of a dependency list, each given with the state variables it depends on, by a depth-first walk over
an explicit stack. A variable is sorted once the variables it depends on are; otherwise the entries
of those variables, found further down the stack, are pushed above its own. `seen` holds the
variables whose dependencies were pushed since the last one was sorted, and a variable met again
while seen is sorted at once: this ends the walk on a cycle.

The source asks for no cycle and for the entry of each dependency further down the stack
(`assert false` otherwise). Both hold of a list in which every dependency of an entry has an entry
further down (`DepsBelow`) and the entries of one variable list the same dependencies (`SameDeps`),
as `node_state_var_dependencies'` builds it: `lastRank`, the number of entries after the last entry
of a variable, then decreases along every dependency (`lastRank_lt`). On such a list the walk sorts
every variable of the list once, each in front of all it depends on. `OrderInv` is what the walk
keeps, `orderStep_spec` says that one step keeps it and lowers `orderMeasure`, and
`Machine.run_of_variant` gives the whole run (`orderStateVars_spec`).

`order_equations` then lists the equations of the sorted variables (`collectEquations`): each
equation once, after the equations of every variable its own variable depends on.
-/

namespace Kind2
namespace Slicing

open DepOrder

variable {SV : Type} {L : Lang SV}

/-! ## Dependency lists without cycles -/

/-- Every dependency of an entry has an entry further down the list. -/
def DepsBelow : List (SV × Deps L) → Prop
  | [] => True
  | e :: l => (∀ b ∈ e.2, ∃ e' ∈ l, e'.1 = b.1) ∧ DepsBelow l

/-- The entries of one state variable list the same state variables. -/
def SameDeps (deps : List (SV × Deps L)) : Prop :=
  ∀ e ∈ deps, ∀ e' ∈ deps, e.1 = e'.1 → ∀ b ∈ e.2, ∃ b' ∈ e'.2, b'.1 = b.1

/-- `x` depends on `y` in `deps`: an entry of `x` lists `y`. -/
def DependsOn (deps : List (SV × Deps L)) (x y : SV) : Prop :=
  ∃ d, (x, d) ∈ deps ∧ ∃ b ∈ d, b.1 = y

theorem DepsBelow.mid : ∀ {l₁ : List (SV × Deps L)} {e : SV × Deps L} {l₂ : List (SV × Deps L)},
    DepsBelow (l₁ ++ e :: l₂) → ∀ b ∈ e.2, ∃ e' ∈ l₂, e'.1 = b.1
  | [], _, _, h => h.1
  | _ :: _, _, _, h => DepsBelow.mid h.2

/-- The variable of every dependency has an entry. -/
theorem DepsBelow.key_mem {deps : List (SV × Deps L)} (h : DepsBelow deps) {e : SV × Deps L}
    (he : e ∈ deps) {b : SV × List (List L.iexpr)} (hb : b ∈ e.2) : b.1 ∈ deps.map Prod.fst := by
  obtain ⟨l₁, l₂, rfl⟩ := List.append_of_mem he
  obtain ⟨e', he', hk⟩ := h.mid b hb
  exact List.mem_map.2 ⟨e', by simp [he'], hk⟩

theorem SameDeps.tail {e : SV × Deps L} {l : List (SV × Deps L)} (h : SameDeps (e :: l)) :
    SameDeps l :=
  fun a ha a' ha' => h a (List.mem_cons_of_mem _ ha) a' (List.mem_cons_of_mem _ ha')

/-! ## The stack of the walk -/

section Stack

variable (deps : List (SV × Deps L))

/-- The stack is a suffix `bottom` of `deps`, whose prefix is sorted already, under copies of
entries of `bottom`. -/
def StackOK (accum : List SV) (stack : List (SV × Deps L)) : Prop :=
  ∃ pre bottom top, deps = pre ++ bottom ∧ (∀ e ∈ pre, e.1 ∈ accum) ∧ stack = top ++ bottom ∧
    ∀ e ∈ top, e ∈ bottom

variable {deps}

theorem StackOK.mem {accum : List SV} {stack : List (SV × Deps L)}
    (hs : StackOK deps accum stack) {e : SV × Deps L} (he : e ∈ stack) : e ∈ deps := by
  obtain ⟨pre, bottom, top, rfl, -, rfl, htop⟩ := hs
  rcases List.mem_append.1 he with he | he
  · exact List.mem_append_right _ (htop e he)
  · exact List.mem_append_right _ he

/-- On an empty stack every variable of `deps` is sorted. -/
theorem StackOK.covers {accum : List SV} (hs : StackOK deps accum []) :
    ∀ x ∈ deps.map Prod.fst, x ∈ accum := by
  obtain ⟨pre, bottom, top, rfl, hpre, hstack, -⟩ := hs
  obtain ⟨-, rfl⟩ := List.append_eq_nil_iff.1 hstack.symm
  intro x hx
  obtain ⟨e, he, rfl⟩ := List.mem_map.1 hx
  exact hpre e (by simpa using he)

/-- The dependencies of the entry on top have entries further down the stack. -/
theorem StackOK.below (hbelow : DepsBelow deps) {accum : List SV} {h : SV} {d : Deps L}
    {tl : List (SV × Deps L)} (hs : StackOK deps accum ((h, d) :: tl)) :
    ∀ b ∈ d, ∃ e ∈ tl, e.1 = b.1 := by
  obtain ⟨pre, bottom, top, rfl, -, hstack, htop⟩ := hs
  cases top with
  | nil =>
    -- the entry on top is the first of `bottom`
    simp only [List.nil_append] at hstack
    subst hstack
    exact hbelow.mid
  | cons t top =>
    simp only [List.cons_append, List.cons.injEq] at hstack
    obtain ⟨rfl, rfl⟩ := hstack
    obtain ⟨b₁, b₂, rfl⟩ := List.append_of_mem (htop _ List.mem_cons_self)
    rw [← List.append_assoc] at hbelow
    intro b hb
    obtain ⟨e, he, hk⟩ := hbelow.mid b hb
    exact ⟨e, by simp [he], hk⟩

/-- The entry on top leaves the stack once its variable is sorted. -/
theorem StackOK.pop {accum accum' : List SV} {h : SV} {d : Deps L} {tl : List (SV × Deps L)}
    (hs : StackOK deps accum ((h, d) :: tl)) (hsub : ∀ x ∈ accum, x ∈ accum')
    (hh : h ∈ accum') : StackOK deps accum' tl := by
  obtain ⟨pre, bottom, top, rfl, hpre, hstack, htop⟩ := hs
  cases top with
  | nil =>
    simp only [List.nil_append] at hstack
    subst hstack
    refine ⟨pre ++ [(h, d)], tl, [], by simp, fun e he => ?_, rfl, by simp⟩
    rcases List.mem_append.1 he with he | he
    · exact hsub _ (hpre e he)
    · rw [List.mem_singleton.1 he]
      exact hh
  | cons t top =>
    simp only [List.cons_append, List.cons.injEq] at hstack
    obtain ⟨rfl, rfl⟩ := hstack
    exact ⟨pre, bottom, top, rfl, fun e he => hsub _ (hpre e he), rfl,
      fun e he => htop e (List.mem_cons_of_mem _ he)⟩

/-- Copies of entries further down go on top of the stack. -/
theorem StackOK.push {accum : List SV} {h : SV} {d : Deps L} {tl copies : List (SV × Deps L)}
    (hs : StackOK deps accum ((h, d) :: tl)) (hc : ∀ e ∈ copies, e ∈ tl) :
    StackOK deps accum (copies ++ (h, d) :: tl) := by
  obtain ⟨pre, bottom, top, rfl, hpre, hstack, htop⟩ := hs
  cases top with
  | nil =>
    simp only [List.nil_append] at hstack
    subst hstack
    exact ⟨pre, (h, d) :: tl, copies, rfl, hpre, rfl, fun e he => List.mem_cons_of_mem _ (hc e he)⟩
  | cons t top =>
    simp only [List.cons_append, List.cons.injEq] at hstack
    obtain ⟨rfl, rfl⟩ := hstack
    refine ⟨pre, bottom, copies ++ (h, d) :: top, rfl, hpre, by simp, fun e he => ?_⟩
    rcases List.mem_append.1 he with he | he
    · rcases List.mem_append.1 (hc e he) with he | he
      · exact htop e (List.mem_cons_of_mem _ he)
      · exact he
    · exact htop e he

end Stack

variable [LinearOrder SV]

/-- The number of entries after the last entry of `x`. -/
def lastRank (x : SV) : List (SV × Deps L) → Nat
  | [] => 0
  | _ :: l => if x ∈ l.map Prod.fst then lastRank x l else l.length

theorem lastRank_lt_length {x : SV} :
    ∀ {l : List (SV × Deps L)}, x ∈ l.map Prod.fst → lastRank x l < l.length
  | [], hx => absurd hx List.not_mem_nil
  | _ :: l, _ => by
    rw [lastRank]
    split
    · exact Nat.lt_succ_of_lt (lastRank_lt_length ‹_›)
    · exact Nat.lt_succ_self _

/-- A state variable ranks above every variable it depends on, so the list has no cycle. By
induction on the list: the last entry of `x` has its dependencies further down, and an earlier
entry lists the same ones. -/
theorem lastRank_lt : ∀ {deps : List (SV × Deps L)}, DepsBelow deps → SameDeps deps →
    ∀ {x : SV} {d : Deps L}, (x, d) ∈ deps → ∀ b ∈ d, lastRank b.1 deps < lastRank x deps
  | [], _, _, _, _, hx, _, _ => absurd hx List.not_mem_nil
  | e :: l, hbelow, hsame, x, d, hx, b, hb => by
    by_cases hxl : x ∈ l.map Prod.fst
    · -- a later entry of `x` lists the same dependencies
      obtain ⟨⟨x', d'⟩, hd', hx'⟩ := List.mem_map.1 hxl
      simp only at hx'
      subst hx'
      obtain ⟨b', hb', hbb⟩ := hsame _ hx _ (List.mem_cons_of_mem _ hd') rfl b hb
      have hlt := lastRank_lt hbelow.2 hsame.tail hd' b' hb'
      have hbl : b.1 ∈ l.map Prod.fst := hbb ▸ hbelow.2.key_mem hd' hb'
      rw [lastRank, lastRank, if_pos hbl, if_pos hxl, ← hbb]
      exact hlt
    · -- the entry is the last one of `x`
      have he : e = (x, d) := by
        rcases List.mem_cons.1 hx with h | h
        · exact h.symm
        · exact absurd (List.mem_map_of_mem (f := Prod.fst) h) hxl
      subst he
      obtain ⟨e', he', hk⟩ := hbelow.1 b hb
      have hbl : b.1 ∈ l.map Prod.fst := List.mem_map.2 ⟨e', he', hk⟩
      rw [lastRank, lastRank, if_pos hbl, if_neg hxl]
      exact lastRank_lt_length hbl

/-! ## The steps of the walk -/

/-- A variable sorted already: its entry leaves the stack. -/
theorem orderStep_sorted {accum seen : List SV} {h : SV} {d : Deps L} {tl : List (SV × Deps L)}
    (hh : h ∈ accum) : orderStep L ⟨accum, seen, (h, d) :: tl⟩ = .next ⟨accum, seen, tl⟩ := by
  simp [orderStep, hh]

/-- A variable whose dependencies are sorted, or met again while seen, is sorted. -/
theorem orderStep_add {accum seen : List SV} {h : SV} {d : Deps L} {tl : List (SV × Deps L)}
    (hh : h ∉ accum) (hd : (∀ b ∈ d, b.1 ∈ accum) ∨ h ∈ seen) :
    orderStep L ⟨accum, seen, (h, d) :: tl⟩ = .next ⟨h :: accum, [], tl⟩ := by
  have hn : ¬ accum.contains h = true := fun hc => hh (List.contains_iff_mem.1 hc)
  have hc : (d.all (fun b => accum.contains b.1) || seen.contains h) = true := by
    rcases hd with hd | hd
    · exact Bool.or_eq_true_iff.2 (.inl (List.all_eq_true.2 fun b hb =>
        List.contains_iff_mem.2 (hd b hb)))
    · exact Bool.or_eq_true_iff.2 (.inr (List.contains_iff_mem.2 hd))
  rw [orderStep, if_neg hn, if_pos hc]

/-- Otherwise the entries of its dependencies go on top of its own. -/
theorem orderStep_push {accum seen : List SV} {h : SV} {d : Deps L} {tl tl' : List (SV × Deps L)}
    (hh : h ∉ accum) (hd : ¬ ∀ b ∈ d, b.1 ∈ accum) (hs : h ∉ seen)
    (hf : d.foldlM (fun a b => (tl.find? fun e => decide (e.1 = b.1)).map (· :: a))
      ((h, d) :: tl) = some tl') :
    orderStep L ⟨accum, seen, (h, d) :: tl⟩ = .next ⟨accum, h :: seen, tl'⟩ := by
  have hn : ¬ accum.contains h = true := fun hc => hh (List.contains_iff_mem.1 hc)
  have hc : ¬ (d.all (fun b => accum.contains b.1) || seen.contains h) = true := by
    rw [Bool.or_eq_true_iff, not_or]
    exact ⟨fun ha => hd fun b hb => List.contains_iff_mem.1 (List.all_eq_true.1 ha b hb),
      fun hs' => hs (List.contains_iff_mem.1 hs')⟩
  rw [orderStep, if_neg hn, if_neg hc, hf]

/-- Pushing the dependencies of an entry whose dependencies have entries further down: the first
entry found for each dependency goes on top, in the order of the dependencies. -/
theorem foldlM_find_eq_some {tl : List (SV × Deps L)} :
    ∀ (d : Deps L) (init : List (SV × Deps L)), (∀ b ∈ d, ∃ e ∈ tl, e.1 = b.1) →
      ∃ copies, d.foldlM (fun a b => (tl.find? fun e => decide (e.1 = b.1)).map (· :: a)) init =
          some (copies ++ init) ∧ (∀ e ∈ copies, e ∈ tl ∧ ∃ b ∈ d, b.1 = e.1) ∧
          ∀ b ∈ d, ∃ e ∈ copies, e.1 = b.1
  | [], init, _ => ⟨[], rfl, by simp, by simp⟩
  | b :: d, init, h => by
    obtain ⟨e, he⟩ : ∃ e, tl.find? (fun e => decide (e.1 = b.1)) = some e :=
      Option.isSome_iff_exists.1 (List.find?_isSome.2 (by simpa using h b List.mem_cons_self))
    have hek : e.1 = b.1 := by simpa using List.find?_some he
    obtain ⟨copies, hfold, hcopies, hall⟩ :=
      foldlM_find_eq_some d (e :: init) fun b' hb' => h b' (List.mem_cons_of_mem _ hb')
    refine ⟨copies ++ [e], by simp [he, hfold], fun e' he' => ?_, fun b' hb' => ?_⟩
    · rcases List.mem_append.1 he' with he' | he'
      · obtain ⟨hmem, b'', hb'', hk⟩ := hcopies e' he'
        exact ⟨hmem, b'', List.mem_cons_of_mem _ hb'', hk⟩
      · rw [List.mem_singleton.1 he']
        exact ⟨List.mem_of_find?_eq_some he, b, List.mem_cons_self, hek.symm⟩
    · rcases List.mem_cons.1 hb' with rfl | hb'
      · exact ⟨e, by simp, hek⟩
      · obtain ⟨e', he', hk⟩ := hall b' hb'
        exact ⟨e', List.mem_append_left _ he', hk⟩

/-! ## What the walk keeps -/

section Walk

variable (deps : List (SV × Deps L))

/-- The variables seen since the last one was sorted. The dependencies of the latest one, `s`, were
pushed above its entry, and each is sorted or still above it; the variables seen before `s` rank
above it. -/
def SeenOK (accum : List SV) : List SV → List (SV × Deps L) → Prop
  | [], _ => True
  | s :: rest, stack => ∃ d Q R, stack = Q ++ (s, d) :: R ∧ (s, d) ∈ deps ∧ s ∉ accum ∧
      (∀ e ∈ Q, ∃ b ∈ d, b.1 = e.1) ∧ (∀ b ∈ d, b.1 ∈ accum ∨ ∃ e ∈ Q, e.1 = b.1) ∧
      ∀ s' ∈ rest, lastRank s deps < lastRank s' deps

/-- What a run of `order_state_vars` from `deps` keeps: the sorted variables are variables of
`deps` in dependency order, and the stack and the variables seen are as above. -/
structure OrderInv (σ : OrderState L) : Prop where
  ordered : DepOrdered (DependsOn deps) σ.accum
  keys : ∀ x ∈ σ.accum, x ∈ deps.map Prod.fst
  stack : StackOK deps σ.accum σ.stack
  seen : SeenOK deps σ.accum σ.seen σ.stack

/-- The rank of the latest variable seen, above every rank when there is none. -/
def headRank : List SV → Nat
  | [] => deps.length
  | s :: _ => lastRank s deps

/-- What every step of the walk lowers: the number of variables left to sort, the rank of the
latest variable seen, and the height of the stack. -/
def orderMeasure (σ : OrderState L) : Nat × Nat × Nat :=
  (deps.length - σ.accum.length, headRank deps σ.seen, σ.stack.length)

/-- The lexicographic order of `orderMeasure`. -/
def OrderLt (σ' σ : OrderState L) : Prop :=
  Prod.Lex (· < ·) (Prod.Lex (· < ·) (· < ·)) (orderMeasure deps σ') (orderMeasure deps σ)

theorem orderLt_wf : WellFounded (OrderLt deps) :=
  InvImage.wf _ (WellFounded.prod_lex wellFounded_lt
    (WellFounded.prod_lex wellFounded_lt wellFounded_lt))

theorem orderInv_init : OrderInv deps ⟨[], [], deps⟩ :=
  ⟨trivial, fun _ hx => absurd hx List.not_mem_nil,
    ⟨[], deps, [], rfl, fun _ he => absurd he List.not_mem_nil, rfl,
      fun _ he => absurd he List.not_mem_nil⟩, trivial⟩

variable {deps}

/-! ### The variables seen -/

/-- The variables seen before the latest one rank above it. -/
theorem SeenOK.rank_rest {accum rest : List SV} {s : SV} {stack : List (SV × Deps L)}
    (hs : SeenOK deps accum (s :: rest) stack) : ∀ s' ∈ rest, lastRank s deps < lastRank s' deps := by
  obtain ⟨-, -, -, -, -, -, -, -, hrank⟩ := hs
  exact hrank

/-- The entry on top of the stack, when a variable `s` was seen latest: either the entry of `s`
with all its dependencies sorted, or the entry of a dependency of `s`, which ranks below `s`. -/
theorem SeenOK.top (hbelow : DepsBelow deps) (hsame : SameDeps deps) {accum rest : List SV}
    {s h : SV} {d : Deps L} {tl : List (SV × Deps L)}
    (hs : SeenOK deps accum (s :: rest) ((h, d) :: tl)) :
    (h = s ∧ ∀ b ∈ d, b.1 ∈ accum) ∨ lastRank h deps < lastRank s deps := by
  obtain ⟨d', Q, R, hstack, hmem, -, hQ, hdeps, -⟩ := hs
  cases Q with
  | nil =>
    simp only [List.nil_append, List.cons.injEq, Prod.mk.injEq] at hstack
    obtain ⟨⟨rfl, rfl⟩, -⟩ := hstack
    refine .inl ⟨rfl, fun b hb => ?_⟩
    rcases hdeps b hb with hb' | ⟨e, he, -⟩
    · exact hb'
    · exact absurd he List.not_mem_nil
  | cons q Q =>
    simp only [List.cons_append, List.cons.injEq] at hstack
    obtain ⟨rfl, -⟩ := hstack
    obtain ⟨b, hb, hk⟩ := hQ _ List.mem_cons_self
    have hbh : b.1 = h := hk
    right
    rw [← hbh]
    exact lastRank_lt hbelow hsame hmem b hb

/-- A variable met again while seen has its dependencies sorted: it can only be the latest one
seen, since any other entry on top ranks below every variable seen. -/
theorem SeenOK.deps_sorted (hbelow : DepsBelow deps) (hsame : SameDeps deps)
    {accum seen : List SV} {h : SV} {d : Deps L} {tl : List (SV × Deps L)}
    (hs : SeenOK deps accum seen ((h, d) :: tl)) (hseen : h ∈ seen) : ∀ b ∈ d, b.1 ∈ accum := by
  cases seen with
  | nil => exact absurd hseen List.not_mem_nil
  | cons s rest =>
    rcases hs.top hbelow hsame with ⟨-, hsorted⟩ | hlt
    · exact hsorted
    · rcases List.mem_cons.1 hseen with rfl | hrest
      · exact absurd hlt (lt_irrefl _)
      · exact absurd (hs.rank_rest h hrest) (lt_asymm hlt)

/-- A variable on top that was not seen ranks below every variable seen. -/
theorem SeenOK.rank_lt (hbelow : DepsBelow deps) (hsame : SameDeps deps)
    {accum seen : List SV} {h : SV} {d : Deps L} {tl : List (SV × Deps L)}
    (hs : SeenOK deps accum seen ((h, d) :: tl)) (hseen : h ∉ seen) :
    ∀ s' ∈ seen, lastRank h deps < lastRank s' deps := by
  cases seen with
  | nil => exact fun s' hs' => absurd hs' List.not_mem_nil
  | cons s rest =>
    rcases hs.top hbelow hsame with ⟨rfl, -⟩ | hlt
    · exact absurd List.mem_cons_self hseen
    · intro s' hs'
      rcases List.mem_cons.1 hs' with rfl | hs'
      · exact hlt
      · exact hlt.trans (hs.rank_rest s' hs')

/-- The entry of a sorted variable leaves the stack without changing what was seen. -/
theorem SeenOK.pop_sorted {accum seen : List SV} {h : SV} {d : Deps L} {tl : List (SV × Deps L)}
    (hs : SeenOK deps accum seen ((h, d) :: tl)) (hh : h ∈ accum) : SeenOK deps accum seen tl := by
  cases seen with
  | nil => trivial
  | cons s rest =>
    obtain ⟨d', Q, R, hstack, hmem, hns, hQ, hdeps, hrank⟩ := hs
    cases Q with
    | nil =>
      -- the entry of `s` is not sorted
      simp only [List.nil_append, List.cons.injEq, Prod.mk.injEq] at hstack
      obtain ⟨⟨rfl, -⟩, -⟩ := hstack
      exact absurd hh hns
    | cons q Q =>
      simp only [List.cons_append, List.cons.injEq] at hstack
      obtain ⟨rfl, rfl⟩ := hstack
      refine ⟨d', Q, R, rfl, hmem, hns, fun e he => hQ e (List.mem_cons_of_mem _ he),
        fun b hb => ?_, hrank⟩
      rcases hdeps b hb with hb' | ⟨e, he, hk⟩
      · exact .inl hb'
      · rcases List.mem_cons.1 he with rfl | he
        · have hbh : b.1 = h := hk.symm
          exact .inl (hbh ▸ hh)
        · exact .inr ⟨e, he, hk⟩

/-- After a push, the variable pushed is the latest one seen. -/
theorem SeenOK.push {accum seen : List SV} {h : SV} {d : Deps L}
    {tl copies : List (SV × Deps L)} (hmem : (h, d) ∈ deps) (hh : h ∉ accum)
    (hcopies : ∀ e ∈ copies, ∃ b ∈ d, b.1 = e.1) (hall : ∀ b ∈ d, ∃ e ∈ copies, e.1 = b.1)
    (hrank : ∀ s' ∈ seen, lastRank h deps < lastRank s' deps) :
    SeenOK deps accum (h :: seen) (copies ++ (h, d) :: tl) :=
  ⟨d, copies, tl, rfl, hmem, hh, hcopies, fun b hb => .inr (hall b hb), hrank⟩

/-! ### One step and the whole run -/

theorem orderLt_sorted {accum seen : List SV} {e : SV × Deps L} {tl : List (SV × Deps L)} :
    OrderLt deps ⟨accum, seen, tl⟩ ⟨accum, seen, e :: tl⟩ :=
  Prod.Lex.right _ (Prod.Lex.right _ (Nat.lt_succ_self _))

/-- Sorting a variable of `deps` that was not sorted leaves fewer to sort. -/
theorem orderLt_add {accum seen : List SV} {h : SV} {tl tl' : List (SV × Deps L)}
    (hnodup : (h :: accum).Nodup) (hkeys : ∀ x ∈ h :: accum, x ∈ deps.map Prod.fst) :
    OrderLt deps ⟨h :: accum, [], tl⟩ ⟨accum, seen, tl'⟩ := by
  have hle : (h :: accum).length ≤ (deps.map Prod.fst).length :=
    (hnodup.subperm fun x hx => hkeys x hx).length_le
  simp only [List.length_cons, List.length_map] at hle
  exact Prod.Lex.left _ _ (by simp only [List.length_cons]; omega)

theorem orderLt_push {accum seen : List SV} {tl tl' : List (SV × Deps L)} {h : SV}
    (hlt : lastRank h deps < headRank deps seen) :
    OrderLt deps ⟨accum, h :: seen, tl'⟩ ⟨accum, seen, tl⟩ :=
  Prod.Lex.right _ (Prod.Lex.left _ _ hlt)

variable (hbelow : DepsBelow deps) (hsame : SameDeps deps)
include hbelow hsame

/-- One step of `order_state_vars` from a state of `OrderInv`: it halts with every variable of
`deps` sorted in dependency order, or moves to a state of `OrderInv` lower in `OrderLt`. It never
reaches `assert false`. -/
theorem orderStep_spec (σ : OrderState L) (hI : OrderInv deps σ) :
    (∃ out, orderStep L σ = .halt out ∧ DepOrdered (DependsOn deps) out ∧
        ∀ x, x ∈ out ↔ x ∈ deps.map Prod.fst) ∨
      ∃ σ', orderStep L σ = .next σ' ∧ OrderInv deps σ' ∧ OrderLt deps σ' σ := by
  obtain ⟨accum, seen, stack⟩ := σ
  obtain ⟨hord, hkeys, hstack, hseen⟩ := hI
  cases stack with
  | nil => exact .inl ⟨accum, rfl, hord, fun x => ⟨hkeys x, hstack.covers x⟩⟩
  | cons e tl =>
    obtain ⟨h, d⟩ := e
    have hmem : (h, d) ∈ deps := hstack.mem List.mem_cons_self
    have hkey : h ∈ deps.map Prod.fst := List.mem_map_of_mem hmem
    right
    by_cases hh : h ∈ accum
    · exact ⟨_, orderStep_sorted hh,
        ⟨hord, hkeys, hstack.pop (fun _ hx => hx) hh, hseen.pop_sorted hh⟩, orderLt_sorted⟩
    by_cases hd : (∀ b ∈ d, b.1 ∈ accum) ∨ h ∈ seen
    · -- the variable is sorted: all it depends on is, through any of its entries
      have hsorted : ∀ b ∈ d, b.1 ∈ accum := hd.elim id (hseen.deps_sorted hbelow hsame)
      have hafter : ∀ y, DependsOn deps h y → y ∈ accum := by
        rintro y ⟨d', hd', b, hb, rfl⟩
        obtain ⟨b', hb', hk⟩ := hsame _ hd' _ hmem rfl b hb
        exact hk ▸ hsorted b' hb'
      have hkeys' : ∀ x ∈ h :: accum, x ∈ deps.map Prod.fst := by
        intro x hx
        rcases List.mem_cons.1 hx with rfl | hx
        · exact hkey
        · exact hkeys x hx
      exact ⟨_, orderStep_add hh hd,
        ⟨⟨hh, hafter, hord⟩, hkeys', hstack.pop (fun _ hx => List.mem_cons_of_mem _ hx)
          List.mem_cons_self, trivial⟩,
        orderLt_add (List.nodup_cons.2 ⟨hh, hord.nodup⟩) hkeys'⟩
    · -- the entries of the dependencies go on top
      obtain ⟨hnot, hns⟩ := not_or.1 hd
      obtain ⟨copies, hfold, hcopies, hall⟩ :=
        foldlM_find_eq_some d ((h, d) :: tl) (hstack.below hbelow)
      have hlt : lastRank h deps < headRank deps seen := by
        cases seen with
        | nil => exact lastRank_lt_length hkey
        | cons s rest => exact hseen.rank_lt hbelow hsame hns s List.mem_cons_self
      exact ⟨_, orderStep_push hh hnot hns hfold,
        ⟨hord, hkeys, hstack.push fun e he => (hcopies e he).1,
          SeenOK.push hmem hh (fun e he => (hcopies e he).2) hall
            (hseen.rank_lt hbelow hsame hns)⟩,
        orderLt_push hlt⟩

/-- The run of `order_state_vars [] []` from `deps` ends, with every variable of `deps` sorted
once and in dependency order. -/
theorem orderStateVars_spec :
    ∃ out, DepOrdered (DependsOn deps) out ∧ (∀ x, x ∈ out ↔ x ∈ deps.map Prod.fst) ∧
      ∃ n, ∀ fuel, n ≤ fuel → orderStateVars L fuel [] [] deps = .ok out := by
  obtain ⟨out, ⟨hord, hkeys⟩, n, hn⟩ := Machine.run_of_variant (orderLt_wf deps)
    (orderStep_spec hbelow hsame) ⟨[], [], deps⟩ (orderInv_init deps)
  refine ⟨out, hord, hkeys, n, fun fuel hfuel => ?_⟩
  rw [orderStateVars, hn fuel hfuel]
  rfl

end Walk

/-- Dependency order: `order_state_vars [] []` ends on every dependency list in which each
dependency of an entry has an entry further down and the entries of a variable list the same
dependencies. It returns every variable of the list once, each in front of all it depends on. -/
theorem orderStateVars_topological (deps : List (SV × Deps L)) (hbelow : DepsBelow deps)
    (hsame : SameDeps deps) :
    ∃ out, (∃ n, ∀ fuel, n ≤ fuel → orderStateVars L fuel [] [] deps = .ok out) ∧ out.Nodup ∧
      (∀ x, x ∈ out ↔ x ∈ deps.map Prod.fst) ∧
      ∀ l₁ x l₂, out = l₁ ++ x :: l₂ → ∀ y, DependsOn deps x y → y ∈ l₂ := by
  obtain ⟨out, hord, hkeys, hrun⟩ := orderStateVars_spec hbelow hsame
  exact ⟨out, hrun, hord.nodup, hkeys, hord.after⟩

/-- A language whose expressions read nothing, for dependency lists given directly. -/
def unitLang : Lang Nat where
  expr := Unit
  iexpr := Unit
  term := Unit
  index := Unit
  ident := Unit
  decEqIndex := inferInstance
  decEqIdent := inferInstance
  baseStateVarsOfInitExpr := fun _ => []
  curStateVarsOfStepExpr := fun _ => []
  indexesOfStateVarsInInit := fun _ _ => []
  indexesOfStateVarsInStep := fun _ _ => []
  stateVarsOfIexpr := fun _ => []
  offsetOfIndex := fun _ => ()
  simplifyPlus := fun _ => ()
  sumOffsetsNegative := fun _ => false

/-- Three variables, the last depending on the other two, listed as `node_state_var_dependencies'`
lists them: the last one first. -/
def chainDeps : List (Nat × Deps unitLang) := [(2, [(0, []), (1, [])]), (1, [(0, [])]), (0, [])]

theorem chainDeps_below : DepsBelow chainDeps := by
  simp [DepsBelow, chainDeps]

theorem chainDeps_same : SameDeps chainDeps := by
  simp only [SameDeps, chainDeps, List.mem_cons, List.not_mem_nil, or_false]
  rintro e (rfl | rfl | rfl) e' (rfl | rfl | rfl) hx b hb <;> simp at hx
  -- what remains are the entries compared with themselves
  all_goals exact ⟨b, hb, rfl⟩

theorem orderStateVars_topological_chain :
    DepsBelow chainDeps ∧ SameDeps chainDeps ∧
      ∃ out, (∃ n, ∀ fuel, n ≤ fuel → orderStateVars unitLang fuel [] [] chainDeps = .ok out) ∧
        out.Nodup := by
  obtain ⟨out, hrun, hnodup, -⟩ := orderStateVars_topological _ chainDeps_below chainDeps_same
  exact ⟨chainDeps_below, chainDeps_same, out, hrun, hnodup⟩

/-! ## The equations in the order of their variables -/

/-- The inner fold of `collectEquations` puts the equations of `sv` in front, in reverse. -/
theorem foldl_collect (sv : SV) : ∀ (equations a : List (Equation L)),
    equations.foldl (fun a e => if sv = e.1.1 then e :: a else a) a =
      (equations.filter fun e => e.1.1 = sv).reverse ++ a
  | [], _ => rfl
  | e :: es, a => by
    rw [List.foldl_cons, foldl_collect sv es, List.filter_cons]
    by_cases he : sv = e.1.1
    · simp [he]
    · simp [he, Ne.symm he]

/-- `collectEquations` lists the equations of the sorted variables from the last one sorted to the
first, the equations of each variable in reverse. -/
theorem collectEquations_eq (out : List SV) (equations : List (Equation L)) :
    collectEquations L out equations =
      out.reverse.flatMap fun x => (equations.filter fun e => e.1.1 = x).reverse := by
  have hfold : ∀ (out : List SV) (a : List (Equation L)),
      out.foldl (fun a sv => equations.foldl (fun a e => if sv = e.1.1 then e :: a else a) a) a =
        (out.reverse.flatMap fun x => (equations.filter fun e => e.1.1 = x).reverse) ++ a := by
    intro out
    induction out with
    | nil => exact fun a => rfl
    | cons x out ih =>
      intro a
      rw [List.foldl_cons, ih, foldl_collect, List.reverse_cons, List.flatMap_append]
      simp
  rw [collectEquations, hfold, List.append_nil]

/-- Collected in a dependency order of their variables that covers them, the equations are each
listed once, and every equation comes after the equations of the variables its own depends on. -/
theorem collectEquations_spec {dep : SV → SV → Prop} {out : List SV} (hord : DepOrdered dep out)
    (equations : List (Equation L)) (hdef : ∀ e ∈ equations, e.1.1 ∈ out) :
    (collectEquations L out equations).Perm equations ∧
      ∀ r₁ e r₂, collectEquations L out equations = r₁ ++ e :: r₂ →
        ∀ e' ∈ equations, dep e.1.1 e'.1.1 → e' ∈ r₁ := by
  have hperm : (collectEquations L out equations).Perm equations := by
    rw [collectEquations_eq]
    exact (List.Perm.flatMap_left _ fun x _ => List.reverse_perm _).trans
      (perm_flatMap_filter (fun e : Equation L => e.1.1) (List.nodup_reverse.2 hord.nodup)
        fun e he => List.mem_reverse.2 (hdef e he))
  refine ⟨hperm, fun r₁ e r₂ hr e' he' hdep => ?_⟩
  have he : e ∈ equations := hperm.subset (hr ▸ List.mem_append_right _ List.mem_cons_self)
  -- the variable of `e` is sorted after the variable of `e'`, and only once
  obtain ⟨l₁, l₂, hout⟩ := List.append_of_mem (hdef e he)
  have hy : e'.1.1 ∈ l₂ := hord.after l₁ _ l₂ hout _ hdep
  have hx : e.1.1 ∉ l₂ :=
    (List.nodup_cons.1 (hord.nodup.sublist (hout ▸ List.sublist_append_right l₁ _))).1
  rw [collectEquations_eq, hout, List.reverse_append, List.reverse_cons, List.append_assoc,
    List.flatMap_append] at hr
  refine mem_left_of_append_eq_append_cons hr (fun hmem => ?_) e' ?_
  · -- the equations listed first are those of the variables sorted before the one of `e`
    obtain ⟨x, hxl, hmem⟩ := List.mem_flatMap.1 hmem
    have hex : e.1.1 = x := by simpa using (List.mem_filter.1 (List.mem_reverse.1 hmem)).2
    exact hx (hex ▸ List.mem_reverse.1 hxl)
  · exact List.mem_flatMap.2 ⟨e'.1.1, List.mem_reverse.2 hy,
      List.mem_reverse.2 (List.mem_filter.2 ⟨he', by simp⟩)⟩

/-- Equation order: on a dependency list as in `orderStateVars_topological`, and equations whose
variables have entries, the equations that `order_equations` collects in the order of
`order_state_vars` are the equations of the node, each once, and every equation comes after the
equations of the variables its variable depends on. -/
theorem orderStateVars_collectEquations (deps : List (SV × Deps L)) (hbelow : DepsBelow deps)
    (hsame : SameDeps deps) (equations : List (Equation L))
    (hdef : ∀ e ∈ equations, e.1.1 ∈ deps.map Prod.fst) :
    ∃ out, (∃ n, ∀ fuel, n ≤ fuel → orderStateVars L fuel [] [] deps = .ok out) ∧
      (collectEquations L out equations).Perm equations ∧
      ∀ r₁ e r₂, collectEquations L out equations = r₁ ++ e :: r₂ →
        ∀ e' ∈ equations, DependsOn deps e.1.1 e'.1.1 → e' ∈ r₁ := by
  obtain ⟨out, hord, hkeys, hrun⟩ := orderStateVars_spec hbelow hsame
  exact ⟨out, hrun, collectEquations_spec hord equations fun e he => (hkeys _).2 (hdef e he)⟩

/-- The equations of the three variables of `chainDeps`, given in the order of the variables. -/
theorem orderStateVars_collectEquations_chain :
    ∃ out, (∃ n, ∀ fuel, n ≤ fuel → orderStateVars unitLang fuel [] [] chainDeps = .ok out) ∧
      (collectEquations unitLang out [((2, []), ()), ((1, []), ()), ((0, []), ())]).Perm
        [((2, []), ()), ((1, []), ()), ((0, []), ())] := by
  obtain ⟨out, hrun, hperm, -⟩ := orderStateVars_collectEquations _ chainDeps_below
    chainDeps_same [((2, []), ()), ((1, []), ()), ((0, []), ())] (by simp [chainDeps])
  exact ⟨out, hrun, hperm⟩

end Slicing
end Kind2
