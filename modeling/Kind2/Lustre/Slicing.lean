import Kind2.Lib.OrdMap
import Kind2.Lib.Machine

/-!
# Dependency order of node equations

`LustreSlicing.order_equations init output_input_deps node` (`src/lustre/lustreSlicing.ml:572`)
sorts the equations of a node so that the definitions each one reads at the current instant come
first. It works in three stages:

* `node_state_var_dependencies'` (line 252) computes for every state variable defined in the node
  the state variables it depends on, transitively, with a work list of state variables and the
  paths of their parents; it fails on a cycle, except on a cycle through array accesses whose
  index offsets add up to a negative number (a well-founded recursive array definition);
* `order_state_vars` (line 464) sorts the state variables by these dependencies with a stack;
* the equations are then collected in that order.

The model keeps the three stages as in the source. The work list and the stack are loops without
a structural measure, so they are step functions (`depStep`, `orderStep`) run with fuel, and an
exhausted fuel is the failure `outOfFuel`. What the computation calls of the expression layer
(`LustreExpr`, `Term`, `Simplify`) is the parameter `Lang`: the state variables an expression
reads, the index expressions of its array accesses, the offset arithmetic. State variable maps
(`SVM`) are sorted association lists (`OrdMap`), state variable sets (`SVS`) sorted lists, and
the index tries `D.t` of a node the list of their bindings in key order (`D.bindings`).
-/

namespace Kind2
namespace Slicing

/-- What the dependency computation calls below it. The types are those of equation expressions
(`LustreExpr.t`), index and bound expressions (`LustreExpr.expr`), offset terms (`Term.t`), keys of
index tries (`LustreIndex.index`) and node names (`LustreIdent.t`). -/
structure Lang (SV : Type) where
  expr : Type
  iexpr : Type
  term : Type
  index : Type
  ident : Type
  decEqIndex : DecidableEq index
  decEqIdent : DecidableEq ident
  /-- `E.base_state_vars_of_init_expr` -/
  baseStateVarsOfInitExpr : expr → List SV
  /-- `E.cur_state_vars_of_step_expr` -/
  curStateVarsOfStepExpr : expr → List SV
  /-- `E.indexes_of_state_vars_in_init` -/
  indexesOfStateVarsInInit : SV → expr → List (List iexpr)
  /-- `E.indexes_of_state_vars_in_step` -/
  indexesOfStateVarsInStep : SV → expr → List (List iexpr)
  /-- `Term.state_vars_of_term (E.unsafe_term_of_expr e)` -/
  stateVarsOfIexpr : iexpr → List SV
  /-- `offset_of_index` -/
  offsetOfIndex : iexpr → term
  /-- `Term.mk_plus` followed by `Simplify.simplify_term []` -/
  simplifyPlus : List term → term
  /-- `sum_offsets_negative` -/
  sumOffsetsNegative : List term → Bool

instance {SV : Type} (L : Lang SV) : DecidableEq L.index := L.decEqIndex

instance {SV : Type} (L : Lang SV) : DecidableEq L.ident := L.decEqIdent

/-- `E.bound_or_fixed`: a bound of an array index on the left-hand side of an equation. -/
inductive BoundOrFixed (α : Type) where
  | bound (e : α)
  | fixed (e : α)
  | unbound (e : α)

/-- The expression of a bound. -/
def BoundOrFixed.expr {α : Type} : BoundOrFixed α → α
  | .bound e => e
  | .fixed e => e
  | .unbound e => e

/-- `N.call_cond`: the clock of a condact or of a restart. -/
inductive CallCond (SV : Type) where
  | cActivate (clk : SV)
  | cRestart (clk : SV)

variable {SV : Type} (L : Lang SV)

/-- `N.node_call` without its position and oracles, which the dependency computation does not
read. -/
structure NodeCall where
  callNodeName : L.ident
  callCond : List (CallCond SV)
  callInputs : List (L.index × SV)
  callOutputs : List (L.index × SV)
  callDefaults : Option (List (L.index × L.expr))

/-- `N.equation`: a state variable with the bounds of its indexes, and its definition. -/
abbrev Equation := (SV × List (BoundOrFixed L.iexpr)) × L.expr

/-- `N.t`, the fields that `order_equations` reads. -/
structure Node where
  inputs : List (L.index × SV)
  outputs : List (L.index × SV)
  equations : List (Equation L)
  calls : List (NodeCall L)

/-- `output_input_deps`: for each node, the indexes of the inputs each output index depends on,
at the initial instant and in a step. -/
abbrev OutputInputDeps := List (L.ident × (List (L.index × List L.index) ×
  List (L.index × List L.index)))

/-- The state variables another one depends on, each with the index expressions of its array
accesses (`E.expr list list SVM.t`). -/
abbrev Deps := List (SV × List (List L.iexpr))

/-- A path of parents, with the offset of the array access along each edge. -/
abbrev Path := List (SV × Option L.term)

/-- How the computation fails: `C.fail_no_position` on a circular dependency (the message
printed from the cycle is left out, the cycle is kept), `assert false`, and fuel that runs
out in the model. -/
inductive Failure where
  | circularDependency (stateVar : SV) (path : Path L)
  | assertFailure
  | outOfFuel

/-- The exceptions of `gather_offsets_on_cycles`. -/
inductive GatherExn where
  | exit
  | assertFailure

variable [LinearOrder SV]

/-! ## Cycles -/

/-- The measure of `gatherUpTo`: a binding of `sv` found ends a cycle and is dropped, any other
binding is moved from the parents to the small accumulator or dropped. -/
def gatherMeasure (sv : SV) (smallAcc parents : Path L) : Nat × Nat :=
  ((smallAcc ++ parents).countP fun x => decide (x.1 = sv), parents.length)

/-- `gather_up_to big_acc small_acc sv parents` of `gather_offsets_on_cycles`; `none` is the
exception `Exit`, raised on an access of `sv` without an offset. -/
def gatherUpTo (sv : SV) (bigAcc : List (Path L)) (smallAcc : Path L) : Path L →
    Option (List (Path L))
  | (sv', some off) :: r =>
    if sv' = sv then
      gatherUpTo sv (((sv', some off) :: smallAcc).reverse :: bigAcc) [] (smallAcc.reverseAux r)
    else gatherUpTo sv bigAcc ((sv', some off) :: smallAcc) r
  | (sv', none) :: r => if sv' = sv then none else gatherUpTo sv bigAcc smallAcc r
  | [] => some bigAcc
termination_by parents => gatherMeasure L sv smallAcc parents
decreasing_by
  all_goals simp only [gatherMeasure]
  · apply Prod.Lex.left
    simp [List.countP_append, List.reverseAux_eq, *]
  · apply Prod.Lex.right'
    · simp [List.countP_append, *]
    · simp
  · apply Prod.Lex.right'
    · simp [List.countP_append, *]
    · simp

/-- `gather_offsets_on_cycles sv parents`: the offsets along every cycle through `sv`. -/
def gatherOffsetsOnCycles (sv : SV) (parents : Path L) : Except GatherExn (List (List L.term)) :=
  match gatherUpTo L sv [] [] parents with
  | none => .error .exit
  | some cycles =>
    match cycles.mapM fun c => c.mapM Prod.snd with
    | some offsets => .ok offsets
    | none => .error .assertFailure

/-- `has_cycle_path sv path`: a cycle through `sv` whose offsets are not negative. -/
def hasCyclePath (sv : SV) (path : Path L) : Except (Failure L) Bool :=
  match gatherOffsetsOnCycles L sv path with
  | .ok offsets => .ok (offsets.any fun o => !L.sumOffsetsNegative o)
  | .error .exit => .ok true
  | .error .assertFailure => .error .assertFailure

/-- `has_cycle sv parents`: the first path of parents with such a cycle. -/
def hasCycle (sv : SV) (parents : List (Path L)) : Except (Failure L) (Option (Path L)) :=
  parents.findM? (hasCyclePath L sv)

/-- `break_cycle accum parents state_var sv inds`: `sv` has its dependencies already, or lies
on a path of parents with `state_var`. -/
def breakCycle (accum : List (SV × Deps L)) (parents : List (Path L)) (stateVar sv : SV) : Bool :=
  accum.any (fun e => decide (e.1 = sv)) ||
    parents.any fun path => path.any (fun e => decide (e.1 = stateVar)) &&
      path.any fun e => decide (e.1 = sv)

/-- `add_dep_to_parents sv indgrps parents`: the paths of a child of `sv`, each path of `sv`
extended by `sv` with one offset per group of indexes. -/
def addDepToParents (sv : SV) (indgrps : List (List L.iexpr)) (parents : List (Path L)) :
    List (Path L) :=
  if indgrps.isEmpty then
    if parents.isEmpty then [[(sv, none)]] else parents.map ((sv, none) :: ·)
  else
    let offsetsInds := indgrps.map fun inds => L.simplifyPlus (inds.map L.offsetOfIndex)
    offsetsInds.foldl (fun acc i =>
      let np := if parents.isEmpty then [[(sv, some i)]] else parents.map ((sv, some i) :: ·)
      np.reverseAux acc) []

/-! ## Dependency maps -/

/-- `merge_deps`: the index expressions of both maps. -/
def mergeDeps {α : Type} (_sv : SV) : Option (List α) → Option (List α) → Option (List α)
  | some i1, some i2 => some (i1 ++ i2)
  | some i, none => some i
  | none, some i => some i
  | none, none => none

/-- `SVS.union`: the sorted state variables of both sets. -/
def svsUnion (s t : List SV) : List SV :=
  ((s ++ t).foldl (fun m x => OrdMap.add x () m) []).map Prod.fst

/-- `union_noind_set m s`: `m` with the state variables of `s`, without indexes. -/
def unionNoindSet (m : Deps L) (s : List SV) : Deps L :=
  OrdMap.merge mergeDeps (s.foldl (fun m' sv => OrdMap.add sv [] m') []) m

/-- `state_vars_of_bounds`: the state variables of the bounds of an equation. -/
def stateVarsOfBounds (bnds : List (BoundOrFixed L.iexpr)) : List SV :=
  bnds.foldl (fun acc b => svsUnion acc (L.stateVarsOfIexpr b.expr)) []

/-- The first `children` binding of `node_state_var_dependencies'`: the state variables the
equations of `stateVar` read, in their expressions and in their bounds, with their indexes. -/
def equationChildren (init : Bool) (stateVar : SV) (equations : List (Equation L)) : Deps L :=
  (equations.filter fun e => decide (e.1.1 = stateVar)).foldl (fun accum e =>
    let stateVars := if init then L.baseStateVarsOfInitExpr e.2 else L.curStateVarsOfStepExpr e.2
    let stateVars := svsUnion stateVars (stateVarsOfBounds L e.1.2)
    stateVars.foldl (fun acc sv =>
      let indexes :=
        if init then L.indexesOfStateVarsInInit sv e.2 else L.indexesOfStateVarsInStep sv e.2
      OrdMap.merge mergeDeps [(sv, indexes)] acc) accum) []

/-- The children of `stateVar` through one node call that has it as an output: the inputs the
output depends on in the called node, the state variables of the defaults at the initial
instant, and the clocks. -/
def callChildren (init : Bool) (oid : OutputInputDeps L) (stateVar : SV) (call : NodeCall L) :
    Except (Failure L) (Deps L) := do
  let outputIndex ← match call.callOutputs.find? fun b => decide (b.2 = stateVar) with
    | some b => pure b.1
    | none => throw .assertFailure
  let outputInputDep := match oid.lookup call.callNodeName with
    | some d => if init then d.1 else d.2
    | none => []
  let inputs ← match outputInputDep.lookup outputIndex with
    | some l => pure l
    | none => throw .assertFailure
  let children ← inputs.foldlM (fun accum i =>
    match call.callInputs.lookup i with
    | some sv => pure (OrdMap.add sv [] accum)
    | none => throw .assertFailure) []
  let children :=
    if init then
      match call.callDefaults with
      | none => children
      | some d => d.foldl (fun accum b => unionNoindSet L accum (L.baseStateVarsOfInitExpr b.2))
          children
    else children
  pure (call.callCond.foldl (fun children c =>
    match c with
    | .cActivate clk => OrdMap.add clk [] children
    | .cRestart clk => OrdMap.add clk [] children) children)

/-- The two `children` bindings of `node_state_var_dependencies'`: the children of `stateVar`
through its equations and through the node calls that define it. -/
def childrenOfStateVar (init : Bool) (oid : OutputInputDeps L) (node : Node L) (stateVar : SV) :
    Except (Failure L) (Deps L) :=
  (node.calls.filter fun c => c.callOutputs.any fun b => decide (b.2 = stateVar)).foldlM
    (fun accum call => do
      let children ← callChildren L init oid stateVar call
      pure (OrdMap.merge mergeDeps accum children))
    (equationChildren L init stateVar node.equations)

/-! ## The work list -/

/-- The dependencies computed so far and the work list of state variables with their paths of
parents. -/
structure DepState where
  accum : List (SV × Deps L)
  work : List (SV × List (Path L))

/-- One iteration of `node_state_var_dependencies' init output_input_deps node accum work`. -/
def depStep (init : Bool) (oid : OutputInputDeps L) (node : Node L) :
    DepState L → Machine.Step (DepState L) (List (SV × Deps L)) (Failure L)
  | ⟨accum, []⟩ => .halt accum
  | ⟨accum, (stateVar, parents) :: tl⟩ =>
    match hasCycle L stateVar parents with
    | .error e => .fail e
    | .ok (some path) => .fail (.circularDependency stateVar path)
    | .ok none =>
      match childrenOfStateVar L init oid node stateVar with
      | .error e => .fail e
      | .ok children =>
        let childrenVisited := children.filter fun b => breakCycle L accum parents stateVar b.1
        let childrenNotVisited :=
          children.filter fun b => !breakCycle L accum parents stateVar b.1
        if childrenNotVisited.isEmpty then
          -- the dependencies are the children and their dependencies
          let deps := childrenVisited.foldl (fun a b =>
            OrdMap.merge mergeDeps ((accum.find? fun e => decide (e.1 = b.1)).elim [] Prod.snd)
              (OrdMap.merge mergeDeps a [b])) []
          .next ⟨(stateVar, deps) :: accum, tl⟩
        else
          -- first the dependencies of the children not visited
          .next ⟨accum, childrenNotVisited.foldl
            (fun a b => (b.1, addDepToParents L stateVar b.2 parents) :: a)
            ((stateVar, parents) :: tl)⟩

/-- `node_state_var_dependencies'`, run for at most `fuel` iterations. -/
def nodeStateVarDependencies' (fuel : Nat) (init : Bool) (oid : OutputInputDeps L)
    (node : Node L) (accum : List (SV × Deps L)) (work : List (SV × List (Path L))) :
    Except (Failure L) (List (SV × Deps L)) :=
  (Machine.run (depStep L init oid node) fuel ⟨accum, work⟩).getD (.error .outOfFuel)

/-! ## Sorting -/

/-- The state variables sorted so far, those seen since the last one was sorted, and the
stack. -/
structure OrderState where
  accum : List SV
  seen : List SV
  stack : List (SV × Deps L)

/-- One iteration of `order_state_vars accum seen stack`. -/
def orderStep : OrderState L → Machine.Step (OrderState L) (List SV) (Failure L)
  | ⟨accum, _, []⟩ => .halt accum
  | ⟨accum, seen, (h, d) :: tl⟩ =>
    if accum.contains h then .next ⟨accum, seen, tl⟩
    else if d.all (fun b => accum.contains b.1) || seen.contains h then .next ⟨h :: accum, [], tl⟩
    else
      -- push the dependencies of `h` to the top of the stack
      match d.foldlM (fun a b => (tl.find? fun e => decide (e.1 = b.1)).map (· :: a))
          ((h, d) :: tl) with
      | some tl' => .next ⟨accum, h :: seen, tl'⟩
      | none => .fail .assertFailure

/-- `order_state_vars accum seen stack`, run for at most `fuel` iterations. -/
def orderStateVars (fuel : Nat) (accum seen : List SV) (stack : List (SV × Deps L)) :
    Except (Failure L) (List SV) :=
  (Machine.run (orderStep L) fuel ⟨accum, seen, stack⟩).getD (.error .outOfFuel)

/-- `output_input_dep_of_dependencies dependencies inputs outputs`: for each output, the indexes
of the inputs it depends on. -/
def outputInputDepOfDependencies (dependencies : List (SV × Deps L))
    (inputs outputs : List (L.index × SV)) : Except (Failure L) (List (L.index × List L.index)) :=
  outputs.mapM fun b => do
    let outputDep ← match dependencies.find? fun e => decide (e.1 = b.2) with
      | some e => pure e.2
      | none => throw .assertFailure
    let l ← outputDep.foldlM (fun a d =>
      match (inputs.filter fun i => decide (i.2 = d.1)).map Prod.fst with
      | [] => pure a
      | [i] => pure (i :: a)
      | _ => throw .assertFailure) []
    pure (b.1, l)

/-- The state variables on the left of definitions, each without parents: those of the
equations, the outputs, and the outputs of node calls. -/
def definedStateVars (node : Node L) : List (SV × List (Path L)) :=
  node.calls.foldl (fun a call => call.callOutputs.foldl (fun a b => (b.2, []) :: a) a)
    (node.outputs.foldl (fun a b => (b.2, []) :: a) (node.equations.map fun e => (e.1.1, [])))

/-- The equations of the sorted state variables, each state variable in turn. -/
def collectEquations (stateVarsOrdered : List SV) (equations : List (Equation L)) :
    List (Equation L) :=
  stateVarsOrdered.foldl (fun a sv =>
    equations.foldl (fun a e => if sv = e.1.1 then e :: a else a) a) []

/-- `order_equations init output_input_deps node` (`src/lustre/lustreSlicing.ml:572`), with
`fuel` for each of its two loops. -/
def orderEquations (fuel : Nat) (init : Bool) (oid : OutputInputDeps L) (node : Node L) :
    Except (Failure L) (List (Equation L) × List (L.index × List L.index)) := do
  let dependencies ← nodeStateVarDependencies' L fuel init oid node [] (definedStateVars L node)
  let stateVarsOrdered ← orderStateVars L fuel [] [] dependencies
  let equations' := collectEquations L stateVarsOrdered node.equations
  let outputInputDep ← outputInputDepOfDependencies L dependencies node.inputs node.outputs
  pure (equations', outputInputDep)

end Slicing
end Kind2
