import Dagx.Layers

/-!
# `DagRunner::run` (`runner.rs`) and `DagOutput::get` (`output.rs`)

* `RunState`: the locals of `run`, the strong counts of the outputs' `Arc`s, and two records no code reads: the history
  of the run and the nodes whose futures were handed to the spawner;
* `RunState.start`: take the node, clone its dependencies, create its future (both branches of `run`);
* `RunState.complete`, `RunState.consume`: the future resolves; its result is stored or kept as the first error;
* `inlineResult`, `spawnedResult`: the two places where a panic becomes a `TaskPanicked`, around the node future and
  around the spawner's future;
* `runInline`, `runSpawned`, `runLayers`, `DagRunner.run`.

A `Spawner` says what awaiting `spawner(fut)` yields, given what `fut` yields; a `CompletionOrder` is an order in
which `FuturesUnordered` yields the results of the futures pushed.
-/

namespace Dagx

variable {Ty : Type} [Preorder Ty] {Val : Ty → Type}

/-- A node future that has been created: its node and its dependency vector. -/
structure InFlight (Val : Ty → Type) where
  id : NodeId
  node : TypedNode Val
  dependencies : List (Arc Val)

/-- What the node future resolves to, or the panic it unwinds with. -/
def InFlight.outcome [DecidableEq Ty] (f : InFlight Val) : Outcome (DagResult (Arc Val)) :=
  f.node.executeWithDeps f.id f.dependencies

/-- What awaiting `spawner(fut)` yields for the future of a node, given what `fut` yields: spawners whose future resolves,
after `fut` has. Two calls may behave differently (a runtime numbers its tasks), hence the node. -/
def Spawner (Val : Ty → Type) := NodeId → Outcome (DagResult (Arc Val)) → Outcome (DagResult (Arc Val))

/-- The spawner's future yields the outcome of the future it is given: `|fut| fut`. -/
def Spawner.PassesThrough (sp : Spawner Val) : Prop := ∀ id o, sp id o = o

/-- The spawner passes results through; what it does with panics is its own affair. -/
def Spawner.PassesResults (sp : Spawner Val) : Prop := ∀ id r, sp id (.ok r) = .ok r

/-- The spawner passes results through and makes no output out of a panic: it may raise another panic, as
`tokio::spawn(fut).await.unwrap()` does, or give an error. -/
def Spawner.Honest (sp : Spawner Val) : Prop :=
  sp.PassesResults ∧ ∀ id payload arc, sp id (.error payload) ≠ .ok (.ok arc)

/-- An order in which `FuturesUnordered` yields the futures pushed: each exactly once. -/
structure CompletionOrder (Val : Ty → Type) where
  order : List (InFlight Val) → List (InFlight Val)
  perm : ∀ fs, (order fs).Perm fs

def Spawner.identity : Spawner Val := fun _ o => o

omit [Preorder Ty] in
theorem Spawner.identity_passesThrough : (identity : Spawner Val).PassesThrough := fun _ _ => rfl

omit [Preorder Ty] in
theorem Spawner.PassesThrough.honest {sp : Spawner Val} (h : sp.PassesThrough) : sp.Honest :=
  ⟨fun id r => h id (.ok r), fun id payload arc he => by cases (h id (.error payload)).symm.trans he⟩

def CompletionOrder.reversed : CompletionOrder Val := ⟨List.reverse, List.reverse_perm⟩

inductive Event (Val : Ty → Type)
  /-- the node future is created, with these dependencies -/
  | start (id : NodeId) (dependencies : List (Arc Val))
  /-- the node future resolves or panics -/
  | complete (id : NodeId) (outcome : Outcome (DagResult (Arc Val)))
  /-- `run` handles the result -/
  | consume (id : NodeId) (result : DagResult (Arc Val))

/-- The locals of `run`; `strong` counts the owners of the `Arc` each task allocated. -/
structure RunState (Val : Ty → Type) where
  nodes : List (Option (TypedNode Val))
  outputs : PassThroughHashMap (Arc Val)
  firstError : Option DagError
  strong : NodeId → Nat
  spawned : List NodeId
  log : List (Event Val)

/-- `DagOutput`, with the strong counts of the `Arc`s it holds. -/
structure DagOutput (Val : Ty → Type) where
  outputs : PassThroughHashMap (Arc Val)
  strong : NodeId → Nat

def RunState.result (s : RunState Val) : DagResult (DagOutput Val) :=
  match s.firstError with
  | some e => .error e
  | none => .ok ⟨s.outputs, s.strong⟩

theorem RunState.result_eq_ok {s : RunState Val} {out : DagOutput Val} :
    s.result = .ok out ↔ s.firstError = none ∧ out = ⟨s.outputs, s.strong⟩ := by
  unfold RunState.result
  cases s.firstError with
  | none => simp [eq_comm]
  | some e => simp

theorem RunState.result_eq_error {s : RunState Val} {e : DagError} :
    s.result = .error e ↔ s.firstError = some e := by
  unfold RunState.result
  cases s.firstError with
  | none => simp
  | some e => simp

/-- `.cloned()` of every `Arc` in the list. -/
def cloneAll (arcs : List (Arc Val)) (strong : NodeId → Nat) : NodeId → Nat :=
  fun id => strong id + (arcs.map Arc.origin).count id

/-- Dropping every `Arc` in the list. -/
def dropAll (arcs : List (Arc Val)) (strong : NodeId → Nat) : NodeId → Nat :=
  fun id => strong id - (arcs.map Arc.origin).count id

/-- `Arc::new` in the future of a node: one owner. -/
def allocate (strong : NodeId → Nat) : Outcome (DagResult (Arc Val)) → NodeId → Nat
  | .ok (.ok arc) => Function.update strong arc.origin 1
  | _ => strong

namespace RunState

/-- `self.nodes[node_id.0 as usize].take()` and, if there was a node, its dependencies
`self.edges[&node_id].iter().flat_map(|dep| outputs.get(dep)).cloned()` and `execute_with_deps`. -/
def start (edges : PassThroughHashMap (List NodeId)) (s : RunState Val) (id : NodeId) :
    Outcome (Option (InFlight Val) × RunState Val) :=
  match s.nodes[id.index]? with
  | none => .error (indexOutOfBounds s.nodes.length id.index)
  | some none => .ok (none, s)
  | some (some node) =>
    match edges.lookup id with
    | none => .error noEntry
    | some deps =>
      let dependencies := deps.filterMap s.outputs.lookup
      .ok (some ⟨id, node, dependencies⟩,
        { s with
          nodes := s.nodes.set id.index none
          strong := cloneAll dependencies s.strong
          log := s.log ++ [.start id dependencies] })

theorem start_of_node {edges : PassThroughHashMap (List NodeId)} {s : RunState Val} {id : NodeId} {node : TypedNode Val}
    {deps : List NodeId} (hnode : s.nodes[id.index]? = some (some node)) (hdeps : edges.lookup id = some deps) :
    s.start edges id = .ok (some ⟨id, node, deps.filterMap s.outputs.lookup⟩,
      { s with
        nodes := s.nodes.set id.index none
        strong := cloneAll (deps.filterMap s.outputs.lookup) s.strong
        log := s.log ++ [.start id (deps.filterMap s.outputs.lookup)] }) := by
  simp only [start, hnode, hdeps]

/-- `layer.into_iter().filter_map(..).collect()`: every node of the layer is handed to the spawner. -/
def spawnAll (edges : PassThroughHashMap (List NodeId)) :
    List NodeId → RunState Val → Outcome (List (InFlight Val) × RunState Val)
  | [], s => .ok ([], s)
  | id :: layer, s =>
    match s.start edges id with
    | .error payload => .error payload
    | .ok (none, s) => spawnAll edges layer s
    | .ok (some f, s) =>
      match spawnAll edges layer { s with spawned := s.spawned ++ [id] } with
      | .error payload => .error payload
      | .ok (fs, s) => .ok (f :: fs, s)

theorem spawnAll_cons_error {edges : PassThroughHashMap (List NodeId)} {id : NodeId} {s : RunState Val}
    {payload : Payload} (hs : s.start edges id = .error payload) (layer : List NodeId) :
    spawnAll edges (id :: layer) s = .error payload := by
  rw [spawnAll, hs]

theorem spawnAll_cons_none {edges : PassThroughHashMap (List NodeId)} {id : NodeId} {s s' : RunState Val}
    (hs : s.start edges id = .ok (none, s')) (layer : List NodeId) :
    spawnAll edges (id :: layer) s = spawnAll edges layer s' := by
  rw [spawnAll, hs]

theorem spawnAll_cons_some {edges : PassThroughHashMap (List NodeId)} {id : NodeId} {s s' : RunState Val}
    {f : InFlight Val} (hs : s.start edges id = .ok (some f, s')) (layer : List NodeId) :
    spawnAll edges (id :: layer) s =
      (spawnAll edges layer { s' with spawned := s'.spawned ++ [id] }).map fun r => (f :: r.1, r.2) := by
  rw [spawnAll, hs]
  dsimp only
  cases spawnAll edges layer { s' with spawned := s'.spawned ++ [id] } <;> rfl

variable [DecidableEq Ty]

/-- The node future resolves or unwinds: its output is allocated, its dependency vector is dropped. -/
def complete (s : RunState Val) (f : InFlight Val) : RunState Val :=
  { s with
    strong := dropAll f.dependencies (allocate s.strong f.outcome)
    log := s.log ++ [.complete f.id f.outcome] }

/-- `outputs.insert(node_id, output)` or `first_error.get_or_insert(e)`. -/
def consume (s : RunState Val) (id : NodeId) (result : DagResult (Arc Val)) : RunState Val :=
  match result with
  | .ok output => { s with outputs := s.outputs.insert id output, log := s.log ++ [.consume id (.ok output)] }
  | .error e => { s with firstError := s.firstError.or (some e), log := s.log ++ [.consume id (.error e)] }

end RunState

variable [DecidableEq Ty]

/-- `catch_unwind` around the node future, then `Result::unwrap_or_else`. -/
def inlineResult (f : InFlight Val) : DagResult (Arc Val) :=
  match f.outcome with
  | .ok result => result
  | .error payload => .error (.TaskPanicked f.id.val (panicMessage payload))

/-- `Ok((node_id, inner_future.await?))`, `catch_unwind` around it, then `TryFutureExt::unwrap_or_else`. -/
def spawnedResult (sp : Spawner Val) (f : InFlight Val) : DagResult (NodeId × Arc Val) :=
  let innerFuture : Outcome (DagResult (NodeId × Arc Val)) :=
    (sp f.id f.outcome).map fun result => result.map fun output => (f.id, output)
  match innerFuture with
  | .ok result => result
  | .error payload => .error (.TaskPanicked f.id.val (panicMessage payload))

namespace RunState

/-- The single-task branch. -/
def runInline (edges : PassThroughHashMap (List NodeId)) (s : RunState Val) (id : NodeId) : Outcome (RunState Val) :=
  match s.start edges id with
  | .error payload => .error payload
  | .ok (none, s) => .ok s
  | .ok (some f, s) => .ok ((s.complete f).consume id (inlineResult f))

/-- One turn of `while let Some(out) = futures.next().await`. -/
def settle (sp : Spawner Val) (s : RunState Val) (f : InFlight Val) : RunState Val :=
  match spawnedResult sp f with
  | .ok output => (s.complete f).consume output.1 (.ok output.2)
  | .error e => (s.complete f).consume f.id (.error e)

/-- The multi-task branch. -/
def runSpawned (sp : Spawner Val) (co : CompletionOrder Val) (edges : PassThroughHashMap (List NodeId))
    (s : RunState Val) (layer : List NodeId) : Outcome (RunState Val) :=
  match spawnAll edges layer s with
  | .error payload => .error payload
  | .ok (fs, s) => .ok ((co.order fs).foldl (settle sp) s)

/-- One turn of `for layer in layers`, up to the check of `first_error`. -/
def runLayer (sp : Spawner Val) (co : CompletionOrder Val) (edges : PassThroughHashMap (List NodeId))
    (s : RunState Val) (layer : List NodeId) : Outcome (RunState Val) :=
  match layer with
  | [id] => s.runInline edges id
  | _ => s.runSpawned sp co edges layer

/-- `for layer in layers`; it stops after the layer that set `first_error`. -/
def runLayers (step : RunState Val → List NodeId → Outcome (RunState Val)) :
    List (List NodeId) → RunState Val → Outcome (RunState Val)
  | [], s => .ok s
  | layer :: layers, s =>
    match step s layer with
    | .error payload => .error payload
    | .ok s => if s.firstError.isSome then .ok s else runLayers step layers s

end RunState

namespace DagRunner

def initState (dag : DagRunner Val) : RunState Val := ⟨dag.nodes, ∅, none, fun _ => 0, [], []⟩

/-- The final state of `run` when every layer is run by `step`; `none` when `compute_layers` does not terminate. -/
def finalStateWith (dag : DagRunner Val) (it : IterOrder) (step : RunState Val → List NodeId → Outcome (RunState Val)) :
    Option (Outcome (DagResult (RunState Val))) :=
  match dag.computeLayers it with
  | none => none
  | some (.error payload) => some (.error payload)
  | some (.ok (.error e)) => some (.ok (.error e))
  | some (.ok (.ok layers)) => some ((RunState.runLayers step layers dag.initState).map .ok)

def finalState (dag : DagRunner Val) (it : IterOrder) (sp : Spawner Val) (co : CompletionOrder Val) :
    Option (Outcome (DagResult (RunState Val))) :=
  dag.finalStateWith it (RunState.runLayer sp co dag.edges)

def run (dag : DagRunner Val) (it : IterOrder) (sp : Spawner Val) (co : CompletionOrder Val) :
    Option (Outcome (DagResult (DagOutput Val))) :=
  (dag.finalState it sp co).map fun o => o.map fun r => r.bind RunState.result

end DagRunner

/-- `DagOutput::get`: remove the entry, downcast the `Arc`, take the value out of it. -/
def DagOutput.get (out : DagOutput Val) (handle : TaskHandle Ty) : Outcome (Val handle.ty × DagOutput Val) :=
  match out.outputs.lookup handle.id with
  | none => .error unwrapNone
  | some arc =>
    match arc.inner.downcastRef handle.ty with
    | none => .error (.string "called `Result::unwrap()` on an `Err` value: Any \x7b .. \x7d")
    | some value =>
      if out.strong arc.origin = 1 then .ok (value, { out with outputs := out.outputs.erase handle.id })
      else .error unwrapNone

end Dagx
