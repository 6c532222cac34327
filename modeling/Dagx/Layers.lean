import Dagx.Builder
import Mathlib.Data.Finset.Insert

/-!
# `DagRunner::compute_layers` (`runner.rs`)

The loops are transcribed one function each: `releaseDependent` (`for &dependent in deps`), `visit` (an unvisited
node), `drainLayer` (`for _ in 0..layer_size`), `drainQueue` (`while !queue.is_empty()`). `*degree -= 1` panics at zero.
The `while` loop is given fuel and is `none` when it runs out; `computeLayers` gives it one round for every key of
`edges` and one more.
-/

namespace Dagx

variable {Ty : Type} [Preorder Ty] {Val : Ty → Type}

structure LayerState where
  inDegree : PassThroughHashMap Nat
  queue : List NodeId
  visited : Finset NodeId
  currentLayer : List NodeId

/-- One dependent of the node just visited: `*degree -= 1`, queued when that makes zero. -/
def releaseDependent (s : LayerState) (dependent : NodeId) : Outcome LayerState :=
  match s.inDegree.lookup dependent with
  | none => .ok s
  | some 0 => .error subtractOverflow
  | some (degree + 1) =>
    .ok { s with
      inDegree := s.inDegree.insert dependent degree
      queue := if degree = 0 then s.queue ++ [dependent] else s.queue }

/-- `for &dependent in deps`. -/
def releaseDependents : List NodeId → LayerState → Outcome LayerState
  | [], s => .ok s
  | dependent :: deps, s =>
    match releaseDependent s dependent with
    | .ok s => releaseDependents deps s
    | .error payload => .error payload

/-- A popped node that has not been visited. -/
def DagRunner.visit (dag : DagRunner Val) (s : LayerState) (node : NodeId) : Outcome LayerState :=
  let s := { s with currentLayer := s.currentLayer ++ [node], visited := insert node s.visited }
  match dag.dependents.lookup node with
  | some deps => releaseDependents deps s
  | none => .ok s

/-- `for _ in 0..layer_size`. -/
def DagRunner.drainLayer (dag : DagRunner Val) : Nat → LayerState → Outcome LayerState
  | 0, s => .ok s
  | layerSize + 1, s =>
    match s.queue with
    | [] => dag.drainLayer layerSize s
    | node :: queue =>
      let s := { s with queue := queue }
      if node ∈ s.visited then dag.drainLayer layerSize s
      else
        match dag.visit s node with
        | .ok s => dag.drainLayer layerSize s
        | .error payload => .error payload

/-- `while !queue.is_empty()`; it returns the layers and the nodes visited. -/
def DagRunner.drainQueue (dag : DagRunner Val) : Nat → List (List NodeId) → LayerState →
    Option (Outcome (List (List NodeId) × LayerState))
  | fuel, layers, s =>
    match s.queue with
    | [] => some (.ok (layers, s))
    | _ :: _ =>
      match fuel with
      | 0 => none
      | fuel + 1 =>
        match dag.drainLayer s.queue.length { s with currentLayer := [] } with
        | .error payload => some (.error payload)
        | .ok s =>
          if s.currentLayer.isEmpty then dag.drainQueue fuel layers s
          else dag.drainQueue fuel (layers ++ [s.currentLayer]) s

/-- The order in which `compute_layers` iterates its two maps. -/
structure IterOrder where
  edges : Iter (List NodeId)
  inDegree : Iter Nat

/-- The in-degrees, from `self.edges.iter()`. -/
def inDegrees (entries : List (Σ _ : NodeId, List NodeId)) : PassThroughHashMap Nat :=
  entries.foldl (fun inDegree e => inDegree.insert e.1 e.2.length) ∅

/-- The initial queue, from `in_degree.iter()`. -/
def sources (entries : List (Σ _ : NodeId, Nat)) : List NodeId :=
  (entries.filter fun e => e.2 = 0).map Sigma.fst

/-- `compute_layers`; `none` when the fuel runs out. -/
def DagRunner.computeLayers (dag : DagRunner Val) (it : IterOrder) : Option (Outcome (DagResult (List (List NodeId)))) :=
  let inDegree := inDegrees (it.edges.entries dag.edges)
  let queue := sources (it.inDegree.entries inDegree)
  match dag.drainQueue (dag.edges.keys.length + 1) [] ⟨inDegree, queue, ∅, []⟩ with
  | none => none
  | some (.error payload) => some (.error payload)
  | some (.ok (layers, s)) =>
    if s.visited ≠ ∅ ∨ layers.isEmpty then some (.ok (.ok layers))
    else some (.error (assertionFailed "!visited.is_empty() || layers.is_empty()"))

end Dagx
