import Dagx.Run
import Mathlib.Data.Set.Insert

/-!
# `DagRunner::run` as a transition system

Between two suspensions `run` is sequential, but the futures it awaits resolve whenever they please. A `Machine` is the
state of `run` inside its loop over the layers.

* `Machine.Work`: the steps inside a layer, in any order the code allows: start the next task (inline or through the
  spawner), resolve any future in flight, handle any result. `while let Some(out) = futures.next().await` comes after
  `collect()`: no result is handled while a task of the layer waits to be started;
* `Machine.Step`: also the step to the next layer, taken when nothing is left of this one and no error was recorded;
* `Machine.Reachable`: reached by these steps from the first layer.
-/

namespace Dagx

open System

variable {Ty : Type} [DecidableEq Ty] [Preorder Ty] {Val : Ty → Type}

/-- The state of `run` while it executes its layers. -/
structure Machine (Val : Ty → Type) where
  state : RunState Val
  /-- the current layer -/
  layer : List NodeId
  /-- its tasks not yet started -/
  pending : List NodeId
  /-- the futures created and not yet resolved -/
  inFlight : List (InFlight Val)
  /-- the futures resolved whose result is not yet handled -/
  ready : List (InFlight Val)
  /-- the layers after the current one -/
  rest : List (List NodeId)

/-- What awaiting the pushed future of a spawned task yields, without the node id it carries along. -/
def spawnedOutput (sp : Spawner Val) (f : InFlight Val) : DagResult (Arc Val) := (spawnedResult sp f).map Prod.snd

namespace Machine

def init (dag : DagRunner Val) : List (List NodeId) → Machine Val
  | [] => ⟨dag.initState, [], [], [], [], []⟩
  | layer :: rest => ⟨dag.initState, layer, layer, [], [], rest⟩

/-- The record of what went to the spawner: every task of a layer that is not a single task. -/
def handOver (layer : List NodeId) (id : NodeId) (s : RunState Val) : RunState Val :=
  if layer.length = 1 then s else { s with spawned := s.spawned ++ [id] }

/-- What `run` makes of a future of the given layer. -/
def result (sp : Spawner Val) (layer : List NodeId) (f : InFlight Val) : DagResult (Arc Val) :=
  if layer.length = 1 then inlineResult f else spawnedOutput sp f

/-- The steps inside a layer. -/
inductive Work (edges : PassThroughHashMap (List NodeId)) (sp : Spawner Val) : Machine Val → Machine Val → Prop
  | start (m : Machine Val) (id : NodeId) (pending : List NodeId) (f : InFlight Val) (s : RunState Val)
      (hp : m.pending = id :: pending) (hs : m.state.start edges id = .ok (some f, s)) :
      Work edges sp m { m with state := handOver m.layer id s, pending := pending, inFlight := m.inFlight ++ [f] }
  | skip (m : Machine Val) (id : NodeId) (pending : List NodeId) (s : RunState Val)
      (hp : m.pending = id :: pending) (hs : m.state.start edges id = .ok (none, s)) :
      Work edges sp m { m with state := s, pending := pending }
  | complete (m : Machine Val) (l r : List (InFlight Val)) (f : InFlight Val) (hf : m.inFlight = l ++ f :: r) :
      Work edges sp m { m with state := m.state.complete f, inFlight := l ++ r, ready := m.ready ++ [f] }
  | consume (m : Machine Val) (l r : List (InFlight Val)) (f : InFlight Val) (hp : m.pending = [])
      (hf : m.ready = l ++ f :: r) :
      Work edges sp m { m with state := m.state.consume f.id (result sp m.layer f), ready := l ++ r }

def Idle (m : Machine Val) : Prop := m.pending = [] ∧ m.inFlight = [] ∧ m.ready = []

/-- The steps of `run`. -/
inductive Step (edges : PassThroughHashMap (List NodeId)) (sp : Spawner Val) : Machine Val → Machine Val → Prop
  | work (m m' : Machine Val) (h : Work edges sp m m') : Step edges sp m m'
  | next (m : Machine Val) (layer : List NodeId) (rest : List (List NodeId)) (hidle : m.Idle)
      (he : m.state.firstError = none) (hr : m.rest = layer :: rest) :
      Step edges sp m { m with layer := layer, pending := layer, rest := rest }

def Reachable (dag : DagRunner Val) (it : IterOrder) (sp : Spawner Val) (m : Machine Val) : Prop :=
  System.Reachable (fun m => ∃ layers, dag.computeLayers it = some (.ok (.ok layers)) ∧ m = init dag layers)
    (Step dag.edges sp) m

end Machine

end Dagx
