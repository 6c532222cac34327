import Dagx.Graph
import Dagx.Simulation

/-!
# The scheduler on malformed graphs

Handles of other runners make self-loops, dangling edges and cycles.

* `Scan`: the state of `compute_layers` between two steps of its loops, with the record of every node ever queued;
  `Scan.Step`: a turn of `while !queue.is_empty()`, a turn of `for _ in 0..layer_size`;
* `drainLayer_steps`, `drainQueue_steps`: the loops are runs of these steps;
* `Scan.Inv`: what was queued was queued once: it is in a layer or still in the queue;
* `DagRunner.Wired.finalState_total`: no index operation of `run` panics, whatever the spawner does;
* `Reachable.compute_layers_robust`: all of this for every build history.
-/

namespace Dagx

open Layering Relation

variable {Ty : Type} [Preorder Ty] {Val : Ty → Type}

/-! ## The loops of `compute_layers` as a transition system -/

/-- The state of `compute_layers` between two steps of its loops. -/
structure Scan where
  layers : List (List NodeId)
  state : LayerState
  /-- the turns left of `for _ in 0..layer_size`; `none` outside of it -/
  left : Option Nat
  /-- every node queued so far -/
  queued : List NodeId

namespace Scan

inductive Step (dag : DagRunner Val) : Scan → Scan → Prop
  | enter (c : Scan) (hl : c.left = none) (hq : c.state.queue ≠ []) :
      Step dag c { c with left := some c.state.queue.length }
  | empty (c : Scan) (left : Nat) (hl : c.left = some (left + 1)) (hq : c.state.queue = []) :
      Step dag c { c with left := some left }
  | skip (c : Scan) (left : Nat) (node : NodeId) (queue : List NodeId) (hl : c.left = some (left + 1))
      (hq : c.state.queue = node :: queue) (hv : node ∈ c.state.visited) :
      Step dag c { c with state := { c.state with queue := queue }, left := some left }
  | visit (c : Scan) (left : Nat) (node : NodeId) (queue pushed : List NodeId) (s : LayerState)
      (hl : c.left = some (left + 1)) (hq : c.state.queue = node :: queue) (hv : node ∉ c.state.visited)
      (hs : dag.visit { c.state with queue := queue } node = .ok s) (hpushed : s.queue = queue ++ pushed) :
      Step dag c { c with state := s, left := some left, queued := c.queued ++ pushed }
  | leave (c : Scan) (hl : c.left = some 0) :
      Step dag c { c with
        layers := if c.state.currentLayer.isEmpty then c.layers else c.layers ++ [c.state.currentLayer]
        state := { c.state with currentLayer := [] }
        left := none }

def init (dag : DagRunner Val) (it : IterOrder) : Scan :=
  let inDegree := inDegrees (it.edges.entries dag.edges)
  let queue := sources (it.inDegree.entries inDegree)
  ⟨[], ⟨inDegree, queue, ∅, []⟩, none, queue⟩

def Reachable (dag : DagRunner Val) (it : IterOrder) (c : Scan) : Prop :=
  System.Reachable (· = init dag it) (Step dag) c

end Scan

/-! ## The loops are runs of the steps -/

theorem queue_releaseDependent {s s' : LayerState} {dependent : NodeId} (h : releaseDependent s dependent = .ok s') :
    ∃ pushed, s'.queue = s.queue ++ pushed := by
  unfold releaseDependent at h
  split at h
  · cases h
    exact ⟨[], (List.append_nil _).symm⟩
  · cases h
  · cases h
    dsimp only
    split_ifs
    · exact ⟨_, rfl⟩
    · exact ⟨[], (List.append_nil _).symm⟩

theorem queue_releaseDependents (deps : List NodeId) : ∀ {s s' : LayerState}, releaseDependents deps s = .ok s' →
    ∃ pushed, s'.queue = s.queue ++ pushed := by
  induction deps with
  | nil =>
    intro s s' h
    cases h
    exact ⟨[], (List.append_nil _).symm⟩
  | cons dependent deps ih =>
    intro s s' h
    unfold releaseDependents at h
    split at h
    · rename_i s₁ hs₁
      obtain ⟨first, hfirst⟩ := queue_releaseDependent hs₁
      obtain ⟨pushed, hpushed⟩ := ih h
      exact ⟨first ++ pushed, by rw [hpushed, hfirst, List.append_assoc]⟩
    · cases h

theorem queue_visit {dag : DagRunner Val} {s s' : LayerState} {node : NodeId} (h : dag.visit s node = .ok s') :
    ∃ pushed, s'.queue = s.queue ++ pushed := by
  unfold DagRunner.visit at h
  dsimp only at h
  split at h
  · obtain ⟨pushed, hpushed⟩ := queue_releaseDependents _ h
    exact ⟨pushed, hpushed⟩
  · cases h
    exact ⟨[], (List.append_nil _).symm⟩

theorem drainLayer_steps {dag : DagRunner Val} (layerSize : Nat) : ∀ (c : Scan) {s : LayerState},
    c.left = some layerSize → dag.drainLayer layerSize c.state = .ok s →
    ∃ queued, ReflTransGen (Scan.Step dag) c { c with state := s, left := some 0, queued := queued } := by
  induction layerSize with
  | zero =>
    intro c s hl h
    cases h
    refine ⟨c.queued, ?_⟩
    rw [← hl]
  | succ layerSize ih =>
    intro c s hl h
    unfold DagRunner.drainLayer at h
    split at h
    · rename_i hq
      obtain ⟨queued, hsteps⟩ := ih { c with left := some layerSize } rfl h
      exact ⟨queued, .head (.empty c layerSize hl hq) hsteps⟩
    · rename_i node queue hq
      dsimp only at h
      split_ifs at h with hv
      · obtain ⟨queued, hsteps⟩ :=
          ih { c with state := { c.state with queue := queue }, left := some layerSize } rfl h
        exact ⟨queued, .head (.skip c layerSize node queue hl hq hv) hsteps⟩
      · split at h
        · rename_i s₁ hs₁
          obtain ⟨pushed, hpushed⟩ := queue_visit hs₁
          obtain ⟨queued, hsteps⟩ :=
            ih { c with state := s₁, left := some layerSize, queued := c.queued ++ pushed } rfl h
          exact ⟨queued, .head (.visit c layerSize node queue pushed s₁ hl hq hv hs₁ hpushed) hsteps⟩
        · cases h

/-- The `while` loop, from a state whose `current_layer` is out of scope. -/
theorem drainQueue_steps {dag : DagRunner Val} (fuel : Nat) : ∀ (c : Scan) (current : List NodeId)
    {layers : List (List NodeId)} {s : LayerState}, c.left = none → c.state.currentLayer = [] →
    dag.drainQueue fuel c.layers { c.state with currentLayer := current } = some (.ok (layers, s)) →
    ∃ c', ReflTransGen (Scan.Step dag) c c' ∧ c'.left = none ∧ c'.layers = layers ∧ c'.state.queue = [] ∧
      c'.state.currentLayer = [] := by
  induction fuel with
  | zero =>
    intro c current layers s hl hcur h
    unfold DagRunner.drainQueue at h
    split at h
    · rename_i hq
      cases h
      exact ⟨c, .refl, hl, rfl, hq, hcur⟩
    · cases h
  | succ fuel ih =>
    intro c current layers s hl hcur h
    unfold DagRunner.drainQueue at h
    split at h
    · rename_i hq
      cases h
      exact ⟨c, .refl, hl, rfl, hq, hcur⟩
    · rename_i node queue hq
      have hstate : { c.state with currentLayer := [] } = c.state := by rw [← hcur]
      dsimp only at h hq
      rw [hstate] at h
      split at h
      · cases h
      · rename_i s₁ hs₁
        have henter : Scan.Step dag c { c with left := some c.state.queue.length } :=
          .enter c hl (by rw [hq]; exact List.cons_ne_nil _ _)
        obtain ⟨queued, hsteps⟩ := drainLayer_steps _ { c with left := some c.state.queue.length } rfl hs₁
        set c₁ : Scan := { c with state := s₁, left := some 0, queued := queued }
        set c₂ : Scan := { c₁ with
          layers := if s₁.currentLayer.isEmpty then c.layers else c.layers ++ [s₁.currentLayer]
          state := { s₁ with currentLayer := [] }
          left := none }
        have hleave : Scan.Step dag c₁ c₂ := .leave c₁ rfl
        have hround : ReflTransGen (Scan.Step dag) c c₂ := (ReflTransGen.head henter hsteps).tail hleave
        -- the next turn starts from the state after the layer was pushed
        have hnext : dag.drainQueue fuel c₂.layers { c₂.state with currentLayer := s₁.currentLayer } =
            some (.ok (layers, s)) := by
          by_cases he : s₁.currentLayer.isEmpty
          · have hlayers : c₂.layers = c.layers := if_pos he
            rw [if_pos he] at h
            rw [hlayers]
            exact h
          · have hlayers : c₂.layers = c.layers ++ [s₁.currentLayer] := if_neg he
            rw [if_neg he] at h
            rw [hlayers]
            exact h
        obtain ⟨c', hrest, hc'⟩ := ih c₂ s₁.currentLayer rfl rfl hnext
        exact ⟨c', hround.trans hrest, hc'⟩

/-! ## Nothing is queued twice -/

namespace Scan

structure Inv (dag : DagRunner Val) (c : Scan) : Prop where
  state : c.state.Inv dag
  queued : c.queued = c.layers.flatten ++ c.state.currentLayer ++ c.state.queue
  nodup : c.queued.Nodup
  visited : ∀ n, n ∈ c.state.visited ↔ n ∈ c.layers.flatten ++ c.state.currentLayer

theorem inv_init (dag : DagRunner Val) (it : IterOrder) : (init dag it).Inv dag where
  state := Dagx.inv_init dag it
  queued := rfl
  nodup := (Dagx.inv_init dag it).nodup
  visited n := by simp [init]

variable {dag : DagRunner Val} {c c' : Scan}

theorem Inv.pop (hw : dag.Wired) (h : c.Inv dag) {node : NodeId} {queue : List NodeId}
    (hq : c.state.queue = node :: queue) :
    node ∉ c.state.visited ∧ ∃ s, dag.visit { c.state with queue := queue } node = .ok s := by
  refine ⟨h.state.fresh node (by simp [hq]), ?_⟩
  obtain ⟨s, -, hs, -⟩ := visit_spec hw h.state hq
  exact ⟨s, hs⟩

theorem Inv.visit (hw : dag.Wired) (h : c.Inv dag) {left : Option Nat} {node : NodeId} {queue pushed : List NodeId}
    {s : LayerState} (hq : c.state.queue = node :: queue)
    (hs : dag.visit { c.state with queue := queue } node = .ok s) (hpushed : s.queue = queue ++ pushed) :
    { c with state := s, left := left, queued := c.queued ++ pushed }.Inv dag := by
  obtain ⟨s', pushed', hs', -, hv, hl, hinv⟩ := visit_spec hw h.state hq
  obtain rfl : s' = s := Except.ok.inj (hs'.symm.trans hs)
  have hqueued : c.queued ++ pushed = c.layers.flatten ++ s'.currentLayer ++ s'.queue := by
    rw [h.queued, hq, hpushed, hl]
    simp
  have hvisited : ∀ n, n ∈ s'.visited ↔ n ∈ c.layers.flatten ++ s'.currentLayer := by
    intro n
    rw [hv, hl, Finset.mem_insert, h.visited]
    simp only [List.mem_append, List.mem_singleton]
    rw [or_comm, or_assoc]
  refine ⟨hinv, hqueued, ?_, hvisited⟩
  show (c.queued ++ pushed).Nodup
  -- what was visited is fresh no more, what is queued is queued once
  have hold := h.nodup
  rw [h.queued, hq, ← List.singleton_append, ← List.append_assoc, List.nodup_append] at hold
  rw [hqueued, List.nodup_append]
  refine ⟨?_, hinv.nodup, fun a ha b hb hab => ?_⟩
  · rw [hl, ← List.append_assoc]
    exact hold.1
  · subst hab
    exact hinv.fresh a hb ((hvisited a).mpr ha)

theorem Inv.step (hw : dag.Wired) (h : c.Inv dag) (hs : Step dag c c') : c'.Inv dag := by
  cases hs with
  | enter hl hq => exact ⟨h.state, h.queued, h.nodup, h.visited⟩
  | empty left hl hq => exact ⟨h.state, h.queued, h.nodup, h.visited⟩
  | skip left node queue hl hq hv => exact absurd hv (h.pop hw hq).1
  | visit left node queue pushed s hl hq hv hs hpushed => exact h.visit hw hq hs hpushed
  | leave hl =>
    have hflatten : (if c.state.currentLayer.isEmpty then c.layers else c.layers ++ [c.state.currentLayer]).flatten =
        c.layers.flatten ++ c.state.currentLayer := by
      split_ifs with he
      · rw [List.isEmpty_iff.mp he, List.append_nil]
      · rw [List.flatten_append, List.flatten_singleton]
    refine ⟨⟨h.state.degree, h.state.zero, h.state.nodup, h.state.fresh⟩, ?_, h.nodup, fun n => ?_⟩
    · dsimp only
      rw [hflatten, List.append_nil]
      exact h.queued
    · dsimp only
      rw [hflatten, List.append_nil]
      exact h.visited n

theorem Reachable.inv (hw : dag.Wired) {it : IterOrder} (h : c.Reachable dag it) : c.Inv dag := by
  refine System.Reachable.invariant (I := fun c => c.Inv dag) ?_ (fun _ _ ih hs => ih.step hw hs) h
  rintro c rfl
  exact inv_init dag it

end Scan

/-- The layers returned are those of a run of the loops, and list the nodes in the order in which they were queued. -/
theorem DagRunner.Wired.scan_computeLayers {dag : DagRunner Val} (hw : dag.Wired) {it : IterOrder}
    {layers : List (List NodeId)} (h : dag.computeLayers it = some (.ok (.ok layers))) :
    ∃ c : Scan, c.Reachable dag it ∧ c.layers = layers ∧ c.queued = layers.flatten := by
  unfold DagRunner.computeLayers at h
  dsimp only at h
  split at h
  · cases h
  · cases h
  · rename_i layers' s hrun
    split_ifs at h with hassert
    · cases h
      obtain ⟨c, hsteps, -, hlayers, hq, hcur⟩ := drainQueue_steps _ (Scan.init dag it) [] rfl rfl hrun
      have hreach : c.Reachable dag it := ⟨_, rfl, hsteps⟩
      refine ⟨c, hreach, hlayers, ?_⟩
      rw [(hreach.inv hw).queued, hq, hcur, hlayers, List.append_nil, List.append_nil]
    · cases h

/-! ## `run` -/

variable [DecidableEq Ty]

/-- No index operation of `run` panics, whatever the spawner does. -/
theorem DagRunner.Wired.finalState_total {dag : DagRunner Val} (hw : dag.Wired) (it : IterOrder) (sp : Spawner Val)
    (co : CompletionOrder Val) : ∃ layers t, dag.computeLayers it = some (.ok (.ok layers)) ∧
      RunState.runLayers (RunState.runLayer sp co dag.edges) layers dag.initState = .ok t ∧
      dag.finalState it sp co = some (.ok (.ok t)) := by
  obtain ⟨layers, hrun, hlayers⟩ := hw.computeLayers it
  have hvalid : ∀ layer ∈ layers, ∀ id ∈ layer, dag.initState.Valid dag id := by
    intro layer hl id hid
    obtain ⟨j, -, hat⟩ := (hlayers.mem_flatten id).mp (List.mem_flatten.mpr ⟨layer, hl, hid⟩)
    exact RunState.valid_of_atDepth hw hat rfl
  obtain ⟨t, ht, -⟩ := RunState.runLayers_total sp co layers dag.initState hvalid
  refine ⟨layers, t, hrun, ht, ?_⟩
  rw [DagRunner.finalState, finalStateWith, hrun]
  dsimp only
  rw [ht]
  rfl

theorem DagRunner.Wired.run_total {dag : DagRunner Val} (hw : dag.Wired) (it : IterOrder) (sp : Spawner Val)
    (co : CompletionOrder Val) : ∃ r, dag.run it sp co = some (.ok r) := by
  obtain ⟨-, t, -, -, hfinal⟩ := hw.finalState_total it sp co
  exact ⟨t.result, run_eq hfinal⟩

namespace Session

/-- **The scheduler is robust**: for every build history, whatever handles of other runners it passes, `compute_layers`
terminates without an underflow, and the ids it returns are valid indices and keys, so `run` does not panic. In every
state of its loops no node has been queued twice, the node popped next was not visited, and visiting it does not
underflow. -/
theorem Reachable.compute_layers_robust {foreign : TaskHandle Ty → Prop} {s : Session Val} (hs : s.Reachable foreign)
    (it : IterOrder) :
    (∃ layers, s.dag.computeLayers it = some (.ok (.ok layers)) ∧
        (∃ c : Scan, c.Reachable s.dag it ∧ c.layers = layers ∧ c.queued = layers.flatten) ∧
        ∀ id ∈ layers.flatten, id.index < s.dag.nodes.length ∧ id ∈ s.dag.edges) ∧
      (∀ c : Scan, c.Reachable s.dag it → c.queued.Nodup ∧ ∀ node queue, c.state.queue = node :: queue →
        node ∉ c.state.visited ∧ ∃ t, s.dag.visit { c.state with queue := queue } node = .ok t) ∧
      ∀ (sp : Spawner Val) (co : CompletionOrder Val), ∃ r, s.dag.run it sp co = some (.ok r) := by
  have hw := Reachable.wired hs
  refine ⟨?_, fun c hc => ?_, hw.run_total it⟩
  · obtain ⟨layers, hrun, hlayers⟩ := hw.computeLayers it
    refine ⟨layers, hrun, hw.scan_computeLayers hrun, fun id hid => ?_⟩
    obtain ⟨j, -, hat⟩ := (hlayers.mem_flatten id).mp hid
    have hvalid : s.dag.initState.Valid s.dag id := RunState.valid_of_atDepth hw hat rfl
    exact hvalid
  · exact ⟨(hc.inv hw).nodup, fun node queue => (hc.inv hw).pop hw⟩

end Session

/-! ## A self-loop -/

namespace Sample

/-- A builder wired with a handle of another runner that has its own id. -/
def selfLoop : Session Value :=
  (Session.new.addTask format).dependsOn ⟨.ofLen 0, [.i32], .string⟩ [.foreign ⟨.ofLen 0, .i32⟩]

theorem reachable_selfLoop : selfLoop.Reachable fun _ => True := by
  have hnew : (Session.new : Session Value).Reachable fun _ => True := .of_init rfl
  refine (hnew.step (.addTask _ format rfl)).step (.dependsOn _ _ _ rfl rfl fun a ha => ?_)
  obtain rfl := List.mem_singleton.mp ha
  trivial

end Sample

theorem compute_layers_robust_sample :
    (∃ layers, Sample.selfLoop.dag.computeLayers ⟨.stored _, .stored _⟩ = some (.ok (.ok layers)) ∧
        .ofLen 0 ∉ layers.flatten) ∧
      ∃ r, Sample.selfLoop.dag.run ⟨.stored _, .stored _⟩ .identity .reversed = some (.ok r) := by
  obtain ⟨⟨layers, hrun, -⟩, -, htotal⟩ :=
    Session.Reachable.compute_layers_robust Sample.reachable_selfLoop ⟨.stored _, .stored _⟩
  refine ⟨⟨layers, hrun, ?_⟩, htotal _ _⟩
  have hnone : Sample.selfLoop.dag.computeLayers ⟨.stored _, .stored _⟩ = some (.ok (.ok [])) := by decide
  rw [hnone] at hrun
  cases hrun
  decide

end Dagx
