import Dagx.History
import Dagx.Lib.Rounds
import Dagx.Outcome

/-!
# `run` refines the layered scheduler

The results here hold for every build history and every spawner, whatever it makes of the outcomes it is given.

* `Machine.abs`: the machine as a scheduler of layers, the outputs forgotten;
* `Machine.Tracks`: how the locals of `run` and its history hang together: the nodes not taken, the outputs stored, the
  dependencies each task was started with, the error recorded;
* `Tracks.step`: every step of the machine is a step of the scheduler and keeps this;
* `Reachable.run_refines`, `Reachable.run_terminates`: safety and termination of `run`.
-/

namespace Dagx

open Layering System DagRunner

variable {Ty : Type} {Val : Ty → Type}

/-- An entry of the history without the values. -/
def Event.mark : Event Val → Mark NodeId
  | .start id _ => .start id
  | .complete id _ => .complete id
  | .consume id result => .handle id result.isOk

def Event.error : Event Val → Option DagError
  | .consume _ (.error e) => some e
  | _ => none

theorem mark_start_mem {log : List (Event Val)} {n : NodeId} : .start n ∈ log.map Event.mark ↔ n ∈ started log := by
  rw [mem_started_iff, List.mem_map]
  constructor
  · rintro ⟨e, he, hmark⟩
    cases e with
    | start id ds =>
      cases hmark
      exact ⟨ds, he⟩
    | complete id o => cases hmark
    | consume id r => cases hmark
  · rintro ⟨ds, hds⟩
    exact ⟨_, hds, rfl⟩

theorem mark_handle_mem {log : List (Event Val)} {n : NodeId} {good : Bool} :
    .handle n good ∈ log.map Event.mark ↔ ∃ r : DagResult (Arc Val), .consume n r ∈ log ∧ r.isOk = good := by
  rw [List.mem_map]
  constructor
  · rintro ⟨e, he, hmark⟩
    cases e with
    | start id ds => cases hmark
    | complete id o => cases hmark
    | consume id r =>
      cases hmark
      exact ⟨r, he, rfl⟩
  · rintro ⟨r, hr, rfl⟩
    exact ⟨_, hr, rfl⟩

theorem isOk_consumed {pre : List (Event Val)} {d : NodeId} (h : .handle d true ∈ pre.map Event.mark) :
    ∃ a : Arc Val, .consume d (.ok a) ∈ pre := by
  obtain ⟨r, hr, hok⟩ := mark_handle_mem.mp h
  cases r with
  | ok a => exact ⟨a, hr⟩
  | error e => cases hok

variable [Preorder Ty]

/-- A task is started with the outputs handled for its dependencies, in order. -/
def Supplied (edges : PassThroughHashMap (List NodeId)) (pre : List (Event Val)) : Event Val → Prop
  | .start id dependencies =>
    ∃ deps, edges.lookup id = some deps ∧ List.Forall₂ (fun d a => .consume d (.ok a) ∈ pre) deps dependencies
  | _ => True

namespace Machine

/-- The machine as a scheduler of layers. -/
def abs (m : Machine Val) : Rounds NodeId where
  pending := m.pending
  inFlight := m.inFlight.map InFlight.id
  ready := m.ready.map InFlight.id
  rest := m.rest
  failed := m.state.firstError.isSome
  log := m.state.log.map Event.mark

/-- How the locals of `run` and its history hang together. -/
structure Tracks (dag : DagRunner Val) (m : Machine Val) : Prop where
  nodes : ∀ n, n ∉ started m.state.log → m.state.nodes[n.index]? = dag.nodes[n.index]?
  stored : ∀ n a, m.state.outputs.lookup n = some a ↔ .consume n (.ok a) ∈ m.state.log
  supplied : Always (Supplied dag.edges) m.state.log
  blamed : m.state.firstError = m.state.log.findSome? Event.error

theorem tracks_init (dag : DagRunner Val) (layers : List (List NodeId)) : (init dag layers).Tracks dag := by
  have hstate : (init dag layers).state = dag.initState := by cases layers <;> rfl
  refine ⟨fun n _ => by rw [hstate]; rfl, fun n a => ?_, ?_, by rw [hstate]; rfl⟩
  · rw [hstate]
    constructor
    · intro hn
      cases hn
    · intro hn
      cases hn
  · rw [hstate]
    exact always_nil _

theorem abs_init (dag : DagRunner Val) (layers : List (List NodeId)) : (init dag layers).abs = Rounds.init layers := by
  cases layers <;> rfl

theorem tracked_init (dag : DagRunner Val) (layers : List (List NodeId)) :
    (init dag layers).abs.Reachable layers ∧ (init dag layers).Tracks dag :=
  ⟨.of_init (abs_init dag layers), tracks_init dag layers⟩

def Stopped (m : Machine Val) : Prop := m.Idle ∧ (m.state.firstError.isSome ∨ m.rest = [])

theorem abs_idle {m : Machine Val} : m.abs.Idle ↔ m.Idle := by
  unfold Idle Rounds.Idle abs
  rw [List.map_eq_nil_iff, List.map_eq_nil_iff]

theorem abs_stopped {m : Machine Val} : m.abs.Stopped ↔ m.Stopped := by
  rw [Stopped, Rounds.Stopped, abs_idle]
  rfl

variable {dag : DagRunner Val} {sp : Spawner Val} {k : Nat} {m m' : Machine Val}

theorem Tracks.dependencies (h : m.Tracks dag) (deps : List NodeId)
    (hdeps : ∀ d ∈ deps, ∃ a : Arc Val, .consume d (.ok a) ∈ m.state.log) :
    List.Forall₂ (fun d a => .consume d (.ok a) ∈ m.state.log) deps (deps.filterMap m.state.outputs.lookup) := by
  induction deps with
  | nil => exact .nil
  | cons d deps ih =>
    obtain ⟨a, ha⟩ := hdeps d List.mem_cons_self
    have hcons : (d :: deps).filterMap m.state.outputs.lookup = a :: deps.filterMap m.state.outputs.lookup :=
      List.filterMap_cons_some ((h.stored d a).mpr ha)
    rw [hcons]
    exact .cons ha (ih fun e he => hdeps e (List.mem_cons_of_mem d he))

theorem Tracks.start_spec (hw : dag.Wired) (h : m.Tracks dag) (hinv : m.abs.Inv dag.deps k) {id : NodeId}
    {pending : List NodeId} (hp : m.pending = id :: pending) :
    ∃ node dependencies, m.state.start dag.edges id = .ok (some ⟨id, node, dependencies⟩,
        { m.state with
          nodes := m.state.nodes.set id.index none
          strong := cloneAll dependencies m.state.strong
          log := m.state.log ++ [.start id dependencies] }) ∧
      Supplied dag.edges m.state.log (.start id dependencies) := by
  have hmem : id ∈ m.abs.pending := by simp [abs, hp]
  obtain ⟨⟨deps, hdeps, hready⟩, -⟩ := hinv.atDepth id (Rounds.mem_busy.mpr (Or.inl hmem))
  have hlookup := (deps_eq_some.mp hdeps).1
  obtain ⟨node, hnode⟩ := hw.task id (hw.index_lt hlookup)
  have hfresh : id ∉ started m.state.log := fun hs =>
    ((hinv.start_mem id).mp (mark_start_mem.mpr hs)).2 hmem
  have htaken : m.state.nodes[id.index]? = some (some node) := by
    rw [h.nodes id hfresh]
    exact Option.join_eq_some_iff.mp hnode
  refine ⟨node, deps.filterMap m.state.outputs.lookup, RunState.start_of_node htaken hlookup, deps, hlookup, ?_⟩
  exact h.dependencies deps fun d hd => isOk_consumed (hinv.below d (hready d hd))

theorem Tracks.start (hw : dag.Wired) (h : m.Tracks dag) (hinv : m.abs.Inv dag.deps k) {id : NodeId}
    {pending : List NodeId} {f : InFlight Val} {s : RunState Val} (hp : m.pending = id :: pending)
    (hs : m.state.start dag.edges id = .ok (some f, s)) :
    Rounds.Step m.abs
        { m with state := handOver m.layer id s, pending := pending, inFlight := m.inFlight ++ [f] }.abs ∧
      { m with state := handOver m.layer id s, pending := pending, inFlight := m.inFlight ++ [f] }.Tracks dag := by
  obtain ⟨node, dependencies, hs', hsupplied⟩ := h.start_spec hw hinv hp
  rw [hs'] at hs
  cases hs
  set s : RunState Val := { m.state with
    nodes := m.state.nodes.set id.index none
    strong := cloneAll dependencies m.state.strong
    log := m.state.log ++ [.start id dependencies] } with hstate
  have hover : (handOver m.layer id s).nodes = s.nodes ∧ (handOver m.layer id s).outputs = s.outputs ∧
      (handOver m.layer id s).firstError = s.firstError ∧ (handOver m.layer id s).log = s.log := by
    unfold handOver
    split_ifs <;> exact ⟨rfl, rfl, rfl, rfl⟩
  obtain ⟨hnodes, houtputs, herror, hlog⟩ := hover
  constructor
  · have hstep := Rounds.Step.start m.abs id pending hp
    convert hstep using 1
    simp only [abs, herror, hlog]
    simp [hstate, Event.mark]
  · refine ⟨fun n hn => ?_, fun n a => ?_, ?_, ?_⟩
    · show (handOver m.layer id s).nodes[n.index]? = _
      have hn : n ∉ started (handOver m.layer id s).log := hn
      rw [hlog, started_append, started_start, List.mem_append, List.mem_singleton, not_or] at hn
      rw [hnodes]
      show (m.state.nodes.set id.index none)[n.index]? = _
      rw [List.getElem?_set_ne (fun he => hn.2 (NodeId.index_inj.mp he.symm)), h.nodes n hn.1]
    · show (handOver m.layer id s).outputs.lookup n = some a ↔ _ ∈ (handOver m.layer id s).log
      rw [houtputs, hlog]
      simp [hstate, h.stored]
    · show Always _ (handOver m.layer id s).log
      rw [hlog]
      exact always_append_singleton.mpr ⟨h.supplied, hsupplied⟩
    · show (handOver m.layer id s).firstError = (handOver m.layer id s).log.findSome? Event.error
      rw [herror, hlog, List.findSome?_append, ← h.blamed]
      exact Option.or_none.symm

theorem Tracks.consume (h : m.Tracks dag) (hinv : m.abs.Inv dag.deps k) {l r : List (InFlight Val)} {f : InFlight Val}
    (hp : m.pending = []) (hf : m.ready = l ++ f :: r) (result : DagResult (Arc Val)) :
    Rounds.Step m.abs { m with state := m.state.consume f.id result, ready := l ++ r }.abs ∧
      { m with state := m.state.consume f.id result, ready := l ++ r }.Tracks dag := by
  have hlog := m.state.log_consume f.id result
  have hbusy : f.id ∈ m.abs.busy := Rounds.mem_busy.mpr (Or.inr (Or.inr (by simp [abs, hf])))
  -- no result of this task was handled before
  have hfirst : ∀ res : DagResult (Arc Val), .consume f.id res ∉ m.state.log := fun res hres =>
    ((hinv.handle_mem f.id).mp ⟨_, mark_handle_mem.mpr ⟨res, hres, rfl⟩⟩).2 hbusy
  constructor
  · have hstep := Rounds.Step.handle m.abs (l.map InFlight.id) (r.map InFlight.id) f.id result.isOk hp
      (by simp [abs, hf])
    convert hstep using 1
    simp only [abs, hlog, RunState.firstError_consume, List.map_append, List.map_cons, List.map_nil, Event.mark]
    cases result with
    | ok a => simp [Except.isOk, Except.toBool]
    | error e => simp [Except.isOk, Except.toBool]
  · refine ⟨fun n hn => ?_, fun n a => ?_, ?_, ?_⟩
    · have hn : n ∉ started (m.state.consume f.id result).log := hn
      rw [hlog, started_append, started_consume, List.append_nil] at hn
      have hnodes : (m.state.consume f.id result).nodes = m.state.nodes := by cases result <;> rfl
      show (m.state.consume f.id result).nodes[n.index]? = _
      rw [hnodes]
      exact h.nodes n hn
    · show (m.state.consume f.id result).outputs.lookup n = some a ↔ _ ∈ (m.state.consume f.id result).log
      rw [hlog, List.mem_append, List.mem_singleton, ← h.stored]
      cases result with
      | error e => simp [RunState.consume]
      | ok b =>
        show (m.state.outputs.insert f.id b).lookup n = some a ↔ _
        by_cases hn : n = f.id
        · subst hn
          have hnone : m.state.outputs.lookup f.id ≠ some a := fun hsome => hfirst _ ((h.stored f.id a).mp hsome)
          rw [AList.lookup_insert]
          simp [hnone, eq_comm]
        · rw [AList.lookup_insert_ne hn]
          simp [hn]
    · show Always _ (m.state.consume f.id result).log
      rw [hlog]
      exact always_append_singleton.mpr ⟨h.supplied, trivial⟩
    · show (m.state.consume f.id result).firstError = (m.state.consume f.id result).log.findSome? Event.error
      rw [hlog, List.findSome?_append, ← h.blamed, RunState.firstError_consume]
      cases result <;> rfl

variable [DecidableEq Ty]

theorem Tracks.complete (h : m.Tracks dag) {l r : List (InFlight Val)} {f : InFlight Val}
    (hf : m.inFlight = l ++ f :: r) :
    Rounds.Step m.abs { m with state := m.state.complete f, inFlight := l ++ r, ready := m.ready ++ [f] }.abs ∧
      { m with state := m.state.complete f, inFlight := l ++ r, ready := m.ready ++ [f] }.Tracks dag := by
  constructor
  · have hstep := Rounds.Step.complete m.abs (l.map InFlight.id) (r.map InFlight.id) f.id (by simp [abs, hf])
    convert hstep using 1
    simp [abs, RunState.complete, Event.mark]
  · refine ⟨fun n hn => ?_, fun n a => ?_, ?_, ?_⟩
    · have hn : n ∉ started (m.state.log ++ [.complete f.id f.outcome]) := hn
      rw [started_append, started_complete, List.append_nil] at hn
      exact h.nodes n hn
    · show m.state.outputs.lookup n = some a ↔ _ ∈ m.state.log ++ [Event.complete f.id f.outcome]
      simp [h.stored]
    · exact always_append_singleton.mpr ⟨h.supplied, trivial⟩
    · show m.state.firstError = (m.state.log ++ [Event.complete f.id f.outcome]).findSome? Event.error
      rw [List.findSome?_append, ← h.blamed]
      exact Option.or_none.symm

/-- **Every step of the machine is a step of the scheduler**, whatever the spawner does. -/
theorem Tracks.step (hw : dag.Wired) (h : m.Tracks dag) (hinv : ∃ k, m.abs.Inv dag.deps k)
    (hs : Step dag.edges sp m m') : Rounds.Step m.abs m'.abs ∧ m'.Tracks dag := by
  obtain ⟨k, hinv⟩ := hinv
  cases hs with
  | work m' hwork =>
    cases hwork with
    | start id pending f s hp hs => exact h.start hw hinv hp hs
    | skip id pending s hp hs =>
      -- the task of a node is taken once
      obtain ⟨_, _, hs', -⟩ := h.start_spec hw hinv hp
      rw [hs'] at hs
      cases hs
    | complete l r f hf => exact h.complete hf
    | consume l r f hp hf => exact h.consume hinv hp hf _
  | next layer rest hidle he hr =>
    refine ⟨?_, h.nodes, h.stored, h.supplied, h.blamed⟩
    exact Rounds.Step.next m.abs layer rest (abs_idle.mpr hidle) (by simp [abs, he]) hr

/-- **The machine never gets stuck** before the scheduler has stopped. -/
theorem Tracks.exists_step (hw : dag.Wired) (h : m.Tracks dag) (hinv : ∃ k, m.abs.Inv dag.deps k) {r : Rounds NodeId}
    (hs : Rounds.Step m.abs r) (sp : Spawner Val) : ∃ m', Step dag.edges sp m m' := by
  obtain ⟨k, hinv⟩ := hinv
  cases hs with
  | start id pending hp =>
    obtain ⟨node, dependencies, hs', -⟩ := h.start_spec hw hinv hp
    exact ⟨_, .work _ _ (.start m id pending _ _ hp hs')⟩
  | complete a b n hf =>
    obtain ⟨l, r, hl, -, hr⟩ := List.map_eq_append_iff.mp hf
    obtain ⟨f, r, rfl, rfl, rfl⟩ := List.map_eq_cons_iff.mp hr
    exact ⟨_, .work _ _ (.complete m l r f hl)⟩
  | handle a b n good hp hf =>
    obtain ⟨l, r, hl, -, hr⟩ := List.map_eq_append_iff.mp hf
    obtain ⟨f, r, rfl, rfl, rfl⟩ := List.map_eq_cons_iff.mp hr
    exact ⟨_, .work _ _ (.consume m l r f hp hl)⟩
  | next layer rest hidle he hr =>
    exact ⟨_, .next m layer rest (abs_idle.mp hidle) (by simpa [abs] using he) hr⟩

theorem tracked_step (hw : dag.Wired) {layers : List (List NodeId)} (hl : Layered dag.deps 0 layers)
    (hs : Step dag.edges sp m m')
    (h : m.abs.Reachable layers ∧ m.Tracks dag) : m'.abs.Reachable layers ∧ m'.Tracks dag := by
  obtain ⟨hreach, htracks⟩ := h
  obtain ⟨hstep, htracks'⟩ := htracks.step hw (hreach.inv hl) hs
  exact ⟨hreach.step hstep, htracks'⟩

/-- **Every reachable machine is a reachable scheduler of the layers computed.** -/
theorem Reachable.abs (hw : dag.Wired) {it : IterOrder} (h : m.Reachable dag it sp) :
    ∃ layers, dag.computeLayers it = some (.ok (.ok layers)) ∧ Layered dag.deps 0 layers ∧
      m.abs.Reachable layers ∧ m.Tracks dag := by
  obtain ⟨layers, hrun, hlayers⟩ := hw.computeLayers it
  refine ⟨layers, hrun, hlayers, System.Reachable.invariant
    (I := fun m => m.abs.Reachable layers ∧ m.Tracks dag) ?_ (fun _ _ ih hs => tracked_step hw hlayers hs ih) h⟩
  rintro m ⟨layers', hrun', rfl⟩
  rw [hrun] at hrun'
  cases hrun'
  exact tracked_init dag layers

/-- **Every run can be carried to its end.** -/
theorem Reachable.exists_stopped (hw : dag.Wired) {it : IterOrder} (h : m.Reachable dag it sp) :
    ∃ m', Relation.ReflTransGen (Step dag.edges sp) m m' ∧ m'.Reachable dag it sp ∧ m'.Stopped := by
  obtain ⟨layers, -, hlayers, htracked⟩ := h.abs hw
  have hstep := fun (m m' : Machine Val) (ht : m.abs.Reachable layers ∧ m.Tracks dag) (hs : Step dag.edges sp m m') =>
    tracked_step hw hlayers hs ht
  have hwork := fun (m m' : Machine Val) (ht : m.abs.Reachable layers ∧ m.Tracks dag) (hs : Step dag.edges sp m m') =>
    (ht.2.step hw (ht.1.inv hlayers) hs).1.work
  obtain ⟨m', hrun, ⟨hreach, htracks⟩, hstuck⟩ := exists_stuck hstep hwork htracked
  obtain ⟨m₀, h₀, hr⟩ := h
  refine ⟨m', hrun, ⟨m₀, h₀, hr.trans hrun⟩, ?_⟩
  rw [← abs_stopped, Rounds.stopped_iff]
  intro r hr'
  obtain ⟨m'', hm''⟩ := htracks.exists_step hw (hreach.inv hlayers) hr' sp
  exact hstuck m'' hm''

end Machine

/-! ## Safety and termination -/

namespace Session

variable [DecidableEq Ty] {foreign : TaskHandle Ty → Prop} {s : Session Val}

/-- **`run` is safe whatever the spawner does**, for every build history. In every reachable state the history is one of
the layered scheduler, so every entry is permitted by the dependency-driven executor: a task is started once, after good
results of all of its dependencies were handled, and never after an error; it completes once, its result is handled once.
Each task was started with exactly the outputs handled for its dependencies, in order; the outputs stored are those
handled; the error recorded is the first one handled. -/
theorem Reachable.run_refines (hs : s.Reachable foreign) {it : IterOrder} {sp : Spawner Val} {m : Machine Val}
    (hm : m.Reachable s.dag it sp) :
    (∃ layers, s.dag.computeLayers it = some (.ok (.ok layers)) ∧ m.abs.Reachable layers) ∧
      Always (Permits s.dag.deps) (m.state.log.map Event.mark) ∧ Always (Supplied s.dag.edges) m.state.log ∧
      (∀ n a, m.state.outputs.lookup n = some a ↔ .consume n (.ok a) ∈ m.state.log) ∧
      m.state.firstError = m.state.log.findSome? Event.error := by
  obtain ⟨layers, hrun, hlayers, hreach, htracks⟩ := hm.abs (Reachable.wired hs)
  exact ⟨⟨layers, hrun, hreach⟩, hreach.permitted hlayers, htracks.supplied, htracks.stored, htracks.blamed⟩

/-- **`run` terminates whatever the spawner does**, for every build history: there is no infinite run; a run of `n`
steps has done `n` of the `3` units of work for each task and `1` for each change of layers; it can go on unless it has
stopped; and when it stopped without an error, the outputs of all tasks of all layers are stored. -/
theorem Reachable.run_terminates (hs : s.Reachable foreign) (it : IterOrder) (sp : Spawner Val) :
    ∃ layers, s.dag.computeLayers it = some (.ok (.ok layers)) ∧
      (∀ f : Nat → Machine Val, f 0 = Machine.init s.dag layers →
        ¬ ∀ i, Machine.Step s.dag.edges sp (f i) (f (i + 1))) ∧
      ∀ n m, Steps (Machine.Step s.dag.edges sp) n (Machine.init s.dag layers) m →
        n + m.abs.work = 3 * layers.flatten.length + (layers.length - 1) ∧
        (m.Stopped ↔ ∀ m', ¬ Machine.Step s.dag.edges sp m m') ∧
        (m.Stopped → m.state.firstError = none →
          m.abs.work = 0 ∧ ∀ id ∈ layers.flatten, id ∈ m.state.outputs) := by
  have hw := Reachable.wired hs
  obtain ⟨layers, hrun, hlayers⟩ := hw.computeLayers it
  have hinit := Machine.tracked_init s.dag layers
  have hstep := fun (m m' : Machine Val) (h : m.abs.Reachable layers ∧ m.Tracks s.dag)
    (hm : Machine.Step s.dag.edges sp m m') => Machine.tracked_step hw hlayers hm h
  have hwork := fun (m m' : Machine Val) (h : m.abs.Reachable layers ∧ m.Tracks s.dag)
    (hm : Machine.Step s.dag.edges sp m m') => (h.2.step hw (h.1.inv hlayers) hm).1.work
  refine ⟨layers, hrun, fun f h₀ => ?_, fun n m hm => ?_⟩
  · exact no_infinite_run hstep hwork f (by rw [h₀]; exact hinit)
  · obtain ⟨hreach, htracks⟩ := hm.invariant hstep hinit
    have hinv := hreach.inv hlayers
    refine ⟨?_, ?_, fun hstop he => ⟨?_, fun id hid => ?_⟩⟩
    · have htotal := hm.work hstep hwork hinit
      rw [Machine.abs_init, Rounds.work_init] at htotal
      omega
    · rw [← Machine.abs_stopped, Rounds.stopped_iff]
      constructor
      · intro hno m' hs'
        exact hno _ (htracks.step hw hinv hs').1
      · intro hno r hr
        obtain ⟨m', hm'⟩ := htracks.exists_step hw hinv hr sp
        exact hno m' hm'
    · obtain ⟨⟨hp, hf, hq⟩, hend⟩ := hstop
      have hrest : m.rest = [] := hend.resolve_left (by simp [he])
      simp [Machine.abs, Rounds.work, hp, hf, hq, hrest]
    · obtain ⟨j, -, hat⟩ := (hlayers.mem_flatten id).mp hid
      have hgood := hreach.handled hlayers (Machine.abs_stopped.mpr hstop) (by simp [Machine.abs, he]) hat.1
      obtain ⟨a, ha⟩ := isOk_consumed hgood
      rw [← AList.lookup_isSome, (htracks.stored id a).mpr ha]
      rfl

end Session

/-! ## On the sample -/

namespace Sample

/-- A spawner that makes an output of a panic. -/
def lying : Spawner Value := fun id o =>
  match o with
  | .error _ => .ok (.ok ⟨id, ⟨.i32, (7 : Int)⟩⟩)
  | .ok r => .ok r

theorem exists_stopped (task : TypedNode Value) (hin : task.Input = []) (hout : task.Output = .i32) (it : IterOrder)
    (sp : Spawner Value) : ∃ m : Machine Value, m.Reachable (session task).dag it sp ∧ m.Stopped := by
  have hw := Session.Reachable.wired (wellWired_session task hin hout).own
  obtain ⟨layers, hrun, -⟩ := hw.computeLayers it
  have hinit : (Machine.init (session task).dag layers).Reachable (session task).dag it sp :=
    .of_init ⟨layers, hrun, rfl⟩
  obtain ⟨m, -, hm, hstop⟩ := hinit.exists_stopped hw
  exact ⟨m, hm, hstop⟩

end Sample

theorem run_refines_sample : ∃ m : Machine Sample.Value,
    m.Reachable (Sample.session Sample.boom).dag ⟨.stored _, .stored _⟩ Sample.lying ∧ m.Stopped ∧
      m.state.firstError = m.state.log.findSome? Event.error := by
  have hs := Sample.wellWired_session Sample.boom rfl rfl
  obtain ⟨m, hm, hstop⟩ := Sample.exists_stopped Sample.boom rfl rfl ⟨.stored _, .stored _⟩ Sample.lying
  obtain ⟨-, -, -, -, hblamed⟩ := Session.Reachable.run_refines hs.own hm
  exact ⟨m, hm, hstop, hblamed⟩

/-- The five tasks of the sample in three layers: 17 steps. -/
theorem run_terminates_sample : ∃ layers,
    (Sample.session Sample.boom).dag.computeLayers ⟨.stored _, .stored _⟩ = some (.ok (.ok layers)) ∧
      ∀ n m, Steps (Machine.Step (Sample.session Sample.boom).dag.edges Sample.lying) n
        (Machine.init (Sample.session Sample.boom).dag layers) m → m.Stopped → m.state.firstError = none → n = 17 := by
  have hs := Sample.wellWired_session Sample.boom rfl rfl
  obtain ⟨layers, hrun, -, hruns⟩ := Session.Reachable.run_terminates hs.own ⟨.stored _, .stored _⟩ Sample.lying
  refine ⟨layers, hrun, fun n m hm hstop he => ?_⟩
  obtain ⟨hn, -, hend⟩ := hruns n m hm
  have hlayers : (Sample.session Sample.boom).dag.computeLayers ⟨.stored _, .stored _⟩ =
      some (.ok (.ok [[.ofLen 0, .ofLen 1], [.ofLen 2], [.ofLen 3, .ofLen 4]])) := by decide
  rw [hlayers] at hrun
  cases hrun
  rw [(hend hstop he).1] at hn
  exact hn

end Dagx
