import Dagx.Kahn
import Dagx.Lib.Dataflow
import Dagx.Machine
import Mathlib.Algebra.GroupWithZero.Nat

/-!
# The invariant of the locals of `run`

* `DagRunner.dataflow`: the graph as a dataflow network, a node fires by calling its task; `dag.Evals n r`: `r` is the
  result of `n` in the recursive evaluation of the graph;
* `DagRunner.Launched`: a future was created with the outputs of its node's dependencies, so it resolves to the node's
  result (`Launched.outcome`);
* `RunState.Inv dag S C D fs`: the state after the nodes in `S` were started, those in `C` completed and the results of
  those in `D` handled, while the futures `fs` are in flight;
* `RunState.Inv.start`, `RunState.Inv.complete`, `RunState.Inv.consume`: what each operation of `run` preserves.
-/

namespace Dagx

open Layering

variable {Ty : Type} {Val : Ty → Type}

/-! ## Histories -/

def started (log : List (Event Val)) : List NodeId :=
  log.filterMap fun e => match e with
    | .start id _ => some id
    | _ => none

def completed (log : List (Event Val)) : List NodeId :=
  log.filterMap fun e => match e with
    | .complete id _ => some id
    | _ => none

@[simp] theorem started_append (log log' : List (Event Val)) : started (log ++ log') = started log ++ started log' :=
  List.filterMap_append

@[simp] theorem completed_append (log log' : List (Event Val)) :
    completed (log ++ log') = completed log ++ completed log' :=
  List.filterMap_append

@[simp] theorem started_start (id : NodeId) (ds : List (Arc Val)) : started [.start id ds] = [id] := rfl
@[simp] theorem started_complete (id : NodeId) (o : Outcome (DagResult (Arc Val))) :
    started [.complete id o] = [] := rfl
@[simp] theorem started_consume (id : NodeId) (r : DagResult (Arc Val)) : started [.consume id r] = [] := rfl
@[simp] theorem completed_start (id : NodeId) (ds : List (Arc Val)) : completed [.start id ds] = [] := rfl
@[simp] theorem completed_complete (id : NodeId) (o : Outcome (DagResult (Arc Val))) :
    completed [.complete id o] = [id] := rfl
@[simp] theorem completed_consume (id : NodeId) (r : DagResult (Arc Val)) : completed [.consume id r] = [] := rfl

theorem mem_started_iff {log : List (Event Val)} {n : NodeId} : n ∈ started log ↔ ∃ ds, .start n ds ∈ log := by
  unfold started
  rw [List.mem_filterMap]
  constructor
  · rintro ⟨e, he, heq⟩
    cases e with
    | start id ds =>
      obtain rfl : id = n := by simpa using heq
      exact ⟨ds, he⟩
    | complete id o => simp at heq
    | consume id r => simp at heq
  · rintro ⟨ds, hds⟩
    exact ⟨_, hds, rfl⟩

theorem mem_completed_iff {log : List (Event Val)} {n : NodeId} : n ∈ completed log ↔ ∃ o, .complete n o ∈ log := by
  unfold completed
  rw [List.mem_filterMap]
  constructor
  · rintro ⟨e, he, heq⟩
    cases e with
    | complete id o =>
      obtain rfl : id = n := by simpa using heq
      exact ⟨o, he⟩
    | start id ds => simp at heq
    | consume id r => simp at heq
  · rintro ⟨o, ho⟩
    exact ⟨_, ho, rfl⟩

/-! ## Outcomes -/

/-- What the future of `n` resolves to when its task returns `r`. -/
def nodeOutcome (n : NodeId) (r : Outcome (AnyVal Val)) : Outcome (DagResult (Arc Val)) := r.map fun v => .ok ⟨n, v⟩

theorem nodeOutcome_ok (n : NodeId) (v : AnyVal Val) : nodeOutcome n (.ok v) = .ok (.ok ⟨n, v⟩) := rfl

theorem nodeOutcome_error (n : NodeId) (p : Payload) :
    (nodeOutcome n (.error p) : Outcome (DagResult (Arc Val))) = .error p := rfl

variable [Preorder Ty]

/-! ## Clones in flight -/

/-- The clones of the output of `n` held by futures in flight. -/
def clones (fs : List (InFlight Val)) (n : NodeId) : Nat :=
  (fs.map fun f => (f.dependencies.map Arc.origin).count n).sum

@[simp] theorem clones_nil (n : NodeId) : clones ([] : List (InFlight Val)) n = 0 := rfl

theorem clones_append (fs gs : List (InFlight Val)) (n : NodeId) : clones (fs ++ gs) n = clones fs n + clones gs n := by
  unfold clones
  rw [List.map_append, List.sum_append]

theorem clones_singleton (f : InFlight Val) (n : NodeId) : clones [f] n = (f.dependencies.map Arc.origin).count n := by
  simp [clones]

theorem clones_cons (l r : List (InFlight Val)) (f : InFlight Val) (n : NodeId) :
    clones (l ++ f :: r) n = clones (l ++ r) n + (f.dependencies.map Arc.origin).count n := by
  rw [List.append_cons, clones_append, clones_append, clones_append, clones_singleton]
  omega

/-! ## Results recorded -/

theorem RunState.log_consume (s : RunState Val) (n : NodeId) (result : DagResult (Arc Val)) :
    (s.consume n result).log = s.log ++ [.consume n result] := by
  cases result <;> rfl

theorem RunState.firstError_consume (s : RunState Val) (n : NodeId) (result : DagResult (Arc Val)) :
    (s.consume n result).firstError = s.firstError.or (match result with | .ok _ => none | .error e => some e) := by
  cases result with
  | ok a => exact (Option.or_none).symm
  | error e => rfl

/-! ## The recursive evaluation of the graph -/

variable [DecidableEq Ty]

/-- The graph as a dataflow network. -/
def DagRunner.dataflow (dag : DagRunner Val) : Dataflow NodeId (AnyVal Val) Payload where
  deps := dag.deps
  fire n vs := (dag.taskOf n).elim (.error unwrapNone) fun node => node.call vs

/-- The result of `n` in the recursive evaluation of the graph. -/
def DagRunner.Evals (dag : DagRunner Val) (n : NodeId) (r : Outcome (AnyVal Val)) : Prop := dag.dataflow.Evals n r

theorem executeWithDeps_eq (node : TypedNode Val) (n : NodeId) (dependencies : List (Arc Val)) :
    node.executeWithDeps n dependencies = nodeOutcome n (node.call (dependencies.map Arc.inner)) := by
  unfold TypedNode.executeWithDeps nodeOutcome
  cases node.call (dependencies.map Arc.inner) <;> rfl

namespace DagRunner

variable {dag : DagRunner Val}

theorem Evals.unique {n : NodeId} {r r' : Outcome (AnyVal Val)} (h : dag.Evals n r) (h' : dag.Evals n r') : r = r' :=
  Dataflow.Evals.unique h h'

theorem Evals.ok_ne_error {n : NodeId} {v : AnyVal Val} {p : Payload} (h : dag.Evals n (.ok v))
    (h' : dag.Evals n (.error p)) : False := by
  cases h.unique h'

/-- The outputs of the dependencies of `n`, in order. -/
def Fed (dag : DagRunner Val) (n : NodeId) (dependencies : List (Arc Val)) : Prop :=
  ∃ ds, dag.deps n = some ds ∧ List.Forall₂ (fun d a => a.origin = d ∧ dag.Evals d (.ok a.inner)) ds dependencies

/-- A future of a node of the graph, created with the outputs of the node's dependencies. -/
structure Launched (dag : DagRunner Val) (f : InFlight Val) : Prop where
  task : dag.taskOf f.id = some f.node
  fed : dag.Fed f.id f.dependencies

theorem Launched.evals {f : InFlight Val} (h : dag.Launched f) :
    dag.Evals f.id (f.node.call (f.dependencies.map Arc.inner)) := by
  obtain ⟨ds, hds, hall⟩ := h.fed
  refine Dataflow.evals_iff.mpr ⟨ds, f.dependencies.map Arc.inner, hds, ?_, ?_⟩
  · rw [List.forall₂_map_right_iff]
    exact hall.imp fun _ _ ha => ha.2
  · show _ = (dag.taskOf f.id).elim _ _
    rw [h.task]
    rfl

theorem Launched.outcome {f : InFlight Val} (h : dag.Launched f) {r : Outcome (AnyVal Val)} (hr : dag.Evals f.id r) :
    f.outcome = nodeOutcome f.id r := by
  rw [InFlight.outcome, executeWithDeps_eq, h.evals.unique hr]

end DagRunner

/-! ## The invariant -/

open Classical in
/-- The locals of `run` after the nodes in `S` were started, those in `C` completed and the results of those in `D`
handled, with the futures `fs` in flight. -/
structure RunState.Inv (dag : DagRunner Val) (S C D : Set NodeId) (fs : List (InFlight Val)) (s : RunState Val) :
    Prop where
  completed_sub : C ⊆ S
  settled_sub : D ⊆ C
  nodes : ∀ n ∉ S, s.nodes[n.index]? = dag.nodes[n.index]?
  stored : ∀ n ∈ D, ∀ v, dag.Evals n (.ok v) → s.outputs.lookup n = some ⟨n, v⟩
  stored_only : ∀ n ∉ D, s.outputs.lookup n = none
  launched : ∀ f ∈ fs, dag.Launched f ∧ ∀ a ∈ f.dependencies, a.origin ∈ C
  strong : ∀ n, s.strong n = (if n ∈ C ∧ ∃ v, dag.Evals n (.ok v) then 1 else 0) + clones fs n
  started_nodup : (started s.log).Nodup
  mem_started : ∀ n, n ∈ started s.log ↔ n ∈ S
  completed_nodup : (completed s.log).Nodup
  mem_completed : ∀ n, n ∈ completed s.log ↔ n ∈ C
  start_fed : ∀ n ds, .start n ds ∈ s.log → dag.Fed n ds
  complete_evals : ∀ n o, .complete n o ∈ s.log → ∃ r, dag.Evals n r ∧ o = nodeOutcome n r
  consumed : ∀ n ∈ D, ∀ v, dag.Evals n (.ok v) → .consume n (.ok ⟨n, v⟩) ∈ s.log

theorem RunState.inv_init (dag : DagRunner Val) : dag.initState.Inv dag ∅ ∅ ∅ [] where
  completed_sub := Set.empty_subset _
  settled_sub := Set.empty_subset _
  nodes _ _ := rfl
  stored n hn := hn.elim
  stored_only _ _ := rfl
  launched f hf := by cases hf
  strong n := by
    rw [if_neg (fun hc => hc.1.elim), clones_nil]
    rfl
  started_nodup := List.nodup_nil
  mem_started n := by
    show n ∈ ([] : List NodeId) ↔ _
    rw [List.mem_nil_iff, Set.mem_empty_iff_false]
  completed_nodup := List.nodup_nil
  mem_completed n := by
    show n ∈ ([] : List NodeId) ↔ _
    rw [List.mem_nil_iff, Set.mem_empty_iff_false]
  start_fed n ds hm := by cases hm
  complete_evals n o hm := by cases hm
  consumed n hn := hn.elim

namespace RunState.Inv

variable {dag : DagRunner Val} {S C D : Set NodeId} {fs : List (InFlight Val)} {s : RunState Val}

theorem spawned (h : s.Inv dag S C D fs) (spawned : List NodeId) : { s with spawned := spawned }.Inv dag S C D fs :=
  ⟨h.completed_sub, h.settled_sub, h.nodes, h.stored, h.stored_only, h.launched, h.strong, h.started_nodup,
    h.mem_started, h.completed_nodup, h.mem_completed, h.start_fed, h.complete_evals, h.consumed⟩

theorem clones_eq_zero (h : s.Inv dag S C D fs) {n : NodeId} (hn : n ∉ C) : clones fs n = 0 := by
  unfold clones
  rw [List.sum_eq_zero_iff_forall_eq_nat]
  intro k hk
  obtain ⟨f, hf, rfl⟩ := List.mem_map.mp hk
  refine List.count_eq_zero.mpr fun hin => ?_
  obtain ⟨a, ha, rfl⟩ := List.mem_map.mp hin
  exact hn ((h.launched f hf).2 a ha)

theorem complete_mem (h : s.Inv dag S C D fs) {n : NodeId} (hn : n ∈ C) {r : Outcome (AnyVal Val)}
    (hr : dag.Evals n r) : .complete n (nodeOutcome n r) ∈ s.log := by
  obtain ⟨o, ho⟩ := mem_completed_iff.mp ((h.mem_completed n).mpr hn)
  obtain ⟨r', hr', rfl⟩ := h.complete_evals n o ho
  rwa [hr.unique hr']

theorem panic_of_mem (h : s.Inv dag S C D fs) {n : NodeId} {p : Payload} (hm : .complete n (.error p) ∈ s.log) :
    n ∈ C ∧ dag.Evals n (.error p) := by
  obtain ⟨r, hr, hout⟩ := h.complete_evals n _ hm
  refine ⟨(h.mem_completed n).mp (mem_completed_iff.mpr ⟨_, hm⟩), ?_⟩
  cases r with
  | ok v => cases hout
  | error q =>
    cases hout
    exact hr

/-! ### Start -/

theorem dependencies_spec (outputs : PassThroughHashMap (Arc Val)) (ds : List NodeId)
    (h : ∀ d ∈ ds, ∃ v, dag.Evals d (.ok v) ∧ outputs.lookup d = some ⟨d, v⟩) :
    List.Forall₂ (fun d a => a.origin = d ∧ dag.Evals d (.ok a.inner)) ds (ds.filterMap outputs.lookup) := by
  induction ds with
  | nil => exact .nil
  | cons d ds ih =>
    obtain ⟨v, hv, hl⟩ := h d List.mem_cons_self
    have hcons : (d :: ds).filterMap outputs.lookup = ⟨d, v⟩ :: ds.filterMap outputs.lookup :=
      List.filterMap_cons_some hl
    rw [hcons]
    exact .cons ⟨rfl, hv⟩ (ih fun e he => h e (List.mem_cons_of_mem d he))

theorem origin_mem_of_forall₂ {ds : List NodeId} {arcs : List (Arc Val)}
    (h : List.Forall₂ (fun d a => a.origin = d ∧ dag.Evals d (.ok a.inner)) ds arcs) {a : Arc Val} (ha : a ∈ arcs) :
    a.origin ∈ ds := by
  induction h with
  | nil => simp at ha
  | cons hda _ ih =>
    rcases List.mem_cons.mp ha with rfl | ha
    · rw [hda.1]
      exact List.mem_cons_self
    · exact List.mem_cons_of_mem _ (ih ha)

/-- **A node is started** once the outputs of its dependencies are stored: its future gets exactly these. -/
theorem start (h : s.Inv dag S C D fs) {id : NodeId} {node : TypedNode Val} {ds : List NodeId}
    (htask : dag.taskOf id = some node) (hdeps : dag.deps id = some ds) (hid : id ∉ S)
    (hready : ∀ d ∈ ds, d ∈ D ∧ ∃ v, dag.Evals d (.ok v)) :
    ∃ dependencies s', s.start dag.edges id = .ok (some ⟨id, node, dependencies⟩, s') ∧
      dag.Launched ⟨id, node, dependencies⟩ ∧ s'.Inv dag (insert id S) C D (fs ++ [⟨id, node, dependencies⟩]) ∧
      s'.log = s.log ++ [.start id dependencies] ∧ s'.firstError = s.firstError ∧ s'.spawned = s.spawned := by
  have hnode : s.nodes[id.index]? = some (some node) := by
    rw [h.nodes id hid]
    exact Option.join_eq_some_iff.mp htask
  have hall := dependencies_spec s.outputs ds fun d hd => by
    obtain ⟨hD, v, hv⟩ := hready d hd
    exact ⟨v, hv, h.stored d hD v hv⟩
  have hfed : dag.Fed id (ds.filterMap s.outputs.lookup) := ⟨ds, hdeps, hall⟩
  have hlaunched : dag.Launched ⟨id, node, ds.filterMap s.outputs.lookup⟩ := ⟨htask, hfed⟩
  have horigin : ∀ a ∈ ds.filterMap s.outputs.lookup, a.origin ∈ C := fun a ha =>
    h.settled_sub (hready _ (origin_mem_of_forall₂ hall ha)).1
  refine ⟨ds.filterMap s.outputs.lookup, { s with
    nodes := s.nodes.set id.index none
    strong := cloneAll (ds.filterMap s.outputs.lookup) s.strong
    log := s.log ++ [.start id (ds.filterMap s.outputs.lookup)] }, ?_, hlaunched, ?_, rfl, rfl, rfl⟩
  · exact start_of_node hnode (DagRunner.deps_eq_some.mp hdeps).1
  · refine ⟨h.completed_sub.trans (Set.subset_insert id S), h.settled_sub, fun n hn => ?_, h.stored, h.stored_only,
      fun f hf => ?_, fun n => ?_, ?_, fun n => ?_, ?_, fun n => ?_, fun n arcs hm => ?_, fun n o hm => ?_,
      fun n hn v hv => List.mem_append_left _ (h.consumed n hn v hv)⟩
    · rw [Set.mem_insert_iff, not_or] at hn
      show (s.nodes.set id.index none)[n.index]? = _
      rw [List.getElem?_set_ne (fun he => hn.1 (NodeId.index_inj.mp he.symm)), h.nodes n hn.2]
    · rcases List.mem_append.mp hf with hf | hf
      · exact h.launched f hf
      · obtain rfl := List.mem_singleton.mp hf
        exact ⟨hlaunched, horigin⟩
    · show s.strong n + _ = _
      rw [h.strong n, clones_append, clones_singleton, Nat.add_assoc]
    · rw [started_append, started_start, List.nodup_append]
      refine ⟨h.started_nodup, List.nodup_singleton _, fun a ha b hb hab => ?_⟩
      obtain rfl := List.mem_singleton.mp hb
      exact hid ((h.mem_started _).mp (hab ▸ ha))
    · rw [started_append, started_start, List.mem_append, List.mem_singleton, h.mem_started, Set.mem_insert_iff,
        or_comm]
    · rw [completed_append, completed_start, List.append_nil]
      exact h.completed_nodup
    · rw [completed_append, completed_start, List.append_nil]
      exact h.mem_completed n
    · rcases List.mem_append.mp hm with hm | hm
      · exact h.start_fed n arcs hm
      · cases List.mem_singleton.mp hm
        exact hfed
    · rcases List.mem_append.mp hm with hm | hm
      · exact h.complete_evals n o hm
      · cases List.mem_singleton.mp hm

/-! ### Completion -/

open Classical in
theorem strong_complete {l r : List (InFlight Val)} {f : InFlight Val} (h : s.Inv dag S C D (l ++ f :: r))
    (hC : f.id ∉ C) {res : Outcome (AnyVal Val)} (hres : dag.Evals f.id res) (n : NodeId) :
    (s.complete f).strong n =
      (if n ∈ insert f.id C ∧ ∃ v, dag.Evals n (.ok v) then 1 else 0) + clones (l ++ r) n := by
  have hout := (h.launched f (by simp)).1.outcome hres
  show allocate s.strong f.outcome n - (f.dependencies.map Arc.origin).count n = _
  rw [hout]
  by_cases hn : n = f.id
  · subst hn
    have hzero := h.clones_eq_zero hC
    have hstrong := h.strong f.id
    rw [if_neg (fun hc => hC hc.1), hzero] at hstrong
    rw [clones_cons] at hzero
    cases res with
    | ok v =>
      rw [nodeOutcome_ok, if_pos ⟨Set.mem_insert _ _, v, hres⟩]
      show Function.update s.strong f.id 1 f.id - _ = _
      rw [Function.update_self]
      omega
    | error p =>
      rw [nodeOutcome_error, if_neg (fun hc => hc.2.elim fun v hv => hv.ok_ne_error hres)]
      show s.strong f.id - _ = _
      omega
  · have hmem : (n ∈ insert f.id C ∧ ∃ v, dag.Evals n (.ok v)) ↔ n ∈ C ∧ ∃ v, dag.Evals n (.ok v) := by
      rw [Set.mem_insert_iff, or_iff_right hn]
    have hsame : allocate s.strong (nodeOutcome f.id res) n = s.strong n := by
      cases res with
      | ok v => exact Function.update_of_ne hn _ _
      | error p => rfl
    rw [hsame, h.strong n, clones_cons]
    by_cases hc : n ∈ C ∧ ∃ v, dag.Evals n (.ok v)
    · rw [if_pos hc, if_pos (hmem.mpr hc)]
      omega
    · rw [if_neg hc, if_neg (mt hmem.mp hc)]
      omega

/-- **A future resolves**: its output has one owner, the clones it held are gone. -/
theorem complete {l r : List (InFlight Val)} {f : InFlight Val} (h : s.Inv dag S C D (l ++ f :: r)) (hS : f.id ∈ S)
    (hC : f.id ∉ C) : (s.complete f).Inv dag S (insert f.id C) D (l ++ r) := by
  obtain ⟨hf, horigin⟩ := h.launched f (by simp)
  obtain ⟨res, hres⟩ : ∃ res, dag.Evals f.id res := ⟨_, hf.evals⟩
  refine ⟨fun n hn => ?_, h.settled_sub.trans (Set.subset_insert _ C), h.nodes, h.stored, h.stored_only, fun g hg => ?_,
    fun n => ?_, ?_, fun n => ?_, ?_, fun n => ?_, fun n arcs hm => ?_, fun n o hm => ?_,
    fun n hn v hv => List.mem_append_left _ (h.consumed n hn v hv)⟩
  · rcases Set.mem_insert_iff.mp hn with rfl | hn
    · exact hS
    · exact h.completed_sub hn
  · obtain ⟨hg, ha⟩ := h.launched g (by rcases List.mem_append.mp hg with hg | hg <;> simp [hg])
    exact ⟨hg, fun a hmem => Set.mem_insert_of_mem _ (ha a hmem)⟩
  · convert h.strong_complete hC hres n
  · show (started (s.log ++ [.complete f.id f.outcome])).Nodup
    rw [started_append, started_complete, List.append_nil]
    exact h.started_nodup
  · show n ∈ started (s.log ++ [.complete f.id f.outcome]) ↔ _
    rw [started_append, started_complete, List.append_nil]
    exact h.mem_started n
  · show (completed (s.log ++ [.complete f.id f.outcome])).Nodup
    rw [completed_append, completed_complete, List.nodup_append]
    refine ⟨h.completed_nodup, List.nodup_singleton _, fun a ha b hb hab => ?_⟩
    obtain rfl := List.mem_singleton.mp hb
    exact hC ((h.mem_completed _).mp (hab ▸ ha))
  · show n ∈ completed (s.log ++ [.complete f.id f.outcome]) ↔ _
    rw [completed_append, completed_complete, List.mem_append, List.mem_singleton, h.mem_completed, Set.mem_insert_iff,
      or_comm]
  · rcases List.mem_append.mp hm with hm | hm
    · exact h.start_fed n arcs hm
    · cases List.mem_singleton.mp hm
  · rcases List.mem_append.mp hm with hm | hm
    · exact h.complete_evals n o hm
    · cases List.mem_singleton.mp hm
      exact ⟨res, hres, hf.outcome hres⟩

/-! ### Handling a result -/

/-- **A result is handled**: an output is stored under its node. -/
theorem consume (h : s.Inv dag S C D fs) {n : NodeId} (hC : n ∈ C) {result : DagResult (Arc Val)}
    (hres : ∀ v, dag.Evals n (.ok v) → result = .ok ⟨n, v⟩) : (s.consume n result).Inv dag S C (insert n D) fs := by
  have hother : ∀ m, m ≠ n → (s.consume n result).outputs.lookup m = s.outputs.lookup m := by
    intro m hm
    cases result with
    | ok a => exact AList.lookup_insert_ne hm
    | error e => rfl
  have hnodes : (s.consume n result).nodes = s.nodes := by cases result <;> rfl
  have hstrong : (s.consume n result).strong = s.strong := by cases result <;> rfl
  have hlog := s.log_consume n result
  refine ⟨h.completed_sub, fun m hm => ?_, fun m hm => by rw [hnodes, h.nodes m hm], fun m hm v hv => ?_,
    fun m hm => ?_, h.launched, fun m => by rw [hstrong, h.strong m], ?_, fun m => ?_, ?_, fun m => ?_, fun m arcs hm => ?_,
    fun m o hm => ?_, fun m hm v hv => ?_⟩
  · rcases Set.mem_insert_iff.mp hm with rfl | hm
    · exact hC
    · exact h.settled_sub hm
  · by_cases hmn : m = n
    · subst hmn
      rw [hres v hv]
      exact AList.lookup_insert _
    · rw [hother m hmn]
      exact h.stored m (Set.mem_of_mem_insert_of_ne hm hmn) v hv
  · rw [Set.mem_insert_iff, not_or] at hm
    rw [hother m hm.1, h.stored_only m hm.2]
  · rw [hlog, started_append, started_consume, List.append_nil]
    exact h.started_nodup
  · rw [hlog, started_append, started_consume, List.append_nil]
    exact h.mem_started m
  · rw [hlog, completed_append, completed_consume, List.append_nil]
    exact h.completed_nodup
  · rw [hlog, completed_append, completed_consume, List.append_nil]
    exact h.mem_completed m
  · rw [hlog] at hm
    rcases List.mem_append.mp hm with hm | hm
    · exact h.start_fed m arcs hm
    · cases List.mem_singleton.mp hm
  · rw [hlog] at hm
    rcases List.mem_append.mp hm with hm | hm
    · exact h.complete_evals m o hm
    · cases List.mem_singleton.mp hm
  · rw [hlog]
    rcases Set.mem_insert_iff.mp hm with rfl | hm
    · rw [hres v hv]
      exact List.mem_append_right _ (List.mem_singleton.mpr rfl)
    · exact List.mem_append_left _ (h.consumed m hm v hv)

end RunState.Inv

end Dagx
