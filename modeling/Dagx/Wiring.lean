import Dagx.Builder

/-!
# The graph a build history leaves behind

* `edgesOf_addTask`, `dependentsOf_addTask`, `edgesOf_dependsOn`, `dependentsOf_dependsOn`: what each call does to the
  adjacency lists;
* `DagRunner.addedAt`: which call of `add_task` an id stands for; ids wrap around at `2 ^ 32` tasks;
* `DagRunner.Wired`: both maps have exactly the ids of the tasks as keys, and `n` occurs among the dependents of `d` as
  often as `d` among the dependencies of `n`, unless `d` is later than `n`: then it does not occur there at all;
* `Session.Reachable.wired`: this holds after every build history, foreign handles included;
* `Session.Inv`: the invariant of every build history below `2 ^ 32` tasks (`Session.Reachable.inv`);
* `Session.OwnHandles.lt`: with handles of the same runner every dependency is earlier than the task.
-/

namespace Dagx

variable {Ty : Type} [Preorder Ty] {Val : Ty → Type}

namespace DagRunner

/-! ## Adjacency after `add_task` -/

variable (dag : DagRunner Val) (task : TypedNode Val)

@[simp] theorem addTask_fst : (dag.addTask task).1 = .ofLen dag.nodes.length := rfl

@[simp] theorem nodes_addTask : (dag.addTask task).2.nodes = dag.nodes ++ [some task] := rfl

theorem edgesOf_addTask (n : NodeId) :
    (dag.addTask task).2.edgesOf n = if n = .ofLen dag.nodes.length then [] else dag.edgesOf n := by
  unfold edgesOf addTask
  split_ifs with h
  · rw [h, AList.lookup_insert]
    rfl
  · rw [AList.lookup_insert_ne h]

theorem dependentsOf_addTask (n : NodeId) :
    (dag.addTask task).2.dependentsOf n = if n = .ofLen dag.nodes.length then [] else dag.dependentsOf n := by
  unfold dependentsOf addTask
  split_ifs with h
  · rw [h, AList.lookup_insert]
    rfl
  · rw [AList.lookup_insert_ne h]

theorem mem_edges_addTask (n : NodeId) :
    n ∈ (dag.addTask task).2.edges ↔ n = .ofLen dag.nodes.length ∨ n ∈ dag.edges := AList.mem_insert _

theorem mem_dependents_addTask (n : NodeId) :
    n ∈ (dag.addTask task).2.dependents ↔ n = .ofLen dag.nodes.length ∨ n ∈ dag.dependents := AList.mem_insert _

theorem taskOf_addTask (n : NodeId) (hlen : dag.nodes.length < 2 ^ 32) :
    (dag.addTask task).2.taskOf n = if n = .ofLen dag.nodes.length then some task else dag.taskOf n := by
  have hidx : n = .ofLen dag.nodes.length ↔ n.index = dag.nodes.length := by
    rw [← NodeId.index_inj, NodeId.index_ofLen_of_lt hlen]
  unfold taskOf
  rw [nodes_addTask]
  split_ifs with h
  · rw [hidx.mp h]
    simp
  · have hne : n.index ≠ dag.nodes.length := fun he => h (hidx.mpr he)
    rcases Nat.lt_or_ge n.index dag.nodes.length with hlt | hge
    · rw [List.getElem?_append_left hlt]
    · rw [List.getElem?_eq_none (by simp; omega), List.getElem?_eq_none hge]

/-! ## Adjacency after `depends_on` -/

variable (id : NodeId) (deps : List NodeId)

@[simp] theorem nodes_dependsOn : (dag.dependsOn id deps).nodes = dag.nodes := by
  induction deps generalizing dag with
  | nil => rfl
  | cons dep deps ih => exact ih (wire id dag dep)

@[simp] theorem taskOf_dependsOn (n : NodeId) : (dag.dependsOn id deps).taskOf n = dag.taskOf n := by
  unfold taskOf
  rw [nodes_dependsOn]

@[simp] theorem mem_edges_dependsOn (n : NodeId) : n ∈ (dag.dependsOn id deps).edges ↔ n ∈ dag.edges := by
  induction deps generalizing dag with
  | nil => rfl
  | cons dep deps ih => exact (ih (wire id dag dep)).trans (PassThroughHashMap.mem_push _ _ _ _)

@[simp] theorem mem_dependents_dependsOn (n : NodeId) :
    n ∈ (dag.dependsOn id deps).dependents ↔ n ∈ dag.dependents := by
  induction deps generalizing dag with
  | nil => rfl
  | cons dep deps ih => exact (ih (wire id dag dep)).trans (PassThroughHashMap.mem_push _ _ _ _)

theorem edgesOf_wire (dep n : NodeId) (hid : id ∈ dag.edges) :
    (wire id dag dep).edgesOf n = if n = id then dag.edgesOf n ++ [dep] else dag.edgesOf n := by
  unfold edgesOf wire
  rw [PassThroughHashMap.lookup_push]
  split_ifs with h
  · subst h
    obtain ⟨l, hl⟩ := Option.isSome_iff_exists.mp (AList.lookup_isSome.mpr hid)
    rw [hl]
    rfl
  · rfl

theorem edgesOf_dependsOn (n : NodeId) (hid : id ∈ dag.edges) :
    (dag.dependsOn id deps).edgesOf n = if n = id then dag.edgesOf n ++ deps else dag.edgesOf n := by
  induction deps generalizing dag with
  | nil => simp [dependsOn]
  | cons dep deps ih =>
    have hid' : id ∈ (wire id dag dep).edges := (PassThroughHashMap.mem_push _ _ _ _).mpr hid
    have hstep : (dag.dependsOn id (dep :: deps)).edgesOf n = ((wire id dag dep).dependsOn id deps).edgesOf n := rfl
    rw [hstep, ih (wire id dag dep) hid', edgesOf_wire dag id dep n hid]
    split_ifs <;> simp

theorem dependentsOf_wire (dep n : NodeId) :
    (wire id dag dep).dependentsOf n =
      if n = dep ∧ n ∈ dag.dependents then dag.dependentsOf n ++ [id] else dag.dependentsOf n := by
  unfold dependentsOf wire
  rw [PassThroughHashMap.lookup_push]
  by_cases h : n = dep
  · by_cases hn : n ∈ dag.dependents
    · obtain ⟨l, hl⟩ := Option.isSome_iff_exists.mp (AList.lookup_isSome.mpr hn)
      rw [if_pos h, if_pos ⟨h, hn⟩, hl]
      rfl
    · rw [if_pos h, if_neg (fun hc => hn hc.2), AList.lookup_eq_none.mpr hn]
      rfl
  · rw [if_neg h, if_neg (fun hc => h hc.1)]

theorem dependentsOf_dependsOn (n : NodeId) :
    (dag.dependsOn id deps).dependentsOf n =
      if n ∈ dag.dependents then dag.dependentsOf n ++ List.replicate (deps.count n) id else [] := by
  induction deps generalizing dag with
  | nil =>
    split_ifs with h
    · simp [dependsOn]
    · simp [dependsOn, dependentsOf, AList.lookup_eq_none.mpr h]
  | cons dep deps ih =>
    have hstep : (dag.dependsOn id (dep :: deps)).dependentsOf n =
        ((wire id dag dep).dependsOn id deps).dependentsOf n := rfl
    have hmem : n ∈ (wire id dag dep).dependents ↔ n ∈ dag.dependents := PassThroughHashMap.mem_push _ _ _ _
    rw [hstep, ih (wire id dag dep), dependentsOf_wire]
    by_cases hn : n ∈ dag.dependents
    · rw [if_pos (hmem.mpr hn), if_pos hn]
      by_cases hd : n = dep
      · subst hd
        rw [if_pos ⟨rfl, hn⟩, List.count_cons_self, List.append_assoc, List.singleton_append, List.replicate_succ]
      · rw [if_neg (fun hc => hd hc.1), List.count_cons_of_ne (fun h => hd h.symm)]
    · rw [if_neg (fun hc => hn (hmem.mp hc)), if_neg hn]

/-! ## Which call an id stands for -/

/-- The position of the last `add_task` call that gave this id. -/
def addedAt (n : NodeId) : Nat := (dag.nodes.length - 1 - n.index) / 2 ^ 32 * 2 ^ 32 + n.index

theorem addedAt_eq_index (hlen : dag.nodes.length < 2 ^ 32) (n : NodeId) : dag.addedAt n = n.index := by
  unfold addedAt
  omega

theorem addedAt_lt {n : NodeId} (hn : n.index < dag.nodes.length) : dag.addedAt n < dag.nodes.length := by
  unfold addedAt
  omega

theorem lt_addedAt {n : NodeId} (hn : n.index < dag.nodes.length) : dag.nodes.length ≤ dag.addedAt n + 2 ^ 32 := by
  have hlt := n.index_lt
  unfold addedAt
  omega

theorem addedAt_mod (n : NodeId) : dag.addedAt n % 2 ^ 32 = n.index := by
  have hlt := n.index_lt
  unfold addedAt
  omega

theorem addedAt_inj {n d : NodeId} : dag.addedAt n = dag.addedAt d ↔ n = d := by
  constructor
  · intro h
    rw [← NodeId.index_inj, ← addedAt_mod dag n, ← addedAt_mod dag d, h]
  · rintro rfl
    rfl

theorem addedAt_addTask (n : NodeId) :
    (dag.addTask task).2.addedAt n = if n = .ofLen dag.nodes.length then dag.nodes.length else dag.addedAt n := by
  have hnew : n = .ofLen dag.nodes.length ↔ n.index = dag.nodes.length % 2 ^ 32 := by
    rw [← NodeId.index_inj, NodeId.index_ofLen]
  have hlt := n.index_lt
  unfold addedAt
  rw [nodes_addTask, List.length_append, List.length_singleton]
  split_ifs with h
  · rw [hnew] at h
    omega
  · rw [hnew] at h
    omega

theorem addedAt_last {len : Nat} (hlen : dag.nodes.length = len + 1) : dag.addedAt (.ofLen len) = len := by
  unfold addedAt
  rw [NodeId.index_ofLen]
  omega

/-! ## The wiring invariant of the runner -/

/-- What every build history, foreign handles included, leaves in the runner. -/
structure Wired (dag : DagRunner Val) : Prop where
  mem_edges : ∀ id, id ∈ dag.edges ↔ id.index < dag.nodes.length
  mem_dependents : ∀ id, id ∈ dag.dependents ↔ id.index < dag.nodes.length
  task : ∀ id, id.index < dag.nodes.length → ∃ task, dag.taskOf id = some task
  count : ∀ n d, (dag.dependentsOf d).count n = if dag.addedAt d ≤ dag.addedAt n then (dag.edgesOf n).count d else 0

theorem wired_new : (new : DagRunner Val).Wired where
  mem_edges id := by simp [new]
  mem_dependents id := by simp [new]
  task id h := by simp [new] at h
  count n d := by
    have hnil : (new : DagRunner Val).edgesOf n = [] := rfl
    rw [hnil, List.count_nil, ite_self]
    rfl

theorem edgesOf_of_notMem {n : NodeId} (h : n ∉ dag.edges) : dag.edgesOf n = [] := by
  rw [edgesOf, AList.lookup_eq_none.mpr h]
  rfl

theorem dependentsOf_of_notMem {n : NodeId} (h : n ∉ dag.dependents) : dag.dependentsOf n = [] := by
  rw [dependentsOf, AList.lookup_eq_none.mpr h]
  rfl

variable {dag}

/-- The id given next is no dependent of another task: their dependents were reset since it was last given. -/
theorem Wired.count_next (h : dag.Wired) {n d : NodeId} (hn : n = .ofLen dag.nodes.length) (hne : d ≠ n) :
    (dag.dependentsOf d).count n = 0 := by
  have hcount := h.count n d
  have hnew : n.index = dag.nodes.length % 2 ^ 32 := by rw [hn, NodeId.index_ofLen]
  by_cases hle : dag.addedAt d ≤ dag.addedAt n
  · by_cases hmem : n.index < dag.nodes.length
    · by_cases hmem' : d.index < dag.nodes.length
      · have hne' := mt (addedAt_inj dag).mp hne
        have hold := lt_addedAt dag hmem'
        have hlt := addedAt_lt dag hmem
        have hmod := addedAt_mod dag n
        omega
      · rw [← h.mem_dependents] at hmem'
        rw [dependentsOf_of_notMem dag hmem', List.count_nil]
    · rw [← h.mem_edges] at hmem
      rw [edgesOf_of_notMem dag hmem, List.count_nil, ite_self] at hcount
      exact hcount
  · rw [hcount, if_neg hle]

theorem Wired.addTask (h : dag.Wired) : (dag.addTask task).2.Wired := by
  refine ⟨fun id => ?_, fun id => ?_, fun id hid => ?_, fun n d => ?_⟩
  · rw [mem_edges_addTask, h.mem_edges, nodes_addTask, List.length_append, List.length_singleton,
      NodeId.eq_ofLen_or_lt_iff]
  · rw [mem_dependents_addTask, h.mem_dependents, nodes_addTask, List.length_append, List.length_singleton,
      NodeId.eq_ofLen_or_lt_iff]
  · rw [nodes_addTask, List.length_append, List.length_singleton] at hid
    unfold taskOf
    rw [nodes_addTask]
    rcases Nat.lt_succ_iff_lt_or_eq.mp hid with hlt | heq
    · rw [List.getElem?_append_left hlt]
      exact h.task id hlt
    · rw [heq]
      exact ⟨task, by simp⟩
  · rw [edgesOf_addTask, dependentsOf_addTask, addedAt_addTask, addedAt_addTask]
    by_cases hn : n = .ofLen dag.nodes.length
    · rw [if_pos hn, if_pos hn, List.count_nil, ite_self]
      split_ifs with hd
      · exact List.count_nil
      · exact h.count_next hn fun he => hd (he.trans hn)
    · rw [if_neg hn, if_neg hn]
      by_cases hd : d = .ofLen dag.nodes.length
      · rw [if_pos hd, if_pos hd, List.count_nil]
        split_ifs with hle
        · -- a task not later than the new one and different from it cannot have the new id as its dependency
          have hmem : n ∉ dag.edges := by
            rw [h.mem_edges]
            intro hlt
            have := addedAt_lt dag hlt
            omega
          rw [edgesOf_of_notMem dag hmem, List.count_nil]
        · rfl
      · rw [if_neg hd, if_neg hd, h.count n d]

theorem Wired.dependsOn (h : dag.Wired) {len : Nat} (hlen : dag.nodes.length = len + 1)
    (hnil : dag.edgesOf (.ofLen len) = []) : (dag.dependsOn (.ofLen len) deps).Wired := by
  have hmem : NodeId.ofLen len ∈ dag.edges := by
    rw [h.mem_edges, NodeId.index_ofLen]
    omega
  have hadded : ∀ n, (dag.dependsOn (.ofLen len) deps).addedAt n = dag.addedAt n := fun n => by
    unfold addedAt
    rw [nodes_dependsOn]
  refine ⟨fun n => ?_, fun n => ?_, fun n hn => ?_, fun n d => ?_⟩
  · rw [mem_edges_dependsOn, nodes_dependsOn, h.mem_edges]
  · rw [mem_dependents_dependsOn, nodes_dependsOn, h.mem_dependents]
  · rw [taskOf_dependsOn]
    rw [nodes_dependsOn] at hn
    exact h.task n hn
  · rw [edgesOf_dependsOn dag _ deps n hmem, dependentsOf_dependsOn, hadded, hadded]
    have hcount := h.count n d
    by_cases hd : d ∈ dag.dependents
    · rw [if_pos hd, List.count_append, hcount, List.count_replicate]
      have hlt := addedAt_lt dag ((h.mem_dependents d).mp hd)
      by_cases hn : n = .ofLen len
      · -- the builder's id is the last one, so `d` is not later
        subst hn
        have hlast := addedAt_last dag hlen
        have hle : dag.addedAt d ≤ dag.addedAt (.ofLen len) := by omega
        rw [if_pos hle, if_pos hle, if_pos rfl, hnil]
        simp
      · have hbeq : ¬ (NodeId.ofLen len == n) = true := fun he => hn (beq_iff_eq.mp he).symm
        rw [if_neg hn, if_neg hbeq, Nat.add_zero]
    · rw [if_neg hd, List.count_nil]
      rw [dependentsOf_of_notMem dag hd, List.count_nil] at hcount
      rw [h.mem_dependents] at hd
      by_cases hn : n = .ofLen len
      · subst hn
        have hlast := addedAt_last dag hlen
        have hlt := d.index_lt
        have hmod := addedAt_mod dag d
        rw [if_neg]
        omega
      · rw [if_neg hn, ← hcount]

theorem Wired.index_lt (h : dag.Wired) {n : NodeId} {ds : List NodeId} (hds : dag.edges.lookup n = some ds) :
    n.index < dag.nodes.length := by
  rw [← h.mem_edges, ← AList.lookup_isSome, hds]
  rfl

theorem taskOf_mem {dag : DagRunner Val} {n : NodeId} {task : TypedNode Val} (h : dag.taskOf n = some task) :
    some task ∈ dag.nodes := List.mem_of_getElem? (Option.join_eq_some_iff.mp h)

theorem index_lt_of_taskOf {dag : DagRunner Val} {n : NodeId} {task : TypedNode Val} (h : dag.taskOf n = some task) :
    n.index < dag.nodes.length := by
  by_contra hge
  rw [taskOf, List.getElem?_eq_none (by omega)] at h
  cases h

theorem ne_ofLen_of_taskOf {dag : DagRunner Val} (hlen : dag.nodes.length < 2 ^ 32) {n : NodeId}
    {task : TypedNode Val} (h : dag.taskOf n = some task) : n ≠ .ofLen dag.nodes.length := by
  have hlt := index_lt_of_taskOf h
  rw [ne_eq, ← NodeId.index_inj, NodeId.index_ofLen_of_lt hlen]
  omega

theorem taskOf_addTask_of_some {n : NodeId} {t : TypedNode Val} (hlen : dag.nodes.length < 2 ^ 32)
    (h : dag.taskOf n = some t) : (dag.addTask task).2.taskOf n = some t := by
  rw [taskOf_addTask dag task n hlen, if_neg (ne_ofLen_of_taskOf hlen h), h]

end DagRunner

/-! ## The invariant of a build history -/

theorem nodup_map_append_singleton {α β : Type} {f : α → β} {l : List α} {a : α} (h : (l.map f).Nodup)
    (hne : ∀ x ∈ l, f x ≠ f a) : ((l ++ [a]).map f).Nodup := by
  rw [List.map_append, List.nodup_append]
  refine ⟨h, List.nodup_singleton _, fun x hx y hy => ?_⟩
  obtain ⟨x, hmem, rfl⟩ := List.mem_map.mp hx
  rw [List.mem_singleton.mp hy]
  exact hne x hmem

namespace Session

open DagRunner

/-- What holds of a session after any API calls, foreign handles included. -/
structure Linked (s : Session Val) : Prop where
  wired : s.dag.Wired
  builder_last : ∀ b, s.builder = some b → ∃ len, s.dag.nodes.length = len + 1 ∧ b.id = .ofLen len
  builder_edges : ∀ b, s.builder = some b → s.dag.edgesOf b.id = []

theorem linked_new : (new : Session Val).Linked where
  wired := wired_new
  builder_last b hb := by simp [new] at hb
  builder_edges b hb := by simp [new] at hb

theorem Linked.addTask {s : Session Val} (h : s.Linked) (hb : s.builder = none) (task : TypedNode Val) :
    (s.addTask task).Linked := by
  unfold Session.addTask
  cases task.Input with
  | nil =>
    refine ⟨h.wired.addTask task, fun b hb' => ?_, fun b hb' => ?_⟩
    · simp [hb] at hb'
    · simp [hb] at hb'
  | cons T Input =>
    refine ⟨h.wired.addTask task, fun b hb' => ?_, fun b hb' => ?_⟩
    · cases hb'
      exact ⟨_, by rw [nodes_addTask, List.length_append, List.length_singleton], rfl⟩
    · cases hb'
      rw [edgesOf_addTask, addTask_fst, if_pos rfl]

theorem Linked.dependsOn {s : Session Val} (h : s.Linked) {b : TaskBuilder Ty} (hb : s.builder = some b)
    (args : List (Arg Ty)) : (s.dependsOn b args).Linked where
  wired := by
    obtain ⟨len, hlen, hid⟩ := h.builder_last b hb
    have hnil := h.builder_edges b hb
    show (s.dag.dependsOn b.id (toNodeIds args)).Wired
    rw [hid] at hnil ⊢
    exact h.wired.dependsOn (toNodeIds args) hlen hnil
  builder_last _ hb' := by cases hb'
  builder_edges _ hb' := by cases hb'

theorem Linked.coerceBuilder {s : Session Val} (h : s.Linked) {b b' : TaskBuilder Ty} (hb : s.builder = some b)
    (hle : b ≤ b') : (s.coerceBuilder b').Linked where
  wired := h.wired
  builder_last c hc := by
    cases hc
    rw [← hle.1]
    exact h.builder_last b hb
  builder_edges c hc := by
    cases hc
    rw [← hle.1]
    exact h.builder_edges b hb

theorem Linked.dropBuilder {s : Session Val} (h : s.Linked) : s.dropBuilder.Linked :=
  ⟨h.wired, fun _ hb => (nomatch hb), fun _ hb => (nomatch hb)⟩

/-- Every build history keeps the wiring invariant, whatever handles it passes and however many tasks it adds. -/
theorem Reachable.linked {foreign : TaskHandle Ty → Prop} {s : Session Val} (h : s.Reachable foreign) : s.Linked := by
  refine System.Reachable.invariant (I := Linked) ?_ ?_ h
  · rintro s rfl
    exact linked_new
  · intro s s' ih hstep
    cases hstep with
    | addTask task hb => exact ih.addTask hb task
    | coerceBuilder b b' hb hle => exact ih.coerceBuilder hb hle
    | dependsOn b args hb hty hargs => exact ih.dependsOn hb args
    | dropBuilder b hb => exact ih.dropBuilder

/-- **The wiring invariant holds of every runner**, foreign handles and wrapped ids included. -/
theorem Reachable.wired {foreign : TaskHandle Ty → Prop} {s : Session Val} (h : s.Reachable foreign) : s.dag.Wired :=
  (Reachable.linked h).wired

/-- What holds of a session with fewer than `2 ^ 32` tasks. -/
structure Inv (s : Session Val) : Prop where
  linked : s.Linked
  builder_task : ∀ b, s.builder = some b →
    b.Input ≠ [] ∧ ∃ task, s.dag.taskOf b.id = some task ∧ task.Input.length = b.Input.length
  builder_calls : ∀ b, s.builder = some b → ∀ call ∈ s.calls, call.1 ≠ b.id
  builder_handles : ∀ b, s.builder = some b → ∀ h ∈ s.handles, h.id ≠ b.id
  handles : ∀ h ∈ s.handles, ∃ task, s.dag.taskOf h.id = some task
  handles_nodup : (s.handles.map TaskHandle.id).Nodup
  calls : ∀ call ∈ s.calls, ∃ task, s.dag.taskOf call.1 = some task ∧ call.2.length = task.Input.length
  calls_nodup : (s.calls.map Prod.fst).Nodup
  edges : ∀ id, s.dag.edgesOf id = toNodeIds (s.argsOf id)
  own : ∀ call ∈ s.calls, ∀ h, .own h ∈ call.2 → s.Issued h ∧ h.id.index < call.1.index

theorem Issued.mono {s s' : Session Val} (h : s.handles ⊆ s'.handles) {handle : TaskHandle Ty} (hh : s.Issued handle) :
    s'.Issued handle := by
  obtain ⟨x, hx, hle⟩ := hh
  exact ⟨x, h hx, hle⟩

theorem inv_new : (new : Session Val).Inv where
  linked := linked_new
  builder_task b hb := by simp [new] at hb
  builder_calls b hb := by simp [new] at hb
  builder_handles b hb := by simp [new] at hb
  handles h hh := by simp [new] at hh
  handles_nodup := by simp [new]
  calls call hc := by simp [new] at hc
  calls_nodup := by simp [new]
  edges id := by simp [new, DagRunner.new, edgesOf, argsOf, toNodeIds]
  own call hc := by simp [new] at hc

theorem Inv.wired {s : Session Val} (h : s.Inv) : s.dag.Wired := h.linked.wired

theorem Inv.builder_last {s : Session Val} (h : s.Inv) (hlen : s.dag.nodes.length < 2 ^ 32) {b : TaskBuilder Ty}
    (hb : s.builder = some b) : b.id.index + 1 = s.dag.nodes.length := by
  obtain ⟨len, hlast, hid⟩ := h.linked.builder_last b hb
  rw [hid, NodeId.index_ofLen_of_lt (by omega), hlast]

theorem argsOf_of_notMem {s : Session Val} {id : NodeId} (h : ∀ call ∈ s.calls, call.1 ≠ id) : s.argsOf id = [] := by
  have hnone : s.calls.find? (fun call => call.1 = id) = none := by
    rw [List.find?_eq_none]
    intro call hc
    simpa using h call hc
  rw [argsOf, hnone]
  rfl

theorem argsOf_of_not_wired {s : Session Val} {id : NodeId} (h : ∀ args, (id, args) ∉ s.calls) : s.argsOf id = [] := by
  refine argsOf_of_notMem ?_
  rintro ⟨n, args⟩ hc rfl
  exact h args hc

theorem argsOf_dependsOn {s : Session Val} {b : TaskBuilder Ty} {args : List (Arg Ty)}
    (h : ∀ call ∈ s.calls, call.1 ≠ b.id) (id : NodeId) :
    (s.dependsOn b args).argsOf id = if id = b.id then args else s.argsOf id := by
  unfold argsOf dependsOn
  rw [List.find?_append]
  split_ifs with hid
  · have hnone : s.calls.find? (fun call => call.1 = id) = none := by
      rw [List.find?_eq_none]
      intro call hc
      simpa [hid] using h call hc
    rw [hnone]
    simp [hid]
  · rw [show [(b.id, args)].find? (fun call => call.1 = id) = none by simp [Ne.symm hid], Option.or_none]

theorem argsOf_of_mem {s : Session Val} (hnodup : (s.calls.map Prod.fst).Nodup) {id : NodeId} {args : List (Arg Ty)}
    (h : (id, args) ∈ s.calls) : s.argsOf id = args := by
  have hfind : s.calls.find? (fun call => call.1 = id) = some (id, args) := by
    cases hf : s.calls.find? (fun call => call.1 = id) with
    | none =>
      rw [List.find?_eq_none] at hf
      exact absurd (hf _ h) (by simp)
    | some call =>
      have hid : call.1 = id := by simpa using List.find?_some hf
      have hmem := List.mem_of_find?_eq_some hf
      rw [List.inj_on_of_nodup_map hnodup hmem h hid]
  rw [argsOf, hfind]
  rfl

theorem Inv.addTask {s : Session Val} (h : s.Inv) (hb : s.builder = none) (hlen : s.dag.nodes.length < 2 ^ 32)
    (task : TypedNode Val) : (s.addTask task).Inv := by
  have hlinked := h.linked.addTask hb task
  have hnewTask : (s.dag.addTask task).2.taskOf (.ofLen s.dag.nodes.length) = some task := by
    rw [taskOf_addTask s.dag task _ hlen, if_pos rfl]
  have hkeep := fun n t => taskOf_addTask_of_some task (n := n) (t := t) hlen
  have hcalls : ∀ call ∈ s.calls, call.1 ≠ .ofLen s.dag.nodes.length := fun call hc => by
    obtain ⟨t, ht, -⟩ := h.calls call hc
    exact ne_ofLen_of_taskOf hlen ht
  have hhandles : ∀ x ∈ s.handles, x.id ≠ .ofLen s.dag.nodes.length := fun x hx => by
    obtain ⟨t, ht⟩ := h.handles x hx
    exact ne_ofLen_of_taskOf hlen ht
  have hedges : ∀ id, (s.dag.addTask task).2.edgesOf id = toNodeIds (s.argsOf id) := fun id => by
    rw [edgesOf_addTask]
    split_ifs with hid
    · rw [hid, argsOf_of_notMem hcalls]
      rfl
    · exact h.edges id
  have hcalls' : ∀ call ∈ s.calls,
      ∃ t, (s.dag.addTask task).2.taskOf call.1 = some t ∧ call.2.length = t.Input.length := fun call hc => by
    obtain ⟨t, ht, hcount⟩ := h.calls call hc
    exact ⟨t, hkeep _ _ ht, hcount⟩
  have hhandles' : ∀ x ∈ s.handles, ∃ t, (s.dag.addTask task).2.taskOf x.id = some t := fun x hx => by
    obtain ⟨t, ht⟩ := h.handles x hx
    exact ⟨t, hkeep _ _ ht⟩
  unfold Session.addTask at hlinked ⊢
  cases hin : task.Input with
  | nil =>
    rw [hin] at hlinked
    refine ⟨hlinked, fun b hb' => ?_, fun b hb' => ?_, fun b hb' => ?_, ?_, ?_, hcalls', h.calls_nodup, hedges,
      fun call hc x hx => ?_⟩
    · simp [hb] at hb'
    · simp [hb] at hb'
    · simp [hb] at hb'
    · intro x hx
      rcases List.mem_append.mp hx with hx | hx
      · exact hhandles' x hx
      · obtain rfl := List.mem_singleton.mp hx
        exact ⟨task, hnewTask⟩
    · exact nodup_map_append_singleton h.handles_nodup hhandles
    · obtain ⟨hissued, hlt⟩ := h.own call hc x hx
      exact ⟨hissued.mono (List.subset_append_left _ _), hlt⟩
  | cons T Input =>
    rw [hin] at hlinked
    refine ⟨hlinked, fun b hb' => ?_, fun b hb' => ?_, fun b hb' => ?_, hhandles', h.handles_nodup, hcalls',
      h.calls_nodup, hedges, h.own⟩
    · cases hb'
      exact ⟨by simp, task, hnewTask, by rw [hin]⟩
    · cases hb'
      exact hcalls
    · cases hb'
      exact hhandles

theorem Inv.coerceBuilder {s : Session Val} (h : s.Inv) {b b' : TaskBuilder Ty} (hb : s.builder = some b)
    (hle : b ≤ b') : (s.coerceBuilder b').Inv where
  linked := h.linked.coerceBuilder hb hle
  builder_task c hc := by
    cases hc
    obtain ⟨hne, task, htask, hcount⟩ := h.builder_task b hb
    have hlength := hle.2.length_eq
    rw [← hle.1]
    refine ⟨fun hnil => hne ?_, task, htask, hcount.trans hlength⟩
    rw [hnil] at hlength
    exact List.eq_nil_of_length_eq_zero hlength
  builder_calls c hc := by
    cases hc
    rw [← hle.1]
    exact h.builder_calls b hb
  builder_handles c hc := by
    cases hc
    rw [← hle.1]
    exact h.builder_handles b hb
  handles := h.handles
  handles_nodup := h.handles_nodup
  calls := h.calls
  calls_nodup := h.calls_nodup
  edges := h.edges
  own := h.own

theorem Inv.dependsOn {s : Session Val} (h : s.Inv) {foreign : TaskHandle Ty → Prop} {b : TaskBuilder Ty}
    {args : List (Arg Ty)} (hlen : s.dag.nodes.length < 2 ^ 32) (hb : s.builder = some b)
    (hty : args.map (fun a => a.handle.ty) = b.Input) (hargs : ∀ a ∈ args, s.Owns foreign a) :
    (s.dependsOn b args).Inv where
  linked := h.linked.dependsOn hb args
  builder_task _ hb' := by cases hb'
  builder_calls _ hb' := by cases hb'
  builder_handles _ hb' := by cases hb'
  handles x hx := by
    obtain ⟨-, task, htask, -⟩ := h.builder_task b hb
    show ∃ t, (s.dag.dependsOn b.id (toNodeIds args)).taskOf x.id = some t
    rw [taskOf_dependsOn]
    rcases List.mem_append.mp hx with hx | hx
    · exact h.handles x hx
    · obtain rfl := List.mem_singleton.mp hx
      exact ⟨task, htask⟩
  handles_nodup := nodup_map_append_singleton h.handles_nodup (h.builder_handles b hb)
  calls call hc := by
    obtain ⟨-, task, htask, hcount⟩ := h.builder_task b hb
    show ∃ t, (s.dag.dependsOn b.id (toNodeIds args)).taskOf call.1 = some t ∧ _
    rw [taskOf_dependsOn]
    rcases List.mem_append.mp hc with hc | hc
    · exact h.calls call hc
    · obtain rfl := List.mem_singleton.mp hc
      exact ⟨task, htask, by rw [hcount, ← hty, List.length_map]⟩
  calls_nodup := nodup_map_append_singleton h.calls_nodup (h.builder_calls b hb)
  edges id := by
    have hlast := h.builder_last hlen hb
    have hmem : b.id ∈ s.dag.edges := (h.wired.mem_edges b.id).mpr (by omega)
    rw [argsOf_dependsOn (h.builder_calls b hb)]
    show (s.dag.dependsOn b.id (toNodeIds args)).edgesOf id = _
    rw [edgesOf_dependsOn s.dag b.id _ id hmem]
    split_ifs with hid
    · rw [hid, h.linked.builder_edges b hb, List.nil_append]
    · exact h.edges id
  own call hc x hx := by
    have hkeep : s.handles ⊆ (s.dependsOn b args).handles := List.subset_append_left _ _
    rcases List.mem_append.mp hc with hc | hc
    · obtain ⟨hissued, hlt⟩ := h.own call hc x hx
      exact ⟨hissued.mono hkeep, hlt⟩
    · obtain rfl := List.mem_singleton.mp hc
      have hown : s.Issued x := hargs _ hx
      obtain ⟨issued, hmem, hle⟩ := hown
      obtain ⟨t, ht⟩ := h.handles issued hmem
      -- an issued handle is not the builder's, and the builder's is the last id
      have hlast := h.builder_last hlen hb
      have hlt := index_lt_of_taskOf ht
      have hne := NodeId.index_inj.not.mpr (h.builder_handles b hb issued hmem)
      have hlt' : x.id.index < b.id.index := by
        rw [← hle.1]
        omega
      exact ⟨⟨issued, hkeep hmem, hle⟩, hlt'⟩

theorem Inv.dropBuilder {s : Session Val} (h : s.Inv) : s.dropBuilder.Inv :=
  ⟨h.linked.dropBuilder, fun _ hb => (nomatch hb), fun _ hb => (nomatch hb), fun _ hb => (nomatch hb), h.handles,
    h.handles_nodup, h.calls, h.calls_nodup, h.edges, h.own⟩

theorem length_addTask (s : Session Val) (task : TypedNode Val) :
    (s.addTask task).dag.nodes.length = s.dag.nodes.length + 1 := by
  unfold Session.addTask
  cases task.Input <;> simp

theorem length_dependsOn (s : Session Val) (b : TaskBuilder Ty) (args : List (Arg Ty)) :
    (s.dependsOn b args).dag.nodes.length = s.dag.nodes.length := by
  simp [Session.dependsOn]

/-- **Every build history below the id limit keeps the invariant**, whatever handles it passes. -/
theorem Reachable.inv {foreign : TaskHandle Ty → Prop} {s : Session Val} (h : s.Reachable foreign)
    (hlen : s.dag.nodes.length < 2 ^ 32) : s.Inv := by
  refine System.Reachable.invariant (I := fun s : Session Val => s.dag.nodes.length < 2 ^ 32 → s.Inv) ?_ ?_ h hlen
  · rintro s rfl -
    exact inv_new
  · rintro s s' ih hstep hlen
    cases hstep with
    | addTask task hb =>
      rw [length_addTask] at hlen
      exact (ih (by omega)).addTask hb (by omega) task
    | coerceBuilder b b' hb hle => exact (ih hlen).coerceBuilder hb hle
    | dependsOn b args hb hty hargs =>
      rw [length_dependsOn] at hlen
      exact (ih hlen).dependsOn hlen hb hty hargs
    | dropBuilder b hb => exact (ih hlen).dropBuilder

/-! ## Handles of the same runner -/

theorem OwnHandles.args_own {s : Session Val} (h : s.OwnHandles) : ∀ call ∈ s.calls, ∀ a ∈ call.2, ∃ x, a = .own x := by
  refine System.Reachable.invariant
    (I := fun s : Session Val => ∀ call ∈ s.calls, ∀ a ∈ call.2, ∃ x, a = .own x) ?_ ?_ h
  · rintro s rfl call hc
    simp [new] at hc
  · rintro s s' ih hstep
    cases hstep with
    | addTask task hb =>
      unfold Session.addTask
      cases task.Input <;> exact ih
    | coerceBuilder b b' hb hle => exact ih
    | dependsOn b args hb hty hargs =>
      intro call hc a ha
      rcases List.mem_append.mp hc with hc | hc
      · exact ih call hc a ha
      · obtain rfl := List.mem_singleton.mp hc
        cases a with
        | own x => exact ⟨x, rfl⟩
        | foreign x => exact (hargs _ ha).elim
    | dropBuilder b hb => exact ih

theorem mem_calls_of_argsOf {s : Session Val} {id : NodeId} {a : Arg Ty} (ha : a ∈ s.argsOf id) :
    (id, s.argsOf id) ∈ s.calls := by
  unfold argsOf at ha ⊢
  cases hf : s.calls.find? (fun call => call.1 = id) with
  | none => simp [hf] at ha
  | some call =>
    have hid : call.1 = id := by simpa using List.find?_some hf
    have hmem := List.mem_of_find?_eq_some hf
    subst hid
    simpa using hmem

/-- **Dependencies are earlier tasks.** -/
theorem OwnHandles.lt {s : Session Val} (h : s.OwnHandles) (hlen : s.dag.nodes.length < 2 ^ 32) {n d : NodeId}
    (hd : d ∈ s.dag.edgesOf n) : d.index < n.index := by
  have hinv := Reachable.inv h hlen
  rw [hinv.edges] at hd
  obtain ⟨a, ha, rfl⟩ := List.mem_map.mp hd
  have hcall := mem_calls_of_argsOf ha
  obtain ⟨x, rfl⟩ := h.args_own _ hcall a ha
  exact (hinv.own _ hcall x ha).2

end Session

end Dagx
