import Dagx.Adequacy

/-!
# Graphs inside graphs

* `DagRunner.Maps φ dag dag'`: `φ` maps the tasks of one graph, with their dependencies in order, to tasks of another;
* `OwnHandles.run_map`: then `run` computes the same outputs for them, so outputs do not depend on the order of
  independent calls, on unrelated tasks, or on whether a task is added twice or shared;
* `OwnHandles.run_extend`: no later call changes the output of a task.
-/

namespace Dagx

open Layering System DagRunner

variable {Ty : Type} [Preorder Ty] {Val : Ty → Type}

/-- `φ` maps the tasks of `dag`, with their dependencies, to tasks of `dag'`. -/
def DagRunner.Maps (φ : NodeId → NodeId) (dag dag' : DagRunner Val) : Prop :=
  ∀ n task, dag.taskOf n = some task → dag'.taskOf (φ n) = some task ∧ dag'.edgesOf (φ n) = (dag.edgesOf n).map φ

namespace Session

/-! ## Later calls -/

/-- Later calls keep the tasks there are and their dependencies. -/
theorem maps_id_of_steps {s s' : Session Val} (hs : s.OwnHandles) (hb : s.builder = none)
    (hsteps : Relation.ReflTransGen (Step fun _ => False) s s') (hlen : s'.dag.nodes.length < 2 ^ 32) :
    Maps id s.dag s'.dag ∧ s.dag.nodes.length ≤ s'.dag.nodes.length ∧
      ∀ b, s'.builder = some b → s.dag.nodes.length ≤ b.id.index := by
  induction hsteps with
  | refl =>
    refine ⟨fun n task ht => ⟨ht, by rw [List.map_id]; rfl⟩, le_refl _, fun b hb' => ?_⟩
    rw [hb] at hb'
    cases hb'
  | @tail t t' hsteps hlast ih =>
    have hreach : t.OwnHandles := by
      obtain ⟨s₀, h₀, hr⟩ := hs
      exact ⟨s₀, h₀, hr.trans hsteps⟩
    cases hlast with
    | addTask task hb' =>
      rw [length_addTask] at hlen ⊢
      obtain ⟨hmaps, hle, -⟩ := ih (by omega)
      have hdag : (t.addTask task).dag = (t.dag.addTask task).2 := by
        unfold Session.addTask
        cases task.Input <;> rfl
      have hid : (NodeId.ofLen t.dag.nodes.length).index = t.dag.nodes.length := NodeId.index_ofLen_of_lt (by omega)
      refine ⟨fun n old ht => ?_, by omega, fun b hbuilder => ?_⟩
      · obtain ⟨htask, hedges⟩ := hmaps n old ht
        have hne := ne_ofLen_of_taskOf (by omega) htask
        rw [hdag, edgesOf_addTask, if_neg hne]
        exact ⟨taskOf_addTask_of_some task (by omega) htask, hedges⟩
      · obtain ⟨len, hlength, hbid⟩ := (Reachable.linked (hreach.step (.addTask t task hb'))).builder_last b hbuilder
        rw [length_addTask] at hlength
        obtain rfl : t.dag.nodes.length = len := by omega
        rw [hbid, hid]
        exact hle
    | coerceBuilder b b' hb' hle =>
      obtain ⟨hmaps, hlength, hbuilder⟩ := ih hlen
      refine ⟨hmaps, hlength, fun c hc => ?_⟩
      cases hc
      rw [← hle.1]
      exact hbuilder b hb'
    | dependsOn b args hb' hty hargs =>
      rw [length_dependsOn] at hlen ⊢
      obtain ⟨hmaps, hle, hbuilder⟩ := ih hlen
      refine ⟨fun n old ht => ?_, hle, fun b' hb'' => by cases hb''⟩
      obtain ⟨htask, hedges⟩ := hmaps n old ht
      have hinv := Reachable.inv hreach hlen
      obtain ⟨-, task, hbtask, -⟩ := hinv.builder_task b hb'
      have hmem := (hinv.wired.mem_edges b.id).mpr (index_lt_of_taskOf hbtask)
      have hne : n ≠ b.id := by
        rintro rfl
        have := index_lt_of_taskOf ht
        have := hbuilder b hb'
        omega
      show (t.dag.dependsOn b.id (toNodeIds args)).taskOf n = _ ∧
        (t.dag.dependsOn b.id (toNodeIds args)).edgesOf n = _
      rw [taskOf_dependsOn, edgesOf_dependsOn _ _ _ _ hmem, if_neg hne]
      exact ⟨htask, hedges⟩
    | dropBuilder b hb' =>
      obtain ⟨hmaps, hle, -⟩ := ih hlen
      exact ⟨hmaps, hle, fun b' hb'' => by cases hb''⟩

/-! ## Equal outputs -/

variable [DecidableEq Ty]

theorem OwnHandles.morphism {s s' : Session Val} (hs : s.OwnHandles) (hlen : s.dag.nodes.length < 2 ^ 32)
    (hs' : s'.OwnHandles) (hlen' : s'.dag.nodes.length < 2 ^ 32) {φ : NodeId → NodeId} (hφ : Maps φ s.dag s'.dag) :
    Dataflow.Morphism s.dag.dataflow s'.dag.dataflow (fun n => n.index < s.dag.nodes.length) φ := by
  have htask : ∀ n : NodeId, n.index < s.dag.nodes.length → ∃ task, s.dag.taskOf n = some task :=
    (Reachable.inv hs hlen).wired.task
  refine ⟨fun n ds hn hds d hd => ?_, fun n hn => ?_, fun n hn => ?_⟩
  · have hds : s.dag.deps n = some ds := hds
    rw [hs.deps_edgesOf hlen hn] at hds
    cases hds
    have hlt := hs.lt hlen hd
    omega
  · obtain ⟨task, ht⟩ := htask n hn
    obtain ⟨ht', hedges⟩ := hφ n task ht
    show s'.dag.deps (φ n) = (s.dag.deps n).map _
    rw [hs.deps_edgesOf hlen hn, hs'.deps_edgesOf hlen' (index_lt_of_taskOf ht'), hedges]
    rfl
  · obtain ⟨task, ht⟩ := htask n hn
    funext vs
    show (s'.dag.taskOf (φ n)).elim _ _ = (s.dag.taskOf n).elim _ _
    rw [ht, (hφ n task ht).1]

theorem OwnHandles.values_eq {s : Session Val} (hs : s.OwnHandles) (hlen : s.dag.nodes.length < 2 ^ 32)
    {dag' : DagRunner Val} (hw' : dag'.Wired) {φ : NodeId → NodeId}
    (hev : ∀ n : NodeId, n.index < s.dag.nodes.length → ∀ r, dag'.Evals (φ n) r ↔ s.dag.Evals n r)
    {sp sp' : Spawner Val} (hsp : sp.Honest) (hsp' : sp'.Honest) (it it' : IterOrder) (co co' : CompletionOrder Val) :
    ∃ r r', s.dag.run it sp co = some (.ok r) ∧ dag'.run it' sp' co' = some (.ok r') ∧
      ∀ out', r' = .ok out' → ∃ out, r = .ok out ∧
        ∀ n : NodeId, n.index < s.dag.nodes.length → ∃ v, out.value n = some v ∧ out'.value (φ n) = some v := by
  obtain ⟨r, hr, hok, herror⟩ := (Reachable.wired hs).run_spec hsp it co
  obtain ⟨r', hr', hok', -⟩ := hw'.run_spec hsp' it' co'
  refine ⟨r, r', hr, hr', fun out' hout' => ?_⟩
  obtain ⟨hpanic', hlookup', -⟩ := hok' out' hout'
  -- what panics in the first graph panics in the second
  have hpanic : ∀ n p, ¬ s.dag.Evals n (.error p) := by
    intro n p hp
    obtain ⟨j, hj⟩ := Dataflow.Evals.ready hp
    have hn := (hs.exists_ready_iff hlen n).mp ⟨j, hj⟩
    exact hpanic' (φ n) p ((hev n hn _).mpr hp)
  cases r with
  | error e =>
    obtain ⟨n, p, hp⟩ := herror e rfl
    exact absurd hp (hpanic n p)
  | ok out =>
    refine ⟨out, rfl, fun n hn => ?_⟩
    obtain ⟨-, hlookup, -⟩ := hok out rfl
    obtain ⟨v, hv⟩ := Dataflow.ok_of_ready (D := s.dag.dataflow) (fun m p _ => hpanic m p) (hs.ready hlen hn)
    have hv' : dag'.Evals (φ n) (.ok v) := (hev n hn _).mpr hv
    refine ⟨v, ?_, ?_⟩
    · rw [DagOutput.value, (hlookup n ⟨n, v⟩).mpr ⟨rfl, hv⟩]
      rfl
    · rw [DagOutput.value, (hlookup' (φ n) ⟨φ n, v⟩).mpr ⟨rfl, hv'⟩]
      rfl

/-- **`run` computes the same outputs for the same tasks**: when the tasks of one graph, with their dependencies in
order, are also in another, under other ids, a run of the second that returns `Ok` means that a run of the first does,
with the same output for each task; whatever the iteration orders, completion orders and honest spawners. -/
theorem OwnHandles.run_map {s s' : Session Val} (hs : s.OwnHandles) (hlen : s.dag.nodes.length < 2 ^ 32)
    (hs' : s'.OwnHandles) (hlen' : s'.dag.nodes.length < 2 ^ 32) {φ : NodeId → NodeId} (hφ : Maps φ s.dag s'.dag)
    {sp sp' : Spawner Val} (hsp : sp.Honest) (hsp' : sp'.Honest) (it it' : IterOrder) (co co' : CompletionOrder Val) :
    ∃ r r', s.dag.run it sp co = some (.ok r) ∧ s'.dag.run it' sp' co' = some (.ok r') ∧
      ∀ out', r' = .ok out' → ∃ out, r = .ok out ∧
        ∀ n : NodeId, n.index < s.dag.nodes.length → ∃ v, out.value n = some v ∧ out'.value (φ n) = some v := by
  have hmorphism := hs.morphism hlen hs' hlen' hφ
  exact hs.values_eq hlen (Reachable.wired hs') (fun n hn r => hmorphism.evals_iff hn) hsp hsp' it it' co co'

end Session

namespace Sample

/-- The sum of the sample, with its sources added in the other order. -/
def swapped : Session Value :=
  (((Session.new.addTask (value 3)).addTask (value 2)).addTask add).dependsOn ⟨.ofLen 2, [.i32, .i32], .i32⟩
    [.own ⟨.ofLen 1, .i32⟩, .own ⟨.ofLen 0, .i32⟩]

theorem plain_swapped : swapped.Plain := by
  have hnew : (Session.new : Session Value).Plain := .of_init rfl
  exact ((((hnew.step (.addTask _ (value 3) rfl)).step (.addTask _ (value 2) rfl)).step (.addTask _ add rfl)).step
    (.dependsOn _ _ _ rfl rfl (by simp [Session.addTask, value, add, Session.new, DagRunner.new])))

def swap (n : NodeId) : NodeId := if n = .ofLen 0 then .ofLen 1 else if n = .ofLen 1 then .ofLen 0 else n

theorem maps_swap : Maps swap (sum (value 2)).dag swapped.dag := by
  intro n task ht
  have hn : n.index < 3 := index_lt_of_taskOf ht
  obtain rfl | rfl | rfl : n = .ofLen 0 ∨ n = .ofLen 1 ∨ n = .ofLen 2 := by
    simp only [← NodeId.index_inj, NodeId.index_ofLen]
    omega
  · cases ht
    exact ⟨rfl, by decide⟩
  · cases ht
    exact ⟨rfl, by decide⟩
  · cases ht
    exact ⟨rfl, by decide⟩

end Sample

namespace Session

variable [DecidableEq Ty]

theorem run_map_sample : ∃ r r', (Sample.sum (Sample.value 2)).dag.run ⟨.stored _, .stored _⟩ .identity .reversed =
      some (.ok r) ∧
    Sample.swapped.dag.run IterOrder.backwards .identity .reversed = some (.ok r') ∧
    ∀ out', r' = .ok out' → ∃ out, r = .ok out ∧ (∃ v, out.value (.ofLen 2) = some v ∧ out'.value (.ofLen 2) = some v) ∧
      ∃ v, out.value (.ofLen 0) = some v ∧ out'.value (.ofLen 1) = some v := by
  have hsp : (Spawner.identity : Spawner Sample.Value).Honest := Spawner.identity_passesThrough.honest
  obtain ⟨r, r', hr, hr', hout⟩ := OwnHandles.run_map (Sample.plain_sum (Sample.value 2) rfl rfl).ownHandles (by decide)
    Sample.plain_swapped.ownHandles (by decide) Sample.maps_swap hsp hsp ⟨.stored _, .stored _⟩ IterOrder.backwards
    .reversed .reversed
  refine ⟨r, r', hr, hr', fun out' h' => ?_⟩
  obtain ⟨out, ho, hvalue⟩ := hout out' h'
  exact ⟨out, ho, hvalue (.ofLen 2) (by decide), hvalue (.ofLen 0) (by decide)⟩

/-- **No later call changes the output of a task.** Whatever is added to a graph, `run` gives each task that it had the
output that it gives without the additions, whenever it returns `Ok`. -/
theorem OwnHandles.run_extend {s s' : Session Val} (hs : s.OwnHandles) (hb : s.builder = none)
    (hsteps : Relation.ReflTransGen (Step fun _ => False) s s') (hlen : s'.dag.nodes.length < 2 ^ 32)
    {sp sp' : Spawner Val} (hsp : sp.Honest) (hsp' : sp'.Honest) (it it' : IterOrder) (co co' : CompletionOrder Val) :
    ∃ r r', s.dag.run it sp co = some (.ok r) ∧ s'.dag.run it' sp' co' = some (.ok r') ∧
      ∀ out', r' = .ok out' → ∃ out, r = .ok out ∧
        ∀ n : NodeId, n.index < s.dag.nodes.length → ∃ v, out.value n = some v ∧ out'.value n = some v := by
  have hs' : s'.OwnHandles := by
    obtain ⟨s₀, h₀, hr⟩ := hs
    exact ⟨s₀, h₀, hr.trans hsteps⟩
  obtain ⟨hmaps, hle, -⟩ := maps_id_of_steps hs hb hsteps hlen
  have hmorphism := hs.morphism (by omega) hs' hlen hmaps
  exact hs.values_eq (by omega) (Reachable.wired hs') (fun n hn r => hmorphism.evals_iff hn) hsp hsp' it it' co co'

theorem run_extend_sample : ∃ r r', (Sample.sum (Sample.value 2)).dag.run ⟨.stored _, .stored _⟩ .identity .reversed =
      some (.ok r) ∧
    (Sample.session (Sample.value 2)).dag.run IterOrder.backwards .identity .reversed = some (.ok r') ∧
    ∀ out', r' = .ok out' → ∃ out, r = .ok out ∧
      ∃ v, out.value (.ofLen 2) = some v ∧ out'.value (.ofLen 2) = some v := by
  have hsp : (Spawner.identity : Spawner Sample.Value).Honest := Spawner.identity_passesThrough.honest
  obtain ⟨r, r', hr, hr', hout⟩ := OwnHandles.run_extend (Sample.plain_sum (Sample.value 2) rfl rfl).ownHandles rfl
    (PlainStep.steps (Sample.steps_session (Sample.value 2) rfl rfl)) (by decide) hsp hsp ⟨.stored _, .stored _⟩
    IterOrder.backwards .reversed .reversed
  refine ⟨r, r', hr, hr', fun out' h' => ?_⟩
  obtain ⟨out, ho, hvalue⟩ := hout out' h'
  exact ⟨out, ho, hvalue (.ofLen 2) (by decide)⟩

end Session

end Dagx
