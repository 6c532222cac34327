import Dagx.Outcome

/-!
# Tasks without their inputs

The inputs of a task are fixed by its type when it is added, its dependencies by a later `depends_on`. Nothing forces
that call: a builder can be dropped. And a handle can be passed, or an input be taken, at a supertype of its type.

* `RunState.Provides`: the promise of `TaskInput`: every started task got its inputs, only a task body causes an error;
* `OwnHandles.mem_started_iff`: a task is started unless one at a smaller depth panics;
* `OwnHandles.provides_iff`: a run keeps the promise exactly when each task that is started was wired to tasks with the
  output types that are its input types, and takes these at its own types;
* `not_provides`: a builder that was dropped.
-/

namespace Dagx

open Layering DagRunner

variable {Ty : Type} [Preorder Ty] [DecidableEq Ty] {Val : Ty → Type}

/-- Every started task received as many dependencies as its `Input` has components, each of its component's type, and no
unwrap of its body failed; and if the run returned an error, the body of a task panicked, not an unwrap of an input. -/
structure RunState.Provides (dag : DagRunner Val) (t : RunState Val) : Prop where
  inputs : ∀ id dependencies task, .start id dependencies ∈ t.log → dag.taskOf id = some task →
    dependencies.map (fun arc => arc.inner.ty) = task.Input
  unwraps : ∀ id dependencies task, .start id dependencies ∈ t.log → dag.taskOf id = some task →
    task.task.Unwraps (dependencies.map Arc.inner)
  error : ∀ e, t.result = .error e → ∃ id dependencies task p, .start id dependencies ∈ t.log ∧
    dag.taskOf id = some task ∧ task.task.Unwraps (dependencies.map Arc.inner) ∧
    task.task.run (dependencies.map Arc.inner) = .error p ∧ .complete id (.error p) ∈ t.log

namespace RunState.Final

variable {dag : DagRunner Val} {t : RunState Val} {k : Nat}

theorem evals_of_start (h : t.Final dag k) {n : NodeId} {dependencies : List (Arc Val)}
    (hstart : .start n dependencies ∈ t.log) :
    List.Forall₂ (fun d v => dag.Evals d (.ok v)) (dag.edgesOf n) (dependencies.map Arc.inner) := by
  obtain ⟨ds, hds, hall⟩ := h.inv.start_fed n dependencies hstart
  rw [edgesOf, (deps_eq_some.mp hds).1, List.forall₂_map_right_iff]
  exact hall.imp fun _ _ ha => ha.2

end RunState.Final

namespace Session

variable {s : Session Val} {t : RunState Val} {k : Nat}

/-- A task is started unless one at a smaller depth panics. -/
theorem OwnHandles.mem_started_iff (hs : s.OwnHandles) (hlen : s.dag.nodes.length < 2 ^ 32) (hfinal : t.Final s.dag k)
    {n : NodeId} (hn : n.index < s.dag.nodes.length) :
    n ∈ started t.log ↔ ∀ d q, s.dag.depth d < s.dag.depth n → ¬ s.dag.Evals d (.error q) := by
  rw [hfinal.inv.mem_started]
  constructor
  · intro hready d q hlt hq
    have hdepth := ((hs.ready_iff hlen).mp hready).2
    obtain ⟨j, hj⟩ := Dataflow.Evals.ready hq
    have hd := (hs.exists_ready_iff hlen d).mp ⟨j, hj⟩
    obtain ⟨v, hv⟩ := hfinal.below d ((hs.ready_iff hlen).mpr ⟨hd, by omega⟩)
    exact hv.ok_ne_error hq
  · intro hnone
    rcases hfinal.outcome with ⟨-, hall⟩ | ⟨-, m, p, hm, hp⟩
    · exact (hall n _ (hs.ready hlen hn)).1
    · have hdepth := ((hs.atDepth_iff hlen).mp hm).2
      refine (hs.ready_iff hlen).mpr ⟨hn, ?_⟩
      by_contra hlt
      exact hnone m p (by omega) hp

/-- **When tasks get their inputs**: for every build history of one runner and every run, each started task receives its
inputs and no unwrap of an input fails, and an error is the panic of a task body, exactly when each task, unless one at a
smaller depth panics, was wired to tasks whose output types are its input types and takes each input that it takes at its
own type. -/
theorem OwnHandles.provides_iff (hs : s.OwnHandles) (hlen : s.dag.nodes.length < 2 ^ 32) {sp : Spawner Val}
    (hsp : sp.Honest) (it : IterOrder) (co : CompletionOrder Val) :
    ∃ t : RunState Val, s.dag.finalState it sp co = some (.ok (.ok t)) ∧
      (t.Provides s.dag ↔ ∀ id task, s.dag.taskOf id = some task →
        (∀ d q, s.dag.depth d < s.dag.depth id → ¬ s.dag.Evals d (.error q)) → s.dag.TypedAt id task ∧
          ∀ vs : Inputs Val task.Input, List.Forall₂ (fun d v => s.dag.Evals d (.ok v)) (s.dag.edgesOf id) vs.erase →
            task.task.TakesOwn vs) := by
  have hw := (Reachable.inv hs hlen).wired
  obtain ⟨t, k, ht, hfinal, -⟩ := hw.final hsp it co
  refine ⟨t, ht, ?_⟩
  constructor
  · intro hprovides id task htask hnone
    have hmem := (hs.mem_started_iff hlen hfinal (index_lt_of_taskOf htask)).mpr hnone
    obtain ⟨dependencies, hstart⟩ := Dagx.mem_started_iff.mp hmem
    have hvalues := hfinal.evals_of_start hstart
    have htypes : (dependencies.map Arc.inner).map AnyVal.ty = task.Input := by
      rw [List.map_map]
      exact hprovides.inputs id dependencies task hstart htask
    refine ⟨(typedAt_iff hw hvalues).mpr htypes, fun vs hvs => ?_⟩
    rw [← TaskBody.unwraps_erase, values_unique hvs hvalues]
    exact hprovides.unwraps id dependencies task hstart htask
  · intro hcond
    have hstarted : ∀ id dependencies task, .start id dependencies ∈ t.log → s.dag.taskOf id = some task →
        (dependencies.map Arc.inner).map AnyVal.ty = task.Input ∧ task.task.Unwraps (dependencies.map Arc.inner) := by
      intro id dependencies task hstart htask
      obtain ⟨htyped, htakes⟩ := hcond id task htask
        ((hs.mem_started_iff hlen hfinal (index_lt_of_taskOf htask)).mp (Dagx.mem_started_iff.mpr ⟨_, hstart⟩))
      have hvalues := hfinal.evals_of_start hstart
      have htypes := (typedAt_iff hw hvalues).mp htyped
      obtain ⟨vs, hvs⟩ := Inputs.exists_erase htypes
      rw [← hvs] at hvalues ⊢
      exact ⟨Inputs.map_ty_erase vs, (task.task.unwraps_erase vs).mpr (htakes vs hvalues)⟩
    refine ⟨fun id dependencies task hstart htask => ?_, fun id dependencies task hstart htask => ?_, fun e he => ?_⟩
    · rw [← (hstarted id dependencies task hstart htask).1, List.map_map]
      rfl
    · exact (hstarted id dependencies task hstart htask).2
    · rw [RunState.result_eq_error] at he
      rcases hfinal.outcome with ⟨hnone, -⟩ | ⟨-, n, p, hn, hp⟩
      · rw [hnone] at he
        cases he
      · obtain ⟨task, htask⟩ := exists_task_of_ready hw hn.1
        obtain ⟨dependencies, hstart⟩ := Dagx.mem_started_iff.mp ((hfinal.inv.mem_started n).mpr hn.1)
        obtain ⟨vs, hvs, hcall⟩ := call_of_evals htask hp
        obtain rfl := values_unique hvs (hfinal.evals_of_start hstart)
        exact ⟨n, dependencies, task, p, hstart, htask, (hstarted n dependencies task hstart htask).2,
          TypedNode.call_eq_error.mp hcall.symm, hfinal.inv.complete_mem hn.1 hp⟩

theorem provides_sample : ∃ t : RunState Sample.Value,
    (Sample.session Sample.boom).dag.finalState ⟨.stored _, .stored _⟩ .identity .reversed = some (.ok (.ok t)) ∧
      t.Provides (Sample.session Sample.boom).dag := by
  have hs := Sample.wellWired_session Sample.boom rfl rfl
  obtain ⟨t, ht, hiff⟩ := OwnHandles.provides_iff hs.own hs.small Spawner.identity_passesThrough.honest
    ⟨.stored _, .stored _⟩ .reversed
  refine ⟨t, ht, hiff.mpr fun id task htask _ => ⟨(Sample.plain_session _ rfl rfl).wellTyped hs id task htask, ?_⟩⟩
  have hmem : some task ∈ [some Sample.boom, some (Sample.value 3), some Sample.add, some Sample.add, some Sample.format] :=
    taskOf_mem htask
  simp only [List.mem_cons, Option.some.injEq, List.not_mem_nil, or_false] at hmem
  rcases hmem with rfl | rfl | rfl | rfl | rfl
  · exact fun _ _ => trivial
  · exact fun _ _ => trivial
  · exact fun _ _ => ⟨rfl, rfl, trivial⟩
  · exact fun _ _ => ⟨rfl, rfl, trivial⟩
  · exact fun _ _ => ⟨rfl, trivial⟩

end Session

/-! ## A dropped builder -/

namespace Sample

def dropped : Session Value := (Session.new.addTask format).dropBuilder

theorem ownHandles_dropped : dropped.OwnHandles := by
  have h₀ : (Session.new : Session Value).OwnHandles := .of_init rfl
  exact (h₀.step (.addTask _ format rfl)).step (.dropBuilder _ _ rfl)

theorem nonPanicking_dropped (id : NodeId) (task : TypedNode Value) (h : dropped.dag.taskOf id = some task) :
    task.NonPanicking := by
  refine nonPanicking_of_nodes (n := 0) ?_ id task h
  show [some format] ⊆ _
  simp

end Sample

/-- No task body panics, and `run` returns the panic of an unwrap inside `TaskInput::next`. -/
theorem not_provides : Sample.dropped.OwnHandles ∧
    (∀ id task, Sample.dropped.dag.taskOf id = some task → task.NonPanicking) ∧
    ∃ t, Sample.dropped.dag.finalState ⟨.stored _, .stored _⟩ .identity .reversed = some (.ok (.ok t)) ∧
      t.result = .error (.TaskPanicked 0 "called `Option::unwrap()` on a `None` value") ∧
      ¬ t.Provides Sample.dropped.dag := by
  refine ⟨Sample.ownHandles_dropped, Sample.nonPanicking_dropped, _, rfl, rfl, fun h => ?_⟩
  have hinput := h.inputs (.ofLen 0) [] Sample.format (List.mem_cons_self) rfl
  cases hinput

end Dagx
