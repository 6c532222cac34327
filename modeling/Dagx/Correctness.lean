import Dagx.Extract
import Dagx.Outcome

/-!
# When `run` computes what the tasks say

The type checker lets a handle be passed at a supertype of the output type of its task; `downcast` does not.

* `Session.RunsCorrectly`: `run` computes the recursive evaluation of the graph;
* `WellWired.runsCorrectly`: without panics, where every task is wired to tasks with its input types;
* `Session.SameCalls`: the same calls, with tasks of the same types that may do other things;
* `TypedNode.strict`, `Session.strict`: tasks that take all their inputs (`Step.strict`: by the same calls);
* `WellWired.run_correct_iff`: for all tasks with which the calls can be made `run` computes the graph, exactly when every
  task is wired to tasks with its input types;
* `not_run_correct`: a handle that is passed at a supertype.
-/

namespace Dagx

open Layering DagRunner

variable {Ty : Type} [Preorder Ty] {Val : Ty → Type}

namespace Session

/-- Made by the same calls, with tasks of the same types. -/
structure SameCalls (s s' : Session Val) : Prop where
  calls : s'.calls = s.calls
  types : s'.dag.nodes.map (Option.map fun task => (task.Input, task.Output)) =
    s.dag.nodes.map (Option.map fun task => (task.Input, task.Output))

variable {s s' : Session Val}

theorem SameCalls.map_taskOf (h : s.SameCalls s') (n : NodeId) :
    (s'.dag.taskOf n).map (fun task => (task.Input, task.Output)) =
      (s.dag.taskOf n).map fun task => (task.Input, task.Output) := by
  have hget := congrArg (fun nodes => (nodes[n.index]?).join) h.types
  simp only [List.getElem?_map, Option.join_map_eq_map_join] at hget
  exact hget

theorem SameCalls.map_output (h : s.SameCalls s') (n : NodeId) :
    (s'.dag.taskOf n).map TypedNode.Output = (s.dag.taskOf n).map TypedNode.Output := by
  have hmap := congrArg (Option.map Prod.snd) (h.map_taskOf n)
  rw [Option.map_map, Option.map_map] at hmap
  exact hmap

theorem SameCalls.symm (h : s.SameCalls s') : s'.SameCalls s := ⟨h.calls.symm, h.types.symm⟩

/-- Whether tasks are wired to tasks with their input types is decided by the calls. -/
theorem SameCalls.wellTyped (h : s.SameCalls s') (hs : s.WellWired) (hs' : s'.WellWired) (htyped : s.dag.WellTyped) :
    s'.dag.WellTyped := by
  intro n task' ht'
  have hedges : s'.dag.edgesOf n = s.dag.edgesOf n := by
    rw [(Reachable.inv hs'.own hs'.small).edges, (Reachable.inv hs.own hs.small).edges, argsOf, argsOf, h.calls]
  have hmap := h.map_taskOf n
  rw [ht'] at hmap
  obtain ⟨task, ht, heq⟩ := Option.map_eq_some_iff.mp hmap.symm
  have hinput : task.Input = task'.Input := congrArg Prod.fst heq
  have htypes := htyped n task ht
  rw [DagRunner.TypedAt] at htypes ⊢
  rw [hedges, ← hinput, ← htypes]
  exact List.map_congr_left fun d _ => h.map_output d

variable [DecidableEq Ty]

/-- `run` computes the recursive evaluation of the graph: it returns `Ok` with one entry for each task added, the task
applied to the entries of the handles passed to its `depends_on`, in order. -/
def RunsCorrectly (s : Session Val) (sp : Spawner Val) (it : IterOrder) (co : CompletionOrder Val) : Prop :=
  ∃ out, s.dag.run it sp co = some (.ok (.ok out)) ∧ (∀ id, id ∈ out.outputs ↔ id.index < s.dag.nodes.length) ∧
    ∀ id task, s.dag.taskOf id = some task → ∃ (vs : Inputs Val task.Input) (v : Val task.Output),
      (s.argsOf id).map (fun a => out.value a.handle.id) = vs.erase.map some ∧ task.task.apply vs = .ok v ∧
      out.value id = some ⟨task.Output, v⟩

theorem WellWired.runsCorrectly {s : Session Val} (hs : s.WellWired) (htyped : s.dag.WellTyped)
    (hpure : ∀ id task, s.dag.taskOf id = some task → task.NonPanicking) {sp : Spawner Val} (hsp : sp.PassesThrough)
    (it : IterOrder) (co : CompletionOrder Val) : s.RunsCorrectly sp it co := by
  have hinv := Reachable.inv hs.own hs.small
  obtain ⟨t, k, ht, hfinal, -⟩ := hinv.wired.final hsp.honest it co
  have he := hfinal.no_error (htyped.no_panics hinv.wired hpure)
  have hresult : t.result = .ok ⟨t.outputs, t.strong⟩ := RunState.result_eq_ok.mpr ⟨he, rfl⟩
  have hvalue : ∀ d v, s.dag.Evals d (.ok v) → (⟨t.outputs, t.strong⟩ : DagOutput Val).value d = some v := by
    intro d v hv
    rw [DagOutput.value, hfinal.lookup he hv]
    rfl
  refine ⟨⟨t.outputs, t.strong⟩, by rw [DagRunner.run_eq ht, hresult], fun id => ?_, fun id task htask => ?_⟩
  · rw [← AList.lookup_isSome, ← hs.own.exists_ready_iff hs.small]
    constructor
    · intro hsome
      by_contra hnot
      push Not at hnot
      have hnone : t.outputs.lookup id = none := hfinal.lookup_eq_none hnot
      rw [hnone] at hsome
      cases hsome
    · rintro ⟨j, hj⟩
      obtain ⟨-, v, hv⟩ := hfinal.ok_of_no_error he hj
      rw [hfinal.lookup he hv]
      rfl
  · obtain ⟨-, v, hv⟩ := hfinal.ok_of_no_error he (hs.own.ready hs.small (index_lt_of_taskOf htask))
    obtain ⟨vs, hvs, hr⟩ := (htyped id task htask).evals_apply hinv.wired htask hv
    rw [hinv.edges] at hvs
    cases hout : task.task.apply vs with
    | error p =>
      rw [hout] at hr
      cases hr
    | ok w =>
      rw [hout] at hr
      cases hr
      exact ⟨vs, w, map_value_eq hvs hvalue, hout, hvalue id _ hv⟩

end Session

/-! ## Tasks that take all their inputs -/

theorem DagRunner.dependsOn_nodes (dag : DagRunner Val) (nodes : List (Option (TypedNode Val))) (id : NodeId)
    (deps : List NodeId) :
    { dag with nodes := nodes }.dependsOn id deps = { dag.dependsOn id deps with nodes := nodes } := by
  induction deps generalizing dag with
  | nil => rfl
  | cons dep deps ih => exact ih (dag.wire id dep)

variable [DecidableEq Ty]

/-- The task that takes all its inputs and then does the same. -/
def TypedNode.strict (node : TypedNode Val) : TypedNode Val :=
  { node with task := .ofInputs node.Input node.task.apply }

theorem TypedNode.NonPanicking.strict {node : TypedNode Val} (h : node.NonPanicking) : node.strict.NonPanicking := by
  intro vs
  obtain ⟨v, hv⟩ := h vs
  exact ⟨v, (TaskBody.apply_ofInputs _ vs).trans hv⟩

theorem TypedNode.types_of_call_strict {node : TypedNode Val} {values : List (AnyVal Val)} {v : AnyVal Val}
    (h : node.strict.call values = .ok v) (hlen : values.length = node.Input.length) :
    values.map AnyVal.ty = node.Input := by
  obtain ⟨vs, rest, rfl⟩ | hfail := TaskInput.nexts_cases node.Input values
  · have hvs : vs.erase.length = node.Input.length := by
      rw [← List.length_map AnyVal.ty, Inputs.map_ty_erase]
    rw [List.length_append, hvs] at hlen
    obtain rfl : rest = [] := List.eq_nil_of_length_eq_zero (by omega)
    rw [List.append_nil, Inputs.map_ty_erase]
  · have hrun : node.strict.task.run values = .error unwrapNone := by
      show (TaskBody.ofInputs node.Input node.task.apply).run values = _
      rw [TaskBody.run_ofInputs, hfail]
      rfl
    rw [TypedNode.call_eq_error.mpr hrun] at h
    cases h

namespace Session

def strict (s : Session Val) : Session Val :=
  { s with dag := { s.dag with nodes := s.dag.nodes.map (Option.map TypedNode.strict) } }

variable {s s' : Session Val}

theorem sameCalls_strict (s : Session Val) : s.SameCalls s.strict where
  calls := rfl
  types := by
    show (s.dag.nodes.map _).map _ = _
    rw [List.map_map]
    refine List.map_congr_left fun node _ => ?_
    cases node <;> rfl

theorem taskOf_strict (s : Session Val) (n : NodeId) :
    s.strict.dag.taskOf n = (s.dag.taskOf n).map TypedNode.strict := by
  show ((s.dag.nodes.map (Option.map TypedNode.strict))[n.index]?).join = ((s.dag.nodes[n.index]?).join).map _
  rw [List.getElem?_map, Option.join_map_eq_map_join]

theorem strict_addTask (s : Session Val) (node : TypedNode Val) :
    (s.addTask node).strict = s.strict.addTask node.strict := by
  obtain ⟨Input, Output, task⟩ := node
  cases Input <;> simp [addTask, strict, DagRunner.addTask, TypedNode.strict]

theorem strict_dependsOn (s : Session Val) (b : TaskBuilder Ty) (args : List (Arg Ty)) :
    (s.dependsOn b args).strict = s.strict.dependsOn b args := by
  show (⟨{ s.dag.dependsOn b.id (toNodeIds args) with
    nodes := (s.dag.dependsOn b.id (toNodeIds args)).nodes.map (Option.map TypedNode.strict) }, _, _, _⟩ : Session Val) = _
  rw [nodes_dependsOn, ← dependsOn_nodes]
  rfl

theorem Step.strict {foreign : TaskHandle Ty → Prop} (h : Step foreign s s') : Step foreign s.strict s'.strict := by
  cases h with
  | addTask node hb =>
    rw [strict_addTask]
    exact .addTask _ _ hb
  | coerceBuilder b b' hb hle => exact .coerceBuilder _ b b' hb hle
  | dependsOn b args hb hty hargs =>
    rw [strict_dependsOn]
    exact .dependsOn _ b args hb hty hargs
  | dropBuilder b hb => exact .dropBuilder _ b hb

theorem OwnHandles.strict (h : s.OwnHandles) : s.strict.OwnHandles := by
  refine System.Reachable.invariant (I := fun s : Session Val => s.strict.OwnHandles) ?_ ?_ h
  · rintro s rfl
    exact .of_init rfl
  · exact fun s s' ih hstep => ih.step hstep.strict

theorem WellWired.strict (h : s.WellWired) : s.strict.WellWired where
  own := h.own.strict
  small := by
    show (s.dag.nodes.map _).length < _
    rw [List.length_map]
    exact h.small
  wired id task ht hin := by
    rw [taskOf_strict] at ht
    obtain ⟨node, hnode, rfl⟩ := Option.map_eq_some_iff.mp ht
    exact h.wired id node hnode hin

theorem WellWired.wellTyped_of_strict (hs : s.WellWired) (hok : ∀ n p, ¬ s.strict.dag.Evals n (.error p)) :
    s.strict.dag.WellTyped := by
  intro n task ht
  have hs' := hs.strict
  have hinv := Reachable.inv hs'.own hs'.small
  obtain ⟨v, hv⟩ := Dataflow.ok_of_ready (D := s.strict.dag.dataflow) (fun m p _ => hok m p)
    (hs'.own.ready hs'.small (index_lt_of_taskOf ht))
  obtain ⟨values, hvs, hcall⟩ := call_of_evals ht hv
  have hcount : values.length = task.Input.length := by
    rw [← hvs.length_eq, hinv.edges, toNodeIds, List.length_map, hs'.length_argsOf ht]
  rw [taskOf_strict] at ht
  obtain ⟨node, -, rfl⟩ := Option.map_eq_some_iff.mp ht
  have htypes : values.map AnyVal.ty = node.Input := TypedNode.types_of_call_strict hcall.symm hcount
  exact (typedAt_iff hinv.wired hvs).mpr htypes

/-! ## The condition -/

/-- **When `run` computes the graph**: with all non-panicking tasks with which the calls can be made `run` computes the
recursive evaluation of the graph, exactly when every task is wired to tasks whose output types are its input types. If
one is not, there are non-panicking tasks with which the same calls make a graph whose run returns an error. -/
theorem WellWired.run_correct_iff (hs : s.WellWired)
    (hpure : ∀ id task, s.dag.taskOf id = some task → task.NonPanicking) {sp : Spawner Val} (hsp : sp.PassesThrough)
    (it : IterOrder) (co : CompletionOrder Val) :
    ((∀ s' : Session Val, s.SameCalls s' → s'.WellWired →
        (∀ id task, s'.dag.taskOf id = some task → task.NonPanicking) → s'.RunsCorrectly sp it co) ↔ s.dag.WellTyped) ∧
      (¬ s.dag.WellTyped → ∃ s' : Session Val, s.SameCalls s' ∧ s'.WellWired ∧
        (∀ id task, s'.dag.taskOf id = some task → task.NonPanicking) ∧
        ∃ e, s'.dag.run it sp co = some (.ok (.error e))) := by
  have hpure' : ∀ id task, s.strict.dag.taskOf id = some task → task.NonPanicking := by
    intro id task ht
    rw [taskOf_strict] at ht
    obtain ⟨node, hnode, rfl⟩ := Option.map_eq_some_iff.mp ht
    exact (hpure id node hnode).strict
  have herror : ¬ s.dag.WellTyped → ∃ e, s.strict.dag.run it sp co = some (.ok (.error e)) := by
    intro hbad
    obtain ⟨t, k, ht, hfinal, -⟩ := (Reachable.inv hs.strict.own hs.strict.small).wired.final hsp.honest it co
    rw [DagRunner.run_eq ht]
    cases hresult : t.result with
    | error e => exact ⟨e, rfl⟩
    | ok out =>
      have he := (RunState.result_eq_ok.mp hresult).1
      refine absurd (s.sameCalls_strict.symm.wellTyped hs.strict hs (hs.wellTyped_of_strict fun n p hp => ?_)) hbad
      have hsome := (hfinal.panic hp).1
      rw [he] at hsome
      cases hsome
  refine ⟨⟨fun hall => ?_, fun htyped s' hsame hs' hpure' => ?_⟩, fun hbad => ?_⟩
  · by_contra hbad
    obtain ⟨e, he⟩ := herror hbad
    obtain ⟨out, hrun, -⟩ := hall s.strict s.sameCalls_strict hs.strict hpure'
    rw [he] at hrun
    cases hrun
  · exact hs'.runsCorrectly (hsame.wellTyped hs hs' htyped) hpure' hsp it co
  · exact ⟨s.strict, s.sameCalls_strict, hs.strict, hpure', herror hbad⟩

theorem run_correct_sample : (Sample.session (Sample.value 7)).RunsCorrectly .identity ⟨.stored _, .stored _⟩ .reversed := by
  have hs := Sample.wellWired_session (Sample.value 2) rfl rfl
  have hs' := Sample.wellWired_session (Sample.value 7) rfl rfl
  obtain ⟨hiff, -⟩ := WellWired.run_correct_iff hs Sample.nonPanicking Spawner.identity_passesThrough
    ⟨.stored _, .stored _⟩ .reversed
  exact hiff.mpr ((Sample.plain_session (Sample.value 2) rfl rfl).wellTyped hs) _ ⟨rfl, rfl⟩ hs' Sample.nonPanicking

/-- No task panics; the call is given a function of all strings, and unwraps the failed downcast. -/
theorem not_run_correct : Sample.coerced.WellWired ∧
    (∀ id task, Sample.coerced.dag.taskOf id = some task → task.NonPanicking) ∧
    Sample.coerced.dag.run ⟨.stored _, .stored _⟩ .identity .reversed =
      some (.ok (.error (.TaskPanicked 1 "called `Option::unwrap()` on a `None` value"))) ∧
    ¬ Sample.coerced.RunsCorrectly .identity ⟨.stored _, .stored _⟩ .reversed := by
  refine ⟨Sample.wellWired_coerced, Sample.nonPanicking_coerced, rfl, ?_⟩
  rintro ⟨out, hrun, -⟩
  cases hrun

end Session

end Dagx
