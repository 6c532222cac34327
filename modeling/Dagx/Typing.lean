import Dagx.Graph
import Dagx.Simulation

/-!
# Typed evaluation

Types are erased in the graph, and a handle can be passed at another type than the output type of its task.

* `DagRunner.depth`, `OwnHandles.atDepth_iff`: the longest dependency path below a task is its round;
* `DagRunner.TypedAt`, `DagRunner.WellTyped`: the dependencies of a task have the output types that its `Input` lists;
* `typedAt_iff`, `TypedAt.evals_apply`: then, and only then, its inputs have its types, and its result is its body applied
  to them; a panic is the body's (`WellTyped.no_panics`);
* `Session.Exact`, `Plain.wellTyped`: so it is when every handle and builder is used at its own type.
-/

namespace Dagx

open Layering DagRunner

variable {Ty : Type} [Preorder Ty] {Val : Ty → Type}

noncomputable def DagRunner.depth (dag : DagRunner Val) (n : NodeId) : Nat :=
  Layering.depth (fun n => dag.edges.lookup n) n

namespace Session

/-! ## Depth -/

theorem OwnHandles.atDepth_iff {s : Session Val} (h : s.OwnHandles) (hlen : s.dag.nodes.length < 2 ^ 32) {n : NodeId}
    {k : Nat} : AtDepth s.dag.deps k n ↔ n.index < s.dag.nodes.length ∧ s.dag.depth n = k := by
  have hdepth : s.dag.depth n = Layering.depth s.dag.deps n := by rw [DagRunner.depth, h.deps_eq hlen]
  rw [hdepth]
  constructor
  · intro hat
    exact ⟨(h.exists_ready_iff hlen n).mp ⟨k + 1, hat.1⟩, hat.depth_eq⟩
  · rintro ⟨hn, rfl⟩
    exact (h.ready hlen hn).atDepth

theorem OwnHandles.ready_iff {s : Session Val} (h : s.OwnHandles) (hlen : s.dag.nodes.length < 2 ^ 32) {n : NodeId}
    {k : Nat} : Ready s.dag.deps k n ↔ n.index < s.dag.nodes.length ∧ s.dag.depth n < k := by
  rw [ready_iff_atDepth]
  constructor
  · rintro ⟨j, hj, hat⟩
    obtain ⟨hn, rfl⟩ := (h.atDepth_iff hlen).mp hat
    exact ⟨hn, hj⟩
  · rintro ⟨hn, hlt⟩
    exact ⟨_, hlt, (h.atDepth_iff hlen).mpr ⟨hn, rfl⟩⟩

end Session

/-! ## Types -/

/-- The tasks that a task was wired to have the output types that its `Input` lists, in order. -/
def DagRunner.TypedAt (dag : DagRunner Val) (n : NodeId) (task : TypedNode Val) : Prop :=
  (dag.edgesOf n).map (fun d => (dag.taskOf d).map TypedNode.Output) = task.Input.map some

def DagRunner.WellTyped (dag : DagRunner Val) : Prop := ∀ n task, dag.taskOf n = some task → dag.TypedAt n task

theorem exists_task_of_ready {dag : DagRunner Val} (hw : dag.Wired) {n : NodeId} {j : Nat} (hn : Ready dag.deps j n) :
    ∃ task, dag.taskOf n = some task := by
  cases j with
  | zero => exact hn.elim
  | succ j =>
    obtain ⟨ds, hds, -⟩ := hn
    exact hw.task n (hw.index_lt (deps_eq_some.mp hds).1)

section Evaluation

variable [DecidableEq Ty] {dag : DagRunner Val} {n : NodeId} {task : TypedNode Val}

theorem call_of_evals (ht : dag.taskOf n = some task) {r : Outcome (AnyVal Val)} (hr : dag.Evals n r) :
    ∃ vs, List.Forall₂ (fun d v => dag.Evals d (.ok v)) (dag.edgesOf n) vs ∧ r = task.call vs := by
  obtain ⟨ds, vs, hds, hvs, hfire⟩ := Dataflow.evals_iff.mp hr
  have hedges : dag.edgesOf n = ds := by
    rw [edgesOf, (deps_eq_some.mp hds).1]
    rfl
  refine ⟨vs, hedges ▸ hvs, ?_⟩
  rw [hfire]
  show (dag.taskOf n).elim _ _ = _
  rw [ht]
  rfl

theorem ty_of_evals {v : AnyVal Val} (h : dag.Evals n (.ok v)) (ht : dag.taskOf n = some task) : v.ty = task.Output := by
  obtain ⟨vs, -, hcall⟩ := call_of_evals ht h
  exact TypedNode.ty_of_call hcall.symm

theorem values_unique {ds : List NodeId} {vs ws : List (AnyVal Val)}
    (hvs : List.Forall₂ (fun d v => dag.Evals d (.ok v)) ds vs)
    (hws : List.Forall₂ (fun d v => dag.Evals d (.ok v)) ds ws) : vs = ws :=
  Dataflow.forall₂_unique hvs hws fun _ _ _ hz hw => Except.ok.inj ((List.forall₂_zip hvs hz).unique hw)

theorem types_of_evals (hw : dag.Wired) {ds : List NodeId} {vs : List (AnyVal Val)}
    (hvs : List.Forall₂ (fun d v => dag.Evals d (.ok v)) ds vs) :
    ds.map (fun d => (dag.taskOf d).map TypedNode.Output) = (vs.map AnyVal.ty).map some := by
  induction hvs with
  | nil => rfl
  | cons hv _ ih =>
    obtain ⟨j, hj⟩ := Dataflow.Evals.ready hv
    obtain ⟨task, htask⟩ := exists_task_of_ready hw hj
    rw [List.map_cons, List.map_cons, List.map_cons, ih, htask, ty_of_evals hv htask]
    rfl

/-- The inputs that a task gets have the types of its `Input` exactly when its dependencies have them as outputs. -/
theorem typedAt_iff (hw : dag.Wired) {vs : List (AnyVal Val)}
    (hvs : List.Forall₂ (fun d v => dag.Evals d (.ok v)) (dag.edgesOf n) vs) :
    dag.TypedAt n task ↔ vs.map AnyVal.ty = task.Input := by
  rw [DagRunner.TypedAt, types_of_evals hw hvs]
  exact (List.map_injective_iff.mpr (Option.some_injective Ty)).eq_iff

/-- **The result of a task with inputs of the right types** is its body applied to them. -/
theorem DagRunner.TypedAt.evals_apply (h : dag.TypedAt n task) (hw : dag.Wired) (ht : dag.taskOf n = some task)
    {r : Outcome (AnyVal Val)} (hr : dag.Evals n r) :
    ∃ vs : Inputs Val task.Input, List.Forall₂ (fun d v => dag.Evals d (.ok v)) (dag.edgesOf n) vs.erase ∧
      r = (task.task.apply vs).map fun output => ⟨task.Output, output⟩ := by
  obtain ⟨values, hvs, hcall⟩ := call_of_evals ht hr
  obtain ⟨vs, rfl⟩ := Inputs.exists_erase ((typedAt_iff hw hvs).mp h)
  exact ⟨vs, hvs, hcall.trans (task.call_erase vs)⟩

/-- Where inputs have the right types, a task panics only by its own body. -/
theorem DagRunner.WellTyped.no_panics (h : dag.WellTyped) (hw : dag.Wired)
    (hpure : ∀ id task, dag.taskOf id = some task → task.NonPanicking) (n : NodeId) (p : Payload) :
    ¬ dag.Evals n (.error p) := by
  intro hp
  obtain ⟨j, hj⟩ := Dataflow.Evals.ready hp
  obtain ⟨task, htask⟩ := exists_task_of_ready hw hj
  obtain ⟨vs, -, hr⟩ := (h n task htask).evals_apply hw htask hp
  obtain ⟨v, hv⟩ := hpure n task htask vs
  rw [hv] at hr
  cases hr

end Evaluation

namespace Session

/-! ## Everything at its own type -/

/-- A builder has the types of its task, a handle the output type of its task, and a tuple passed to `depends_on` the input
types of the task and handles as they were issued. -/
structure Exact (s : Session Val) : Prop where
  builder : ∀ b, s.builder = some b → ∀ task, s.dag.taskOf b.id = some task → task.Input = b.Input ∧ task.Output = b.Output
  handles : ∀ h ∈ s.handles, ∀ task, s.dag.taskOf h.id = some task → task.Output = h.ty
  calls : ∀ call ∈ s.calls, ∀ task, s.dag.taskOf call.1 = some task →
    call.2.map (fun a => a.handle.ty) = task.Input ∧ ∀ a ∈ call.2, a.handle ∈ s.handles

variable {s s' : Session Val}

theorem exact_new : (new : Session Val).Exact where
  builder b hb := by simp [new] at hb
  handles h hh := by simp [new] at hh
  calls call hc := by simp [new] at hc

theorem Exact.step (h : s.Exact) (hinv : s.Inv) (hs : PlainStep s s') (hlen : s.dag.nodes.length < 2 ^ 32) : s'.Exact := by
  cases hs with
  | addTask node hb =>
    have hadded : ∀ id task, (s.dag.addTask node).2.taskOf id = some task →
        id = .ofLen s.dag.nodes.length ∧ task = node ∨ s.dag.taskOf id = some task := by
      intro id task ht
      rw [taskOf_addTask s.dag node id hlen] at ht
      split_ifs at ht with hid
      · exact Or.inl ⟨hid, (Option.some.inj ht).symm⟩
      · exact Or.inr ht
    have hhandles : ∀ x ∈ s.handles, ∀ task, (s.dag.addTask node).2.taskOf x.id = some task → task.Output = x.ty := by
      intro x hx task ht
      obtain ⟨old, hold⟩ := hinv.handles x hx
      rcases hadded x.id task ht with ⟨hid, -⟩ | ht
      · exact absurd hid (ne_ofLen_of_taskOf hlen hold)
      · exact h.handles x hx task ht
    have hcalls : ∀ call ∈ s.calls, ∀ task, (s.dag.addTask node).2.taskOf call.1 = some task →
        call.2.map (fun a => a.handle.ty) = task.Input ∧ ∀ a ∈ call.2, a.handle ∈ s.handles := by
      intro call hc task ht
      obtain ⟨old, hold, -⟩ := hinv.calls call hc
      rcases hadded call.1 task ht with ⟨hid, -⟩ | ht
      · exact absurd hid (ne_ofLen_of_taskOf hlen hold)
      · exact h.calls call hc task ht
    have hnew : ∀ task, (s.dag.addTask node).2.taskOf (.ofLen s.dag.nodes.length) = some task → task = node := by
      intro task ht
      rw [taskOf_addTask s.dag node _ hlen, if_pos rfl] at ht
      exact (Option.some.inj ht).symm
    unfold Session.addTask
    cases hin : node.Input with
    | nil =>
      refine ⟨fun b hb' => ?_, fun x hx task ht => ?_, fun call hc task ht => ?_⟩
      · have hb' : s.builder = some b := hb'
        rw [hb] at hb'
        cases hb'
      · rcases List.mem_append.mp hx with hx | hx
        · exact hhandles x hx task ht
        · obtain rfl := List.mem_singleton.mp hx
          rw [hnew task ht]
      · obtain ⟨hty, hargs⟩ := hcalls call hc task ht
        exact ⟨hty, fun a ha => List.mem_append_left _ (hargs a ha)⟩
    | cons T Input =>
      refine ⟨fun b hb' task ht => ?_, hhandles, hcalls⟩
      cases hb'
      rw [hnew task ht]
      exact ⟨hin, rfl⟩
  | dependsOn b args hb hty hargs =>
    refine ⟨fun c hc => (by cases hc), fun x hx task ht => ?_, fun call hc task ht => ?_⟩
    · have ht : s.dag.taskOf x.id = some task := (taskOf_dependsOn s.dag b.id _ x.id).symm.trans ht
      rcases List.mem_append.mp hx with hx | hx
      · exact h.handles x hx task ht
      · obtain rfl := List.mem_singleton.mp hx
        exact (h.builder b hb task ht).2
    · have ht : s.dag.taskOf call.1 = some task := (taskOf_dependsOn s.dag b.id _ call.1).symm.trans ht
      rcases List.mem_append.mp hc with hc | hc
      · obtain ⟨htypes, hmem⟩ := h.calls call hc task ht
        exact ⟨htypes, fun a ha => List.mem_append_left _ (hmem a ha)⟩
      · obtain rfl := List.mem_singleton.mp hc
        refine ⟨hty.trans (h.builder b hb task ht).1.symm, fun a ha => ?_⟩
        obtain ⟨x, hx, rfl⟩ := hargs a ha
        exact List.mem_append_left _ hx
  | dropBuilder b hb => exact ⟨fun c hc => (nomatch hc), h.handles, h.calls⟩

theorem Plain.exact (h : s.Plain) (hlen : s.dag.nodes.length < 2 ^ 32) : s.Exact := by
  obtain ⟨s₀, rfl, hsteps⟩ := h
  induction hsteps with
  | refl => exact exact_new
  | @tail t t' hsteps hstep ih =>
    have hle : t.dag.nodes.length ≤ t'.dag.nodes.length := by
      cases hstep with
      | addTask node hb =>
        rw [length_addTask]
        omega
      | dependsOn b args hb hty hargs => rw [length_dependsOn]
      | dropBuilder b hb => exact le_refl _
    have hplain : t.Plain := ⟨_, rfl, hsteps⟩
    exact (ih (by omega)).step (Reachable.inv hplain.ownHandles (by omega)) hstep (by omega)

theorem Exact.typedAt (h : s.Exact) (hinv : s.Inv) {n : NodeId} {task : TypedNode Val} (ht : s.dag.taskOf n = some task)
    {args : List (Arg Ty)} (hcall : (n, args) ∈ s.calls) : s.dag.TypedAt n task := by
  obtain ⟨hty, hargs⟩ := h.calls _ hcall task ht
  rw [DagRunner.TypedAt, hinv.edges, argsOf_of_mem hinv.calls_nodup hcall, ← hty, toNodeIds, List.map_map, List.map_map]
  refine List.map_congr_left fun a ha => ?_
  obtain ⟨dep, hdep⟩ := hinv.handles _ (hargs a ha)
  show (s.dag.taskOf a.handle.id).map TypedNode.Output = some a.handle.ty
  rw [hdep, ← h.handles _ (hargs a ha) dep hdep]
  rfl

theorem WellWired.length_argsOf (hs : s.WellWired) {n : NodeId} {task : TypedNode Val} (ht : s.dag.taskOf n = some task) :
    (s.argsOf n).length = task.Input.length := by
  have hinv := Reachable.inv hs.own hs.small
  by_cases hcall : ∃ args, (n, args) ∈ s.calls
  · obtain ⟨args, hargs⟩ := hcall
    obtain ⟨task', ht', hcount⟩ := hinv.calls _ hargs
    rw [ht] at ht'
    cases ht'
    rw [argsOf_of_mem hinv.calls_nodup hargs]
    exact hcount
  · have hin : task.Input = [] := by
      by_contra hne
      exact hcall (hs.wired n task ht hne)
    push Not at hcall
    rw [argsOf_of_not_wired hcall, hin]
    rfl

/-- **Well-typed graphs**: those that use every handle and builder at its own type. -/
theorem Plain.wellTyped (h : s.Plain) (hs : s.WellWired) : s.dag.WellTyped := by
  intro n task ht
  have hinv := Reachable.inv hs.own hs.small
  by_cases hin : task.Input = []
  · have hcount := hs.length_argsOf ht
    rw [hin] at hcount
    rw [DagRunner.TypedAt, hinv.edges, List.eq_nil_of_length_eq_zero hcount, hin]
    rfl
  · obtain ⟨args, hcall⟩ := hs.wired n task ht hin
    exact (h.exact hs.small).typedAt hinv ht hcall

end Session

theorem Sample.no_panics (n : NodeId) (p : Payload) : ¬ (session (value 2)).dag.Evals n (.error p) := by
  have hs := wellWired_session (value 2) rfl rfl
  exact ((plain_session (value 2) rfl rfl).wellTyped hs).no_panics (Session.Reachable.wired hs.own) nonPanicking n p

end Dagx
