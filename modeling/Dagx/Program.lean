import Dagx.Morphism
import Dagx.Retrieval

/-!
# Programs that build graphs

A program in the language of the API, typed as the API types it: `Γ` lists the types of the handles in scope, newest
first. Handles are variables of the program (`Var`), a tuple of them is what `depends_on` takes (`Deps`).

* `Program.denote`: the program run in the order in which it is written, each task a call;
* `Program.build`: the calls it makes on a runner;
* `Program.run_denote`: the runner computes what the program says.
-/

namespace Dagx

open Layering System DagRunner

variable {Ty : Type}

/-- A handle in scope, by its position. -/
inductive Var : List Ty → Ty → Type
  | head {Γ : List Ty} {T : Ty} : Var (T :: Γ) T
  | tail {Γ : List Ty} {T U : Ty} (x : Var Γ T) : Var (U :: Γ) T

def Var.get {V : Ty → Type} : {Γ : List Ty} → {T : Ty} → Var Γ T → Inputs V Γ → V T
  | _, _, .head, (v, _) => v
  | _, _, .tail x, (_, vs) => x.get vs

/-- A tuple of handles for the inputs of a task. -/
inductive Deps (Γ : List Ty) : List Ty → Type
  | nil : Deps Γ []
  | cons {T : Ty} {Input : List Ty} (x : Var Γ T) (xs : Deps Γ Input) : Deps Γ (T :: Input)

def Deps.get {V : Ty → Type} {Γ : List Ty} : {Input : List Ty} → Deps Γ Input → Inputs V Γ → Inputs V Input
  | _, .nil, _ => ()
  | _, .cons x xs, env => (x.get env, xs.get env)

def Deps.args {Γ : List Ty} : {Input : List Ty} → Deps Γ Input → Inputs (fun _ => NodeId) Γ → List (Arg Ty)
  | _, .nil, _ => []
  | _, .cons (T := T) x xs, ids => .own ⟨x.get ids, T⟩ :: xs.args ids

theorem Deps.map_ty_args {Γ I : List Ty} (deps : Deps Γ I) (ids : Inputs (fun _ => NodeId) Γ) :
    (deps.args ids).map (fun a => a.handle.ty) = I := by
  induction deps with
  | nil => rfl
  | cons x xs ih => rw [Deps.args, List.map_cons, ih]; rfl

variable [Preorder Ty] {Val : Ty → Type}

/-- A program that builds a graph, with the handles in scope before and after it. -/
inductive Program (Val : Ty → Type) : List Ty → List Ty → Type
  | done {Γ : List Ty} : Program Val Γ Γ
  /-- `let x = dag.add_task(task);` -/
  | source {Γ Δ : List Ty} {R : Ty} (task : TaskBody Val R []) (rest : Program Val (R :: Γ) Δ) : Program Val Γ Δ
  /-- `let x = dag.add_task(task).depends_on((&y, ..));` -/
  | node {Γ Δ : List Ty} {R T : Ty} {I : List Ty} (task : TaskBody Val R (T :: I))
      (deps : Deps Γ (T :: I)) (rest : Program Val (R :: Γ) Δ) : Program Val Γ Δ
  /-- `dag.add_task(task);` with a task that has inputs -/
  | drop {Γ Δ : List Ty} {R T : Ty} {I : List Ty} (task : TaskBody Val R (T :: I))
      (rest : Program Val Γ Δ) : Program Val Γ Δ

namespace Program

def tasks : {Γ Δ : List Ty} → Program Val Γ Δ → Nat
  | _, _, .done => 0
  | _, _, .source _ rest => rest.tasks + 1
  | _, _, .node _ _ rest => rest.tasks + 1
  | _, _, .drop _ rest => rest.tasks + 1

/-- The calls a program makes on a runner, the ids of the handles in scope given. -/
def build : {Γ Δ : List Ty} → Program Val Γ Δ → Inputs (fun _ => NodeId) Γ → Session Val →
    Session Val × Inputs (fun _ => NodeId) Δ
  | _, _, .done, ids, s => (s, ids)
  | _, _, .source (R := R) task rest, ids, s =>
    rest.build ((s.dag.addTask ⟨[], R, task⟩).1, ids) (s.addTask ⟨[], R, task⟩)
  | _, _, .node (R := R) (T := T) (I := I) task deps rest, ids, s =>
    let id := (s.dag.addTask ⟨T :: I, R, task⟩).1
    rest.build (id, ids) ((s.addTask ⟨T :: I, R, task⟩).dependsOn ⟨id, T :: I, R⟩ (deps.args ids))
  | _, _, .drop (R := R) (T := T) (I := I) task rest, ids, s =>
    rest.build ids (s.addTask ⟨T :: I, R, task⟩).dropBuilder

/-- A program run in the order in which it is written, the values of the handles in scope given. A task whose builder is
dropped runs without its inputs. -/
def denote [DecidableEq Ty] : {Γ Δ : List Ty} → Program Val Γ Δ → Inputs Val Γ → Outcome (Inputs Val Δ)
  | _, _, .done, env => .ok env
  | _, _, .source task rest, env =>
    match task.apply () with
    | .ok v => rest.denote (v, env)
    | .error payload => .error payload
  | _, _, .node task deps rest, env =>
    match task.apply (deps.get env) with
    | .ok v => rest.denote (v, env)
    | .error payload => .error payload
  | _, _, .drop task rest, env =>
    match task.run [] with
    | .ok _ => rest.denote env
    | .error payload => .error payload

end Program

/-! ## The calls are API calls -/

def Session.InScope (s : Session Val) {Γ : List Ty} (ids : Inputs (fun _ => NodeId) Γ) : Prop :=
  ∀ T (x : Var Γ T), (⟨x.get ids, T⟩ : TaskHandle Ty) ∈ s.handles

theorem Session.InScope.cons {s : Session Val} {Γ : List Ty} {ids : Inputs (fun _ => NodeId) Γ} (h : s.InScope ids)
    (s' : Session Val) {id : NodeId} {R : Ty} (hs' : s'.handles = s.handles ++ [⟨id, R⟩]) :
    s'.InScope (Γ := R :: Γ) (id, ids) := by
  intro T x
  rw [hs']
  cases x with
  | head => exact List.mem_append_right _ (List.mem_singleton.mpr rfl)
  | tail x => exact List.mem_append_left _ (h T x)

theorem Deps.owns {s : Session Val} {Γ I : List Ty} {ids : Inputs (fun _ => NodeId) Γ} (h : s.InScope ids)
    (deps : Deps Γ I) : ∀ a ∈ deps.args ids, ∃ x ∈ s.handles, a = .own x := by
  induction deps with
  | nil => simp [Deps.args]
  | cons x xs ih =>
    intro a ha
    rcases List.mem_cons.mp ha with rfl | ha
    · exact ⟨_, h _ x, rfl⟩
    · exact ih a ha

namespace Session

variable {s : Session Val} {Γ : List Ty} {ids : Inputs (fun _ => NodeId) Γ}

/-- `let x = dag.add_task(task).depends_on(..);` -/
theorem InScope.node_steps (h : s.InScope ids) (hb : s.builder = none) {R T : Ty} {I : List Ty}
    (task : TaskBody Val R (T :: I)) (deps : Deps Γ (T :: I)) :
    Relation.ReflTransGen PlainStep s ((s.addTask ⟨T :: I, R, task⟩).dependsOn
      ⟨(s.dag.addTask ⟨T :: I, R, task⟩).1, T :: I, R⟩ (deps.args ids)) :=
  (Relation.ReflTransGen.single (.addTask s _ hb)).tail
    (.dependsOn _ _ _ rfl (deps.map_ty_args ids) (deps.owns h))

/-- `dag.add_task(task);` -/
theorem drop_steps (hb : s.builder = none) {R T : Ty} {I : List Ty} (task : TaskBody Val R (T :: I)) :
    Relation.ReflTransGen PlainStep s (s.addTask ⟨T :: I, R, task⟩).dropBuilder :=
  (Relation.ReflTransGen.single (.addTask s _ hb)).tail (.dropBuilder _ _ rfl)

end Session

theorem Program.build_steps {Γ Δ : List Ty} (p : Program Val Γ Δ) : ∀ {s : Session Val}
    {ids : Inputs (fun _ => NodeId) Γ}, s.InScope ids → s.builder = none →
    Relation.ReflTransGen Session.PlainStep s (p.build ids s).1 ∧
      (p.build ids s).1.dag.nodes.length = s.dag.nodes.length + p.tasks := by
  induction p with
  | done => exact fun _ _ => ⟨.refl, rfl⟩
  | @source Γ Δ R task rest ih =>
    intro s ids h hb
    obtain ⟨hsteps, hlen⟩ := ih (h.cons (s.addTask ⟨[], R, task⟩) rfl) hb
    refine ⟨.head (.addTask s _ hb) hsteps, hlen.trans ?_⟩
    rw [Session.length_addTask, tasks]
    omega
  | @node Γ Δ R T I task deps rest ih =>
    intro s ids h hb
    obtain ⟨hsteps, hlen⟩ := ih (h.cons ((s.addTask ⟨T :: I, R, task⟩).dependsOn
      ⟨(s.dag.addTask ⟨T :: I, R, task⟩).1, T :: I, R⟩ (deps.args ids)) rfl) rfl
    refine ⟨(h.node_steps hb task deps).trans hsteps, hlen.trans ?_⟩
    rw [Session.length_dependsOn, Session.length_addTask, tasks]
    omega
  | @drop Γ Δ R T I task rest ih =>
    intro s ids h hb
    obtain ⟨hsteps, hlen⟩ := ih (s := (s.addTask ⟨T :: I, R, task⟩).dropBuilder) h rfl
    refine ⟨(Session.drop_steps hb task).trans hsteps, hlen.trans ?_⟩
    show (s.addTask ⟨T :: I, R, task⟩).dag.nodes.length + _ = _
    rw [Session.length_addTask, tasks]
    omega

/-! ## One call -/

namespace DagRunner

variable (dag : DagRunner Val) (task : TypedNode Val)

theorem taskOf_addTask_last (hlen : dag.nodes.length < 2 ^ 32) :
    (dag.addTask task).2.taskOf (.ofLen dag.nodes.length) = some task := by
  rw [taskOf_addTask dag task _ hlen, if_pos rfl]

theorem edgesOf_addTask_last : (dag.addTask task).2.edgesOf (.ofLen dag.nodes.length) = [] := by
  rw [edgesOf_addTask, if_pos rfl]

end DagRunner

namespace Session

variable {s s' : Session Val} {Γ : List Ty} {ids : Inputs (fun _ => NodeId) Γ} {env : Inputs Val Γ}

theorem OwnHandles.steps (hs : s.OwnHandles) (hsteps : Relation.ReflTransGen (Step fun _ => False) s s') :
    s'.OwnHandles := by
  obtain ⟨s₀, h₀, hr⟩ := hs
  exact ⟨s₀, h₀, hr.trans hsteps⟩

variable [DecidableEq Ty]

theorem OwnHandles.index_of_evals (hs : s.OwnHandles) (hlen : s.dag.nodes.length < 2 ^ 32) {n : NodeId}
    {r : Outcome (AnyVal Val)} (hr : s.dag.Evals n r) : n.index < s.dag.nodes.length := by
  obtain ⟨j, hj⟩ := Dataflow.Evals.ready hr
  exact (hs.exists_ready_iff hlen n).mp ⟨j, hj⟩

theorem OwnHandles.evals_extend (hs : s.OwnHandles) (hb : s.builder = none)
    (hsteps : Relation.ReflTransGen (Step fun _ => False) s s') (hlen : s'.dag.nodes.length < 2 ^ 32) {n : NodeId}
    {r : Outcome (AnyVal Val)} (hn : n.index < s.dag.nodes.length) : s'.dag.Evals n r ↔ s.dag.Evals n r := by
  obtain ⟨hmaps, hle, -⟩ := maps_id_of_steps hs hb hsteps hlen
  exact (hs.morphism (by omega) (hs.steps hsteps) hlen hmaps).evals_iff hn

/-- The result of a task just added: its body on the outputs of the tasks it was wired to. -/
theorem OwnHandles.evals_last (hs : s.OwnHandles) (hb : s.builder = none)
    (hsteps : Relation.ReflTransGen (Step fun _ => False) s s') (hlen : s'.dag.nodes.length < 2 ^ 32)
    (hone : s'.dag.nodes.length = s.dag.nodes.length + 1) {node : TypedNode Val} {ds : List NodeId}
    {vs : List (AnyVal Val)} (ht : s'.dag.taskOf (.ofLen s.dag.nodes.length) = some node)
    (hds : s'.dag.edgesOf (.ofLen s.dag.nodes.length) = ds)
    (hvs : List.Forall₂ (fun d v => s.dag.Evals d (.ok v)) ds vs) :
    s'.dag.Evals (.ofLen s.dag.nodes.length) (node.call vs) := by
  have hid : (NodeId.ofLen s.dag.nodes.length).index < s'.dag.nodes.length := by
    rw [NodeId.index_ofLen_of_lt (by omega)]
    omega
  refine Dataflow.evals_iff.mpr ⟨ds, vs, ?_, hvs.imp fun d v hv => ?_, ?_⟩
  · rw [← hds]
    exact (hs.steps hsteps).deps_edgesOf hlen hid
  · exact (hs.evals_extend hb hsteps hlen (hs.index_of_evals (by omega) hv)).mpr hv
  · show _ = (s'.dag.taskOf _).elim _ _
    rw [ht]
    rfl

/-- After the calls of a program: the handles in scope were issued by the runner, their tasks have the values in scope,
and no task panics. -/
structure Represents (s : Session Val) {Γ : List Ty} (ids : Inputs (fun _ => NodeId) Γ) (env : Inputs Val Γ) : Prop where
  own : s.OwnHandles
  builder : s.builder = none
  inScope : s.InScope ids
  evals : ∀ T (x : Var Γ T), s.dag.Evals (x.get ids) (.ok ⟨T, x.get env⟩)
  ok : ∀ n p, ¬ s.dag.Evals n (.error p)

theorem represents_new : (new : Session Val).Represents (Γ := []) () () where
  own := .of_init rfl
  builder := rfl
  inScope _ x := nomatch x
  evals _ x := nomatch x
  ok n p hp := by
    have hn := OwnHandles.index_of_evals (.of_init rfl) (by simp [new, DagRunner.new]) hp
    simp [new, DagRunner.new] at hn

theorem Represents.ok_extend (h : s.Represents ids env) (hsteps : Relation.ReflTransGen (Step fun _ => False) s s')
    (hlen : s'.dag.nodes.length < 2 ^ 32) (hone : s'.dag.nodes.length = s.dag.nodes.length + 1) {a : AnyVal Val}
    (ha : s'.dag.Evals (.ofLen s.dag.nodes.length) (.ok a)) (n : NodeId) (p : Payload) :
    ¬ s'.dag.Evals n (.error p) := by
  intro hp
  have hn := (h.own.steps hsteps).index_of_evals hlen hp
  rcases Nat.lt_or_ge n.index s.dag.nodes.length with hlt | hge
  · exact h.ok n p ((h.own.evals_extend h.builder hsteps hlen hlt).mp hp)
  · obtain rfl : n = .ofLen s.dag.nodes.length := by
      rw [← NodeId.index_inj, NodeId.index_ofLen_of_lt (by omega)]
      omega
    exact ha.ok_ne_error hp

theorem Represents.evals_extend (h : s.Represents ids env) (hsteps : Relation.ReflTransGen (Step fun _ => False) s s')
    (hlen : s'.dag.nodes.length < 2 ^ 32) (hle : s.dag.nodes.length ≤ s'.dag.nodes.length) (T : Ty) (x : Var Γ T) :
    s'.dag.Evals (x.get ids) (.ok ⟨T, x.get env⟩) := by
  have hv := h.evals T x
  exact (h.own.evals_extend h.builder hsteps hlen (h.own.index_of_evals (by omega) hv)).mpr hv

theorem Represents.cons (h : s.Represents ids env) (hsteps : Relation.ReflTransGen (Step fun _ => False) s s')
    (hlen : s'.dag.nodes.length < 2 ^ 32) (hone : s'.dag.nodes.length = s.dag.nodes.length + 1)
    (hb : s'.builder = none) {R : Ty} {v : Val R}
    (hhandles : s'.handles = s.handles ++ [⟨.ofLen s.dag.nodes.length, R⟩])
    (hv : s'.dag.Evals (.ofLen s.dag.nodes.length) (.ok ⟨R, v⟩)) :
    s'.Represents (Γ := R :: Γ) (.ofLen s.dag.nodes.length, ids) (v, env) where
  own := h.own.steps hsteps
  builder := hb
  inScope := h.inScope.cons s' hhandles
  evals T x := by
    cases x with
    | head => exact hv
    | tail x => exact h.evals_extend hsteps hlen (by omega) T x
  ok := h.ok_extend hsteps hlen hone hv

theorem Represents.evals_deps (h : s.Represents ids env) {I : List Ty} (deps : Deps Γ I) :
    List.Forall₂ (fun d v => s.dag.Evals d (.ok v)) (toNodeIds (deps.args ids)) (deps.get env).erase := by
  induction deps with
  | nil => exact .nil
  | @cons T I x xs ih => exact .cons (h.evals T x) ih

/-! ### What each call adds -/

variable {R T : Ty} {I : List Ty}

theorem Represents.evals_source (h : s.Represents ids env) (hlen : s.dag.nodes.length + 1 < 2 ^ 32)
    (task : TaskBody Val R []) : (s.addTask ⟨[], R, task⟩).dag.Evals (.ofLen s.dag.nodes.length)
      ((task.apply ()).map fun output => ⟨R, output⟩) := by
  have hone := length_addTask s ⟨[], R, task⟩
  have hsteps : Relation.ReflTransGen (Step fun _ => False) s (s.addTask ⟨[], R, task⟩) :=
    .single (.addTask s _ h.builder)
  have hlast := h.own.evals_last h.builder hsteps (by omega) hone (taskOf_addTask_last s.dag _ (by omega))
    (edgesOf_addTask_last s.dag _) .nil
  rw [← TypedNode.call_erase ⟨[], R, task⟩ ()]
  exact hlast

theorem Represents.evals_node (h : s.Represents ids env) (hlen : s.dag.nodes.length + 1 < 2 ^ 32)
    (task : TaskBody Val R (T :: I)) (deps : Deps Γ (T :: I)) :
    ((s.addTask ⟨T :: I, R, task⟩).dependsOn ⟨.ofLen s.dag.nodes.length, T :: I, R⟩ (deps.args ids)).dag.Evals
      (.ofLen s.dag.nodes.length) ((task.apply (deps.get env)).map fun output => ⟨R, output⟩) := by
  set node : TypedNode Val := ⟨T :: I, R, task⟩
  set s' := (s.addTask node).dependsOn ⟨.ofLen s.dag.nodes.length, T :: I, R⟩ (deps.args ids)
  have hone : s'.dag.nodes.length = s.dag.nodes.length + 1 := by rw [length_dependsOn, length_addTask]
  have ht : s'.dag.taskOf (.ofLen s.dag.nodes.length) = some node := by
    show ((s.dag.addTask node).2.dependsOn _ _).taskOf _ = _
    rw [taskOf_dependsOn, taskOf_addTask_last s.dag node (by omega)]
  have hds : s'.dag.edgesOf (.ofLen s.dag.nodes.length) = toNodeIds (deps.args ids) := by
    show ((s.dag.addTask node).2.dependsOn _ _).edgesOf _ = _
    rw [edgesOf_dependsOn _ _ _ _ ((mem_edges_addTask s.dag node _).mpr (Or.inl rfl)), edgesOf_addTask_last, if_pos rfl,
      List.nil_append]
  have hsteps : Relation.ReflTransGen (Step fun _ => False) s s' :=
    PlainStep.steps (h.inScope.node_steps h.builder task deps)
  have hlast := h.own.evals_last h.builder hsteps (by omega) hone ht hds (h.evals_deps deps)
  rw [node.call_erase] at hlast
  exact hlast

theorem Represents.evals_drop (h : s.Represents ids env) (hlen : s.dag.nodes.length + 1 < 2 ^ 32)
    (task : TaskBody Val R (T :: I)) : (s.addTask ⟨T :: I, R, task⟩).dropBuilder.dag.Evals (.ofLen s.dag.nodes.length)
      ((task.run []).map fun output => ⟨R, output⟩) :=
  have hone := length_addTask s ⟨T :: I, R, task⟩
  h.own.evals_last h.builder (PlainStep.steps (drop_steps h.builder task)) (by
    show (s.addTask ⟨T :: I, R, task⟩).dag.nodes.length < _
    omega) hone (taskOf_addTask_last s.dag ⟨T :: I, R, task⟩ (by omega)) (edgesOf_addTask_last s.dag _) .nil

end Session

/-! ## The whole program -/

namespace Program

open Session

variable [DecidableEq Ty]

/-- Once a task panics, it does whatever the rest of the program adds. -/
theorem build_panics {Γ Δ : List Ty} (rest : Program Val Γ Δ) {s : Session Val} {ids : Inputs (fun _ => NodeId) Γ}
    (hs : s.OwnHandles) (hb : s.builder = none) (hscope : s.InScope ids) (hlen : s.dag.nodes.length + rest.tasks < 2 ^ 32)
    {n : NodeId} {p : Payload} (hp : s.dag.Evals n (.error p)) :
    ∃ n p, (rest.build ids s).1.dag.Evals n (.error p) := by
  obtain ⟨hsteps, hlength⟩ := rest.build_steps hscope hb
  have hn := hs.index_of_evals (by omega) hp
  exact ⟨n, p, (hs.evals_extend hb (PlainStep.steps hsteps) (by omega) hn).mpr hp⟩

/-- **The calls of a program build what it says.** When it returns, the handles in scope have its values and no task
panics; when a task panics, some task of the graph does. -/
theorem build_spec {Γ Δ : List Ty} (p : Program Val Γ Δ) : ∀ {s : Session Val} {ids : Inputs (fun _ => NodeId) Γ}
    {env : Inputs Val Γ}, s.Represents ids env → s.dag.nodes.length + p.tasks < 2 ^ 32 →
    (∀ env', p.denote env = .ok env' → (p.build ids s).1.Represents (p.build ids s).2 env') ∧
      ∀ payload, p.denote env = .error payload → ∃ n q, (p.build ids s).1.dag.Evals n (.error q) := by
  induction p with
  | done =>
    intro s ids env h _
    refine ⟨fun env' he => ?_, fun payload he => by cases he⟩
    cases he
    exact h
  | @source Γ Δ R task rest ih =>
    intro s ids env h hlen
    rw [tasks] at hlen
    have hone := length_addTask s ⟨[], R, task⟩
    have hsteps : Relation.ReflTransGen (Step fun _ => False) s (s.addTask ⟨[], R, task⟩) :=
      .single (.addTask s _ h.builder)
    have hlast := h.evals_source (by omega) task
    rw [denote, build]
    cases happly : task.apply () with
    | ok v =>
      rw [happly] at hlast
      exact ih (h.cons hsteps (by omega) hone h.builder rfl hlast) (by omega)
    | error payload =>
      rw [happly] at hlast
      refine ⟨fun env' he => (by cases he), fun _ _ => ?_⟩
      exact rest.build_panics (h.own.steps hsteps) h.builder (h.inScope.cons _ rfl) (by omega) hlast
  | @node Γ Δ R T I task deps rest ih =>
    intro s ids env h hlen
    rw [tasks] at hlen
    have hone : ((s.addTask ⟨T :: I, R, task⟩).dependsOn ⟨(s.dag.addTask ⟨T :: I, R, task⟩).1, T :: I, R⟩
        (deps.args ids)).dag.nodes.length = s.dag.nodes.length + 1 := by rw [length_dependsOn, length_addTask]
    have hsteps := PlainStep.steps (h.inScope.node_steps h.builder task deps)
    have hlast := h.evals_node (by omega) task deps
    rw [denote, build]
    cases happly : task.apply (deps.get env) with
    | ok v =>
      rw [happly] at hlast
      exact ih (h.cons hsteps (by omega) hone rfl rfl hlast) (by omega)
    | error payload =>
      rw [happly] at hlast
      refine ⟨fun env' he => (by cases he), fun _ _ => ?_⟩
      exact rest.build_panics (h.own.steps hsteps) rfl (h.inScope.cons _ rfl) (by omega) hlast
  | @drop Γ Δ R T I task rest ih =>
    intro s ids env h hlen
    rw [tasks] at hlen
    have hone : (s.addTask ⟨T :: I, R, task⟩).dropBuilder.dag.nodes.length = s.dag.nodes.length + 1 :=
      length_addTask s _
    have hsteps := PlainStep.steps (drop_steps h.builder task)
    have hlast := h.evals_drop (by omega) task
    rw [denote, build]
    cases hrun : task.run [] with
    | ok v =>
      rw [hrun] at hlast
      have hrep : (s.addTask ⟨T :: I, R, task⟩).dropBuilder.Represents ids env := ⟨h.own.steps hsteps, rfl, h.inScope,
        h.evals_extend hsteps (by omega) (by omega), h.ok_extend hsteps (by omega) hone hlast⟩
      exact ih hrep (by omega)
    | error payload =>
      rw [hrun] at hlast
      refine ⟨fun env' he => (by cases he), fun _ _ => ?_⟩
      exact rest.build_panics (h.own.steps hsteps) rfl h.inScope (by omega) hlast

/-- **The runner computes what the program says**: for every program of fewer than `2 ^ 32` tasks that uses its own
handles, every iteration order, completion order and honest spawner, `run` returns `Ok` if the program, run in the order
in which it is written, returns, and then `get` on each handle in scope returns its value; it returns an error if a task
of the program panics. -/
theorem run_denote {Δ : List Ty} (p : Program Val [] Δ) (hlen : p.tasks < 2 ^ 32) {sp : Spawner Val} (hsp : sp.Honest)
    (it : IterOrder) (co : CompletionOrder Val) :
    ∃ r, (p.build () .new).1.dag.run it sp co = some (.ok r) ∧
      (∀ env, p.denote () = .ok env → ∃ out, r = .ok out ∧
        ∀ T (x : Var Δ T), ∃ out', out.get ⟨x.get (p.build () .new).2, T⟩ = .ok (x.get env, out')) ∧
      ∀ payload, p.denote () = .error payload → ∃ e, r = .error e := by
  have hzero : (Session.new : Session Val).dag.nodes.length = 0 := rfl
  obtain ⟨hok, herror⟩ := p.build_spec represents_new (by rw [hzero]; omega)
  obtain ⟨hsteps, -⟩ := p.build_steps represents_new.inScope rfl
  have hown := represents_new.own.steps (PlainStep.steps hsteps)
  obtain ⟨r, hr, hrok, hrerror⟩ := (Reachable.wired hown).run_spec hsp it co
  refine ⟨r, hr, fun env hdenote => ?_, fun payload hdenote => ?_⟩
  · have hrep := hok env hdenote
    cases r with
    | error e =>
      obtain ⟨n, q, hq⟩ := hrerror e rfl
      exact absurd hq (hrep.ok n q)
    | ok out =>
      obtain ⟨-, hlookup, hstrong⟩ := hrok out rfl
      refine ⟨out, rfl, fun T x => ?_⟩
      have hev := hrep.evals T x
      have hholds : out.Holds ⟨x.get (p.build () .new).2, T⟩ ⟨T, x.get env⟩ :=
        ⟨(hlookup _ _).mpr ⟨rfl, hev⟩, hstrong _ _ hev⟩
      obtain ⟨value, hget, hvalue⟩ := DagOutput.get_of_holds hholds rfl
      cases hvalue
      exact ⟨_, hget⟩
  · obtain ⟨n, q, hq⟩ := herror payload hdenote
    cases r with
    | error e => exact ⟨e, rfl⟩
    | ok out => exact absurd hq ((hrok out rfl).1 n q)

theorem run_denote_sample : ∃ (p : Program Sample.Value [] [.i32, .i32, .i32]) (out : DagOutput Sample.Value),
    (p.build () .new).1.dag.run ⟨.stored _, .stored _⟩ .identity .reversed = some (.ok (.ok out)) ∧
      ∃ out', out.get ⟨.ofLen 2, .i32⟩ = .ok ((5 : Int), out') := by
  have hsp : (Spawner.identity : Spawner Sample.Value).Honest := Spawner.identity_passesThrough.honest
  let p : Program Sample.Value [] [.i32, .i32, .i32] :=
    .source (Sample.value 2).task <| .source (Sample.value 3).task <|
      .node Sample.add.task (.cons (.tail .head) (.cons .head .nil)) <|
        .drop (R := .string) (T := .i32) (I := []) (.ret "unused") .done
  obtain ⟨r, hr, hok, -⟩ := p.run_denote (by decide) hsp ⟨.stored _, .stored _⟩ .reversed
  obtain ⟨out, rfl, hget⟩ := hok ((5 : Int), (3 : Int), (2 : Int), ()) rfl
  exact ⟨p, out, hr, hget .i32 .head⟩

end Program

end Dagx
