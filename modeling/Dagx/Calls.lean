import Dagx.Robustness

/-!
# A spawner that panics when it is called

`run` awaits what the spawner returns inside `catch_unwind`, but calls it outside: when `spawner(fut)` itself panics, as a
runtime does that is not running, the panic unwinds out of `run`. `calls` gives the payload of such a panic, by the
task.

* `spawnAllCalling`, `runLayerCalling`, `DagRunner.runCalling`: `run` with these panics;
* `spawnAllCalling_eq`, `runLayerCalling_eq`, `runLayersCalling_eq`: the first of them in a step, if there is one;
* `Reachable.run_calling`: `run` panics exactly when a call does for a task that it hands to the spawner.
-/

namespace Dagx

open Layering DagRunner

variable {Ty : Type} [Preorder Ty] {Val : Ty → Type}

def orFirst {α : Type} (calls : NodeId → Option Payload) (ids : List NodeId) (r : Outcome α) : Outcome α :=
  match ids.findSome? calls with
  | some payload => .error payload
  | none => r

theorem orFirst_cons {α : Type} (calls : NodeId → Option Payload) (id : NodeId) (ids : List NodeId) (r : Outcome α) :
    orFirst calls (id :: ids) r = match calls id with
      | some payload => .error payload
      | none => orFirst calls ids r := by
  unfold orFirst
  rw [List.findSome?_cons]
  cases calls id <;> rfl

theorem orFirst_append {α : Type} (calls : NodeId → Option Payload) (ids ids' : List NodeId) (r : Outcome α) :
    orFirst calls (ids ++ ids') r = orFirst calls ids (orFirst calls ids' r) := by
  unfold orFirst
  rw [List.findSome?_append]
  cases ids.findSome? calls <;> rfl

namespace RunState

/-- `spawnAll` with a spawner whose call may panic. -/
def spawnAllCalling (calls : NodeId → Option Payload) (edges : PassThroughHashMap (List NodeId)) :
    List NodeId → RunState Val → Outcome (List (InFlight Val) × RunState Val)
  | [], s => .ok ([], s)
  | id :: layer, s =>
    match s.start edges id with
    | .error payload => .error payload
    | .ok (none, s) => spawnAllCalling calls edges layer s
    | .ok (some f, s) =>
      match calls id with
      | some payload => .error payload
      | none =>
        match spawnAllCalling calls edges layer { s with spawned := s.spawned ++ [id] } with
        | .error payload => .error payload
        | .ok (fs, s) => .ok (f :: fs, s)

theorem spawned_of_start {edges : PassThroughHashMap (List NodeId)} {s s' : RunState Val} {id : NodeId}
    {f : Option (InFlight Val)} (h : s.start edges id = .ok (f, s')) : s'.spawned = s.spawned := by
  unfold start at h
  split at h
  · cases h
  · cases h
    rfl
  · split at h
    · cases h
    · cases h
      rfl

/-- **The first call that panics**, among those for the tasks that `spawnAll` hands over. -/
theorem spawnAllCalling_eq (calls : NodeId → Option Payload) (edges : PassThroughHashMap (List NodeId))
    (layer : List NodeId) : ∀ {s s' : RunState Val} {fs : List (InFlight Val)}, spawnAll edges layer s = .ok (fs, s') →
    ∃ new, s'.spawned = s.spawned ++ new ∧ spawnAllCalling calls edges layer s = orFirst calls new (.ok (fs, s')) := by
  induction layer with
  | nil =>
    intro s s' fs h
    cases h
    exact ⟨[], (List.append_nil _).symm, rfl⟩
  | cons id layer ih =>
    intro s s' fs h
    cases hs : s.start edges id with
    | error payload =>
      rw [spawnAll_cons_error hs] at h
      cases h
    | ok r =>
      obtain ⟨f, s₁⟩ := r
      have hspawned := spawned_of_start hs
      rw [spawnAllCalling, hs]
      cases f with
      | none =>
        rw [spawnAll_cons_none hs] at h
        obtain ⟨new, hnew, heq⟩ := ih h
        exact ⟨new, by rw [hnew, hspawned], heq⟩
      | some f =>
        rw [spawnAll_cons_some hs] at h
        cases hrest : spawnAll edges layer { s₁ with spawned := s₁.spawned ++ [id] } with
        | error payload =>
          rw [hrest] at h
          cases h
        | ok r =>
          rw [hrest] at h
          cases h
          obtain ⟨new, hnew, heq⟩ := ih hrest
          refine ⟨id :: new, ?_, ?_⟩
          · rw [hnew]
            show s₁.spawned ++ [id] ++ new = _
            rw [hspawned, List.append_assoc]
            rfl
          · dsimp only
            rw [heq, orFirst_cons]
            unfold orFirst
            cases calls id with
            | some payload => rfl
            | none => cases new.findSome? calls <;> rfl

variable [DecidableEq Ty]

def runLayerCalling (calls : NodeId → Option Payload) (sp : Spawner Val) (co : CompletionOrder Val)
    (edges : PassThroughHashMap (List NodeId)) (s : RunState Val) (layer : List NodeId) : Outcome (RunState Val) :=
  match layer with
  | [id] => s.runInline edges id
  | _ =>
    match spawnAllCalling calls edges layer s with
    | .error payload => .error payload
    | .ok (fs, s) => .ok ((co.order fs).foldl (settle sp) s)

theorem spawned_settle (sp : Spawner Val) (s : RunState Val) (f : InFlight Val) : (settle sp s f).spawned = s.spawned := by
  rw [settle_eq]
  cases spawnedOutput sp f <;> rfl

theorem spawned_foldl_settle (sp : Spawner Val) (fs : List (InFlight Val)) (s : RunState Val) :
    (fs.foldl (settle sp) s).spawned = s.spawned := by
  induction fs generalizing s with
  | nil => rfl
  | cons f fs ih => rw [List.foldl_cons, ih, spawned_settle]

theorem runInline_spawned {edges : PassThroughHashMap (List NodeId)} {s s' : RunState Val} {id : NodeId}
    (h : s.runInline edges id = .ok s') : s'.spawned = s.spawned := by
  unfold runInline at h
  cases hs : s.start edges id with
  | error payload =>
    rw [hs] at h
    cases h
  | ok r =>
    obtain ⟨f, s₁⟩ := r
    rw [hs] at h
    have hspawned := spawned_of_start hs
    cases f with
    | none =>
      cases h
      exact hspawned
    | some f =>
      cases h
      rw [← hspawned]
      cases inlineResult f <;> rfl

variable (calls : NodeId → Option Payload) {sp : Spawner Val} {co : CompletionOrder Val}
  {edges : PassThroughHashMap (List NodeId)}

theorem runLayerCalling_eq {layer : List NodeId} {s s' : RunState Val} (h : runLayer sp co edges s layer = .ok s') :
    ∃ new, s'.spawned = s.spawned ++ new ∧ runLayerCalling calls sp co edges s layer = orFirst calls new (.ok s') := by
  have hspawned : s.runSpawned sp co edges layer = .ok s' →
      ∃ new, s'.spawned = s.spawned ++ new ∧
        (match spawnAllCalling calls edges layer s with
          | .error payload => .error payload
          | .ok (fs, s) => .ok ((co.order fs).foldl (settle sp) s)) = orFirst calls new (.ok s') := by
    intro h
    unfold runSpawned at h
    cases hs : spawnAll edges layer s with
    | error payload =>
      rw [hs] at h
      cases h
    | ok r =>
      obtain ⟨fs, s₁⟩ := r
      rw [hs] at h
      cases h
      obtain ⟨new, hnew, heq⟩ := spawnAllCalling_eq calls edges layer hs
      refine ⟨new, by rw [spawned_foldl_settle, hnew], ?_⟩
      rw [heq]
      unfold orFirst
      cases new.findSome? calls <;> rfl
  match layer with
  | [] => exact hspawned h
  | [id] => exact ⟨[], by rw [runInline_spawned h, List.append_nil], h⟩
  | _ :: _ :: _ => exact hspawned h

theorem runLayersCalling_eq (layers : List (List NodeId)) : ∀ {s t : RunState Val},
    runLayers (runLayer sp co edges) layers s = .ok t →
    ∃ new, t.spawned = s.spawned ++ new ∧
      runLayers (runLayerCalling calls sp co edges) layers s = orFirst calls new (.ok t) := by
  induction layers with
  | nil =>
    intro s t h
    cases h
    exact ⟨[], (List.append_nil _).symm, rfl⟩
  | cons layer layers ih =>
    intro s t h
    rw [runLayers] at h
    cases hs : runLayer sp co edges s layer with
    | error payload =>
      rw [hs] at h
      cases h
    | ok s₁ =>
      rw [hs] at h
      dsimp only at h
      obtain ⟨new, hnew, heq⟩ := runLayerCalling_eq calls hs
      rw [runLayers, heq]
      split_ifs at h with he
      · cases h
        refine ⟨new, hnew, ?_⟩
        unfold orFirst
        cases new.findSome? calls with
        | some payload => rfl
        | none => exact if_pos he
      · obtain ⟨new', hnew', heq'⟩ := ih h
        refine ⟨new ++ new', by rw [hnew', hnew, List.append_assoc], ?_⟩
        rw [orFirst_append, ← heq']
        unfold orFirst
        cases new.findSome? calls with
        | some payload => rfl
        | none => exact if_neg he

end RunState

namespace DagRunner

variable [DecidableEq Ty]

def runCalling (dag : DagRunner Val) (calls : NodeId → Option Payload) (it : IterOrder) (sp : Spawner Val)
    (co : CompletionOrder Val) : Option (Outcome (DagResult (DagOutput Val))) :=
  (dag.finalStateWith it (RunState.runLayerCalling calls sp co dag.edges)).map fun o =>
    o.map fun r => r.bind RunState.result

end DagRunner

namespace Session

variable [DecidableEq Ty]

/-- **A spawner that panics when it is called**, for every build history, spawner, iteration and completion order: `run`
panics with it exactly when a call panics for one of the tasks that it would hand over, had none of them panicked, with
the payload of the first in the order of the calls; otherwise it returns what it would return without such panics. -/
theorem Reachable.run_calling {foreign : TaskHandle Ty → Prop} {s : Session Val} (hs : s.Reachable foreign)
    (calls : NodeId → Option Payload) (it : IterOrder) (sp : Spawner Val) (co : CompletionOrder Val) :
    ∃ t r, s.dag.finalState it sp co = some (.ok (.ok t)) ∧ s.dag.run it sp co = some (.ok r) ∧
      s.dag.runCalling calls it sp co = some (orFirst calls t.spawned (.ok r)) := by
  obtain ⟨layers, t, hrun, ht, hfinal⟩ := (Reachable.wired hs).finalState_total it sp co
  obtain ⟨new, hnew, heq⟩ := RunState.runLayersCalling_eq calls layers ht
  have hspawned : t.spawned = new := hnew
  refine ⟨t, t.result, hfinal, run_eq hfinal, ?_⟩
  rw [runCalling, finalStateWith, hrun]
  dsimp only
  rw [heq, hspawned]
  unfold orFirst
  cases new.findSome? calls <;> rfl

theorem run_calling_sample : (Sample.session (Sample.value 2)).dag.runCalling (fun _ => some (.str "no runtime"))
    ⟨.stored _, .stored _⟩ .identity .reversed = some (.error (.str "no runtime")) := by
  have hs := (Sample.wellWired_session (Sample.value 2) rfl rfl).own
  obtain ⟨t, r, ht, -, hcalling⟩ := Reachable.run_calling hs (fun _ => some (.str "no runtime")) ⟨.stored _, .stored _⟩
    .identity .reversed
  have hspawned : ((Sample.session (Sample.value 2)).dag.finalState ⟨.stored _, .stored _⟩ .identity .reversed).map
      (fun o => o.map fun r => r.map RunState.spawned) = some (.ok (.ok [.ofLen 0, .ofLen 1, .ofLen 3, .ofLen 4])) := by
    decide
  rw [ht] at hspawned
  have hspawned : t.spawned = [.ofLen 0, .ofLen 1, .ofLen 3, .ofLen 4] :=
    Except.ok.inj (Except.ok.inj (Option.some.inj hspawned))
  rw [hcalling, hspawned]
  rfl

end Session

end Dagx
