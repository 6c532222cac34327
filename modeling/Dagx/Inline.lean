import Dagx.Outcome

/-!
# The inline fast path is transparent

`DagRunner.finalStateSpawned` is `run` with its single-task branch removed. The two differ in what goes to the spawner
and in nothing else:

* `start_congr`, `spawnAll_congr`, `foldl_settle_congr`: no step reads the record of what was spawned;
* `runSpawned_eq_runLayer`: on a single-task layer both branches do the same when the spawner passes outcomes through;
* `WellWired.inline_transparent`: the two runs return the same result and have the same history.
-/

namespace Dagx

open DagRunner

variable {Ty : Type} [Preorder Ty] {Val : Ty → Type}

namespace RunState

def withSpawned (s : RunState Val) (l : List NodeId) : RunState Val := { s with spawned := l }

/-! ## No step reads what was spawned -/

theorem start_congr (edges : PassThroughHashMap (List NodeId)) (s : RunState Val) (id : NodeId) (l : List NodeId) :
    (s.withSpawned l).start edges id = (s.start edges id).map fun r => (r.1, r.2.withSpawned l) := by
  have hnodes : (s.withSpawned l).nodes = s.nodes := rfl
  unfold start
  rw [hnodes]
  cases s.nodes[id.index]? with
  | none => rfl
  | some slot =>
    cases slot with
    | none => rfl
    | some node => cases edges.lookup id <;> rfl

theorem spawnAll_congr (edges : PassThroughHashMap (List NodeId)) (layer : List NodeId) :
    ∀ (s : RunState Val) (l : List NodeId), ∃ l',
      spawnAll edges layer (s.withSpawned l) = (spawnAll edges layer s).map fun r => (r.1, r.2.withSpawned l') := by
  induction layer with
  | nil =>
    intro s l
    exact ⟨l, rfl⟩
  | cons id layer ih =>
    intro s l
    have hstart := start_congr edges s id l
    cases hs : s.start edges id with
    | error payload =>
      rw [hs] at hstart
      exact ⟨l, by rw [spawnAll_cons_error hstart, spawnAll_cons_error hs]; rfl⟩
    | ok r =>
      obtain ⟨f, s₁⟩ := r
      rw [hs] at hstart
      cases f with
      | none =>
        obtain ⟨l', hl'⟩ := ih s₁ l
        exact ⟨l', by rw [spawnAll_cons_none hstart, spawnAll_cons_none hs, hl']⟩
      | some f =>
        obtain ⟨l', hl'⟩ := ih { s₁ with spawned := s₁.spawned ++ [id] } (l ++ [id])
        have hl' : spawnAll edges layer { s₁.withSpawned l with spawned := l ++ [id] } = _ := hl'
        refine ⟨l', ?_⟩
        rw [spawnAll_cons_some hstart, spawnAll_cons_some hs]
        show (spawnAll edges layer { s₁.withSpawned l with spawned := l ++ [id] }).map _ = _
        rw [hl']
        cases spawnAll edges layer { s₁ with spawned := s₁.spawned ++ [id] } <;> rfl

variable [DecidableEq Ty]

theorem settle_congr (sp : Spawner Val) (s : RunState Val) (f : InFlight Val) (l : List NodeId) :
    settle sp (s.withSpawned l) f = (settle sp s f).withSpawned l := by
  rw [settle_eq, settle_eq]
  cases spawnedOutput sp f <;> rfl

theorem foldl_settle_congr (sp : Spawner Val) (fs : List (InFlight Val)) (l : List NodeId) : ∀ s : RunState Val,
    fs.foldl (settle sp) (s.withSpawned l) = (fs.foldl (settle sp) s).withSpawned l := by
  induction fs with
  | nil => exact fun _ => rfl
  | cons f fs ih =>
    intro s
    rw [List.foldl_cons, List.foldl_cons, settle_congr, ih]

theorem runSpawned_congr (sp : Spawner Val) (co : CompletionOrder Val) (edges : PassThroughHashMap (List NodeId))
    (s : RunState Val) (layer : List NodeId) (l : List NodeId) : ∃ l',
    (s.withSpawned l).runSpawned sp co edges layer =
      (s.runSpawned sp co edges layer).map fun s => s.withSpawned l' := by
  obtain ⟨l', hl'⟩ := spawnAll_congr edges layer s l
  refine ⟨l', ?_⟩
  unfold runSpawned
  rw [hl']
  cases spawnAll edges layer s with
  | error payload => rfl
  | ok r =>
    show Except.ok ((co.order r.1).foldl (settle sp) (r.2.withSpawned l')) = .ok _
    rw [foldl_settle_congr]

/-! ## The two branches on one task -/

theorem runSpawned_eq_runInline {sp : Spawner Val} (hsp : sp.PassesThrough) (co : CompletionOrder Val)
    (edges : PassThroughHashMap (List NodeId)) (s : RunState Val) (id : NodeId) : ∃ l,
    s.runSpawned sp co edges [id] = (s.runInline edges id).map fun s => s.withSpawned l := by
  unfold runSpawned runInline spawnAll
  cases hs : s.start edges id with
  | error payload => exact ⟨[], rfl⟩
  | ok r =>
    obtain ⟨f, s₁⟩ := r
    cases f with
    | none =>
      have hnil : co.order [] = [] := (co.perm []).eq_nil
      refine ⟨s₁.spawned, ?_⟩
      show Except.ok ((co.order []).foldl (settle sp) s₁) = .ok _
      rw [hnil]
      rfl
    | some f =>
      have hone : co.order [f] = [f] := List.perm_singleton.mp (co.perm [f])
      have hid : f.id = id := by
        rcases start_cases hs with ⟨hf, -⟩ | ⟨node, dependencies, hf, -⟩
        · cases hf
        · cases hf
          rfl
      refine ⟨s₁.spawned ++ [id], ?_⟩
      show Except.ok ((co.order [f]).foldl (settle sp) (s₁.withSpawned (s₁.spawned ++ [id]))) = .ok _
      rw [hone, foldl_settle_congr, List.foldl_cons, List.foldl_nil, settle_eq, spawnedOutput_eq hsp, hid]

theorem runSpawned_eq_runLayer {sp : Spawner Val} (hsp : sp.PassesThrough) (co : CompletionOrder Val)
    (edges : PassThroughHashMap (List NodeId)) (s : RunState Val) (layer : List NodeId) (l : List NodeId) : ∃ l',
    (s.withSpawned l).runSpawned sp co edges layer =
      (runLayer sp co edges s layer).map fun s => s.withSpawned l' := by
  obtain ⟨l₁, h₁⟩ := runSpawned_congr sp co edges s layer l
  rw [h₁]
  unfold runLayer
  split
  · rename_i id
    obtain ⟨l₂, h₂⟩ := runSpawned_eq_runInline hsp co edges s id
    refine ⟨l₁, ?_⟩
    rw [h₂]
    cases s.runInline edges id <;> rfl
  · exact ⟨l₁, rfl⟩

theorem runLayers_congr {sp : Spawner Val} (hsp : sp.PassesThrough) (co : CompletionOrder Val)
    (edges : PassThroughHashMap (List NodeId)) (layers : List (List NodeId)) : ∀ (s : RunState Val) (l : List NodeId),
    ∃ l', runLayers (runSpawned sp co edges) layers (s.withSpawned l) =
      (runLayers (runLayer sp co edges) layers s).map fun s => s.withSpawned l' := by
  induction layers with
  | nil =>
    intro s l
    exact ⟨l, rfl⟩
  | cons layer layers ih =>
    intro s l
    obtain ⟨l₁, h₁⟩ := runSpawned_eq_runLayer hsp co edges s layer l
    unfold runLayers
    rw [h₁]
    cases runLayer sp co edges s layer with
    | error payload => exact ⟨l, rfl⟩
    | ok s₁ =>
      show ∃ l', (if s₁.firstError.isSome then Except.ok (s₁.withSpawned l₁) else _) =
        Except.map _ (if s₁.firstError.isSome then _ else _)
      split_ifs
      · exact ⟨l₁, rfl⟩
      · exact ih s₁ l₁

end RunState

variable [DecidableEq Ty]

namespace DagRunner

def finalStateSpawned (dag : DagRunner Val) (it : IterOrder) (sp : Spawner Val) (co : CompletionOrder Val) :
    Option (Outcome (DagResult (RunState Val))) :=
  dag.finalStateWith it (RunState.runSpawned sp co dag.edges)

/-- `run` without its single-task branch. -/
def runAllSpawned (dag : DagRunner Val) (it : IterOrder) (sp : Spawner Val) (co : CompletionOrder Val) :
    Option (Outcome (DagResult (DagOutput Val))) :=
  (dag.finalStateSpawned it sp co).map fun o => o.map fun r => r.bind RunState.result

theorem finalStateSpawned_eq {dag : DagRunner Val} {it : IterOrder} {sp : Spawner Val} (hsp : sp.PassesThrough)
    {co : CompletionOrder Val} {t : RunState Val} (h : dag.finalState it sp co = some (.ok (.ok t))) :
    ∃ l, dag.finalStateSpawned it sp co = some (.ok (.ok (t.withSpawned l))) := by
  unfold finalState finalStateWith at h
  unfold finalStateSpawned finalStateWith
  split at h
  · cases h
  · cases h
  · cases h
  · rename_i layers hrun
    obtain ⟨l, hl⟩ := RunState.runLayers_congr hsp co dag.edges layers dag.initState []
    cases hs : RunState.runLayers (RunState.runLayer sp co dag.edges) layers dag.initState with
    | error payload => rw [hs] at h; cases h
    | ok s =>
      rw [hs] at h hl
      cases h
      have hinit : RunState.runLayers (RunState.runSpawned sp co dag.edges) layers dag.initState = _ := hl
      refine ⟨l, ?_⟩
      rw [hinit]
      rfl

end DagRunner

namespace Session

/-- **The inline fast path is transparent**: `run` and `run` without its single-task branch return the same result and
start and complete the same tasks, in the same order. -/
theorem WellWired.inline_transparent {s : Session Val} (hs : s.WellWired) {sp : Spawner Val} (hsp : sp.PassesThrough)
    (it : IterOrder) (co : CompletionOrder Val) :
    ∃ t t' : RunState Val, s.dag.finalState it sp co = some (.ok (.ok t)) ∧
      s.dag.finalStateSpawned it sp co = some (.ok (.ok t')) ∧ s.dag.run it sp co = some (.ok t.result) ∧
      s.dag.runAllSpawned it sp co = some (.ok t'.result) ∧ t.result = t'.result ∧ t.log = t'.log := by
  obtain ⟨t, -, ht, -⟩ := (Reachable.inv hs.own hs.small).wired.final hsp.honest it co
  obtain ⟨l, hl⟩ := finalStateSpawned_eq hsp ht
  refine ⟨t, t.withSpawned l, ht, hl, run_eq ht, ?_, rfl, rfl⟩
  rw [runAllSpawned, hl]
  rfl

theorem inline_transparent_sample : ∃ t t' : RunState Sample.Value,
    (Sample.session Sample.boom).dag.run ⟨.stored _, .stored _⟩ .identity .reversed = some (.ok t.result) ∧
      (Sample.session Sample.boom).dag.runAllSpawned ⟨.stored _, .stored _⟩ .identity .reversed = some (.ok t'.result) ∧
      t.result = t'.result := by
  have hs := Sample.wellWired_session Sample.boom rfl rfl
  obtain ⟨t, t', -, -, ht, ht', heq, -⟩ :=
    WellWired.inline_transparent hs Spawner.identity_passesThrough ⟨.stored _, .stored _⟩ .reversed
  exact ⟨t, t', ht, ht', heq⟩

end Session

end Dagx
