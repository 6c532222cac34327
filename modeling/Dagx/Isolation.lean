import Dagx.Outcome

/-!
# Panic isolation

`run` catches a panic around the node future when the task runs inline, and around the spawner's future otherwise. In
the second case the panic reaches the spawner first.

* `RunState.PanicsIsolated`: no future handed to the spawner panicked, and every panic was reported under the id and the
  message of its task;
* `DagRunner.PanicsAlone`: the shallowest task that panics is the only task at its depth;
* `Reachable.panics_isolated_iff`: whatever the spawner does with panics, a run isolates them exactly then;
* `not_panics_isolated`: a spawner that unwraps a `JoinError` replaces the message of a task.
-/

namespace Dagx

open Layering DagRunner

variable {Ty : Type} {Val : Ty → Type}

/-! ## `tokio::spawn(fut).await.unwrap()` -/

/-- The message of the panic that unwrapping a `JoinError` raises, for the runtime's task `task_id`. -/
def joinErrorMessage (task_id : Nat) (payload : Payload) : String :=
  let id := "JoinError::Panic(Id(" ++ toString task_id ++ ")"
  "called `Result::unwrap()` on an `Err` value: " ++ match payload with
    | .str s => id ++ ", " ++ s.quote ++ ", ...)"
    | .string s => id ++ ", " ++ s.quote ++ ", ...)"
    | .other => id ++ ", ...)"

/-- A spawner that unwraps the `JoinError` its runtime makes of a panic. -/
def Spawner.unwrapJoin : Spawner Val := fun id o =>
  match o with
  | .ok result => .ok result
  | .error payload => .error (.string (joinErrorMessage id.index payload))

theorem Spawner.unwrapJoin_passesResults : (unwrapJoin : Spawner Val).PassesResults := fun _ _ => rfl

variable [Preorder Ty]

/-! ## Isolation -/

/-- Every future handed to the spawner resolved, and every panic was reported with the task's own message. -/
def RunState.PanicsIsolated (s : RunState Val) : Prop :=
  (∀ id p, id ∈ s.spawned → .complete id (.error p) ∉ s.log) ∧
    ∀ id p, .complete id (.error p) ∈ s.log →
      .consume id (.error (.TaskPanicked id.val (panicMessage p))) ∈ s.log

variable [DecidableEq Ty]

/-- The shallowest task that panics, if any, is the only task at its depth. -/
def DagRunner.PanicsAlone (dag : DagRunner Val) : Prop :=
  ∀ k n p, AtDepth dag.deps k n → dag.Evals n (.error p) → (∀ d q, dag.Evals d (.error q) → ¬ Ready dag.deps k d) →
    ∀ d, AtDepth dag.deps k d → d = n

namespace Machine

variable {dag : DagRunner Val} {sp : Spawner Val} {k : Nat} {m : Machine Val} {t : RunState Val}

theorem Inv.not_ready_of_panic (h : m.Inv dag k) {d : NodeId} {q : Payload} (hq : dag.Evals d (.error q)) :
    ¬ Ready dag.deps k d := by
  intro hready
  obtain ⟨v, hv⟩ := h.below d hready
  exact hv.ok_ne_error hq

theorem Stops.spawned_of_panic (h : m.Stops dag sp k t) {n d : NodeId} {p : Payload} (hn : AtDepth dag.deps k n)
    (hd : AtDepth dag.deps k d) (hne : d ≠ n) (hp : dag.Evals n (.error p)) :
    n ∈ t.spawned ∧ .complete n (.error p) ∈ t.log := by
  have hrun := h.inv.run_of_idle h.idle
  have hspawned : n ∈ m.state.spawned :=
    (h.scheduled.spawned n).mpr ⟨(hrun.mem_started n).mpr hn.1, k, d, hn, hd, hne⟩
  have hmem : .complete n (.error p) ∈ m.state.log := hrun.complete_mem hn.1 hp
  exact ⟨h.grows.spawned.subset hspawned, h.grows.log.subset hmem⟩

theorem Stops.isolated_of_alone (h : m.Stops dag sp k t) {n : NodeId} {p : Payload} (hn : AtDepth dag.deps k n)
    (hp : dag.Evals n (.error p)) (halone : ∀ d, AtDepth dag.deps k d → d = n) : t.PanicsIsolated := by
  have hrun := h.inv.run_of_idle h.idle
  have hnot : n ∉ m.state.spawned := by
    intro hin
    obtain ⟨-, j, d, hj, hd, hne⟩ := (h.scheduled.spawned n).mp hin
    obtain rfl := hj.unique hn
    exact hne (halone d hd)
  have hreported : ∀ q, .complete n (.error q) ∈ m.state.log →
      .consume n (.error (.TaskPanicked n.val (panicMessage q))) ∈ m.state.log ∧ m.state.firstError.isSome := by
    intro q hq
    rcases h.scheduled.reported n q hq hnot with hready | hconsumed
    · rw [h.idle.2.2] at hready
      cases hready
    · exact hconsumed
  obtain rfl : t = m.state := h.error (hreported p (hrun.complete_mem hn.1 hp)).2
  -- the layers before the last are clean
  have honly : ∀ id q, .complete id (.error q) ∈ m.state.log → id = n := by
    intro id q hq
    obtain ⟨hready, hevals⟩ := hrun.panic_of_mem hq
    exact halone id ⟨hready, h.inv.not_ready_of_panic hevals⟩
  constructor
  · intro id q hspawned hq
    obtain rfl := honly id q hq
    exact hnot hspawned
  · intro id q hq
    obtain rfl := honly id q hq
    exact (hreported q hq).1

theorem Stops.isolated_of_clean (h : m.Stops dag sp k t) (hclean : m.Clean dag k) : t.PanicsIsolated := by
  have hrun := h.inv.run_of_idle h.idle
  have hnone : ∀ id q, .complete id (.error q) ∉ t.log := by
    intro id q hq
    rw [(h.clean hclean).1] at hq
    obtain ⟨hready, hevals⟩ := hrun.panic_of_mem hq
    obtain ⟨-, v, hv⟩ := h.all_ok hclean hready
    exact hv.ok_ne_error hevals
  exact ⟨fun id q _ hq => hnone id q hq, fun id q hq => absurd hq (hnone id q)⟩

end Machine

namespace Session

/-- **When panics are isolated**: for every build history and every spawner that passes results through, whatever it
does with panics, no panic unwinds into a future handed to the spawner and each is reported under its task's own message,
exactly when the shallowest task that panics is alone at its depth. -/
theorem Reachable.panics_isolated_iff {foreign : TaskHandle Ty → Prop} {s : Session Val} (hs : s.Reachable foreign)
    {sp : Spawner Val} (hsp : sp.PassesResults) (it : IterOrder) (co : CompletionOrder Val) :
    ∃ t : RunState Val, s.dag.finalState it sp co = some (.ok (.ok t)) ∧ (t.PanicsIsolated ↔ s.dag.PanicsAlone) := by
  obtain ⟨t, m, k, ht, -, hstop⟩ := (Reachable.wired hs).finalState hsp it co
  refine ⟨t, ht, ?_⟩
  by_cases hclean : m.Clean s.dag k
  · refine iff_of_true (hstop.isolated_of_clean hclean) fun j n p _ hp => ?_
    obtain ⟨i, hi⟩ := Dataflow.Evals.ready hp
    obtain ⟨-, v, hv⟩ := hstop.all_ok hclean hi
    exact (hv.ok_ne_error hp).elim
  · obtain ⟨a, r, ha, hr⟩ := hstop.inv.exists_panic hstop.idle hclean
    constructor
    · intro hisolated j n p hn hp hfirst d hd
      -- `n` is at the depth of the last layer: none shallower panics, and one of the last layer does
      have hjk : j = k := by
        have hle : ¬ k < j := fun hlt => hfirst a r hr (ha.1.mono hlt)
        have hge : ¬ j < k := fun hlt => hstop.inv.not_ready_of_panic hp (hn.1.mono hlt)
        omega
      subst hjk
      by_contra hne
      obtain ⟨hspawned, hmem⟩ := hstop.spawned_of_panic hn hd hne hp
      exact hisolated.1 n p hspawned hmem
    · intro halone
      exact hstop.isolated_of_alone ha hr
        (halone k a r ha hr fun d q hq => hstop.inv.not_ready_of_panic hq)

/-- The sample with a source that panics beside another source: the panic unwinds into the future handed to the
spawner, and what `run` returns is the spawner's message. -/
theorem not_panics_isolated : ∃ t : RunState Sample.Value,
    (Sample.session Sample.boom).dag.finalState ⟨.stored _, .stored _⟩ .unwrapJoin .reversed = some (.ok (.ok t)) ∧
      t.result = .error (.TaskPanicked 0 (joinErrorMessage 0 (.str "boom"))) ∧
      joinErrorMessage 0 (.str "boom") ≠ panicMessage (.str "boom") ∧ ¬ t.PanicsIsolated := by
  refine ⟨_, rfl, rfl, by decide, fun h => ?_⟩
  exact h.1 (.ofLen 0) (.str "boom") (by decide) (List.mem_iff_getElem?.mpr ⟨4, rfl⟩)

end Session

/-! ## A task that panics alone -/

namespace Sample

def crash : TypedNode Value := ⟨[.i32], .i32, .next le_rfl fun _ : Int => .panic (.str "boom")⟩

def alone : Session Value :=
  ((Session.new.addTask (value 2)).addTask crash).dependsOn ⟨.ofLen 1, [.i32], .i32⟩ [.own ⟨.ofLen 0, .i32⟩]

theorem wellWired_alone : alone.WellWired := by
  have hnew : (Session.new : Session Value).WellWired := Session.wellWired_new
  have h₀ := hnew.addSource rfl (by decide) (value 2) rfl
  exact (h₀.1.addWired h₀.2 (by simp [Session.length_addTask, Session.new, DagRunner.new]) crash
    [.own ⟨.ofLen 0, .i32⟩] (by decide) rfl
    (Session.owns_of_mem (by simp [Session.addTask, value, Session.new, DagRunner.new]))).1

theorem panicsAlone_alone : alone.dag.PanicsAlone := by
  have hs := wellWired_alone
  have hzero : AtDepth alone.dag.deps 0 (.ofLen 0) := atDepth_zero_iff.mpr (hs.own.deps_edgesOf hs.small (by decide))
  have hone : AtDepth alone.dag.deps 1 (.ofLen 1) := by
    refine atDepth_succ_iff.mpr ⟨_, hs.own.deps_edgesOf hs.small (by decide), fun d hd => ?_, .ofLen 0, by decide, hzero⟩
    obtain rfl : d = .ofLen 0 := by
      have hd : d ∈ [NodeId.ofLen 0] := hd
      exact List.mem_singleton.mp hd
    exact hzero.1
  have hnode : ∀ k n, AtDepth alone.dag.deps k n → k = n.index ∧ n.index < 2 := by
    intro k n hn
    have hlt : n.index < 2 := (hs.own.exists_ready_iff hs.small n).mp ⟨k + 1, hn.1⟩
    have hcases : n = .ofLen 0 ∨ n = .ofLen 1 := by
      rw [← NodeId.index_inj, ← NodeId.index_inj, NodeId.index_ofLen, NodeId.index_ofLen]
      omega
    rcases hcases with rfl | rfl
    · exact ⟨hn.unique hzero, hlt⟩
    · exact ⟨hn.unique hone, hlt⟩
  intro k n p hn _ _ d hd
  rw [← NodeId.index_inj, ← (hnode k n hn).1, ← (hnode k d hd).1]

end Sample

theorem panics_isolated_sample : ∃ t : RunState Sample.Value,
    Sample.alone.dag.finalState ⟨.stored _, .stored _⟩ .unwrapJoin .reversed = some (.ok (.ok t)) ∧ t.PanicsIsolated ∧
      Sample.alone.dag.run ⟨.stored _, .stored _⟩ .unwrapJoin .reversed =
        some (.ok (.error (.TaskPanicked 1 "boom"))) := by
  obtain ⟨t, ht, hiff⟩ := Session.Reachable.panics_isolated_iff Sample.wellWired_alone.own
    Spawner.unwrapJoin_passesResults ⟨.stored _, .stored _⟩ .reversed
  exact ⟨t, ht, hiff.mpr Sample.panicsAlone_alone, rfl⟩

end Dagx
