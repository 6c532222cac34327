import Dagx.Outcome

/-!
# The schedule of `run`

`Machine.Reachable.scheduled`: every reachable machine is scheduled; `WellWired.schedule_safe`: what that means for a
well-wired graph.
-/

namespace Dagx

open Layering DagRunner System

variable {Ty : Type} [DecidableEq Ty] [Preorder Ty] {Val : Ty → Type}

namespace Machine

variable {dag : DagRunner Val} {sp : Spawner Val} {k : Nat} {m : Machine Val}

/-- **Every reachable machine is scheduled.** -/
theorem Reachable.scheduled (hw : dag.Wired) (hsp : sp.Honest) {it : IterOrder} (h : m.Reachable dag it sp) :
    m.Scheduled dag := by
  have hboth : (∃ k, m.Inv dag k ∧ (m.state.firstError = none → m.Clean dag k)) ∧ m.Scheduled dag := by
    refine System.Reachable.invariant
      (I := fun m => (∃ k, m.Inv dag k ∧ (m.state.firstError = none → m.Clean dag k)) ∧ m.Scheduled dag) ?_ ?_ h
    · rintro m ⟨layers, hrun, rfl⟩
      exact ⟨Reachable.inv hw hsp (.of_init ⟨layers, hrun, rfl⟩), scheduled_init dag layers⟩
    · rintro m m' ⟨hinv, hsch⟩ hs
      refine ⟨Inv.step hw hsp hs hinv, ?_⟩
      obtain ⟨k, hinv, -⟩ := hinv
      cases hs with
      | work m' hwork => exact hsch.work hw hinv hwork
      | next layer rest hidle he hr => exact ⟨hsch.justified, hsch.spawned, hsch.reported⟩
  exact hboth.2

theorem Inv.started_of_inFlight (h : m.Inv dag k) {n : NodeId} (hn : n ∈ m.inFlight.map InFlight.id) :
    AtDepth dag.deps k n ∧ n ∈ started m.state.log := by
  have hat := h.atDepth_of_busy (mem_busy.mpr (Or.inr (Or.inl hn)))
  refine ⟨hat, ?_⟩
  rw [h.run.mem_started]
  refine ⟨hat.1, fun hp => ?_⟩
  have hnodup := h.busy_nodup
  rw [busy, List.append_assoc, List.nodup_append] at hnodup
  exact hnodup.2.2 n hp n (List.mem_append_left _ hn) rfl

theorem Inv.stored_of_path (h : m.Inv dag k) {n d : NodeId} {j : Nat} (hn : n ∈ started m.state.log)
    (hp : Path dag.deps n (j + 1) d) {a : Arc Val} (ha : .complete d (.ok (.ok a)) ∈ m.state.log) :
    m.state.outputs.lookup d = some a := by
  -- `d` was ready before the current layer, so it is settled
  have hready := ((h.run.mem_started n).mp hn).1
  have hlt := hready.path_lt hp
  have hd : Ready dag.deps k d := by
    have hk : k + 1 = (k - j) + (j + 1) := by omega
    rw [hk] at hready
    exact (hp.ready hready).mono (by omega)
  obtain ⟨res, hres, hout⟩ := h.run.complete_evals d _ ha
  cases res with
  | error p => cases hout
  | ok v =>
    cases hout
    exact h.run.stored d (h.settled_of_ready hd) v hres

end Machine

namespace Session

/-- **The schedule is safe.** In every reachable state of a run of a well-wired graph: everything below a task in flight
or completed was completed successfully and stored before the task was started; no task is started twice; no two tasks in
flight are related by a dependency path; no result of a layer is handled before every task of the layer was started, and
the tasks of a layer with more than one are handed to the spawner. -/
theorem WellWired.schedule_safe {s : Session Val} (hs : s.WellWired) {sp : Spawner Val} (hsp : sp.Honest)
    {it : IterOrder} {m : Machine Val} (hm : m.Reachable s.dag it sp) :
    (∀ n, n ∈ m.inFlight.map InFlight.id ∨ n ∈ completed m.state.log →
      ∃ pre ds post, m.state.log = pre ++ .start n ds :: post ∧
        ∀ d j, Path (fun n => s.dag.edges.lookup n) n (j + 1) d →
          ∃ a, .complete d (.ok (.ok a)) ∈ pre ∧ .consume d (.ok a) ∈ pre ∧ m.state.outputs.lookup d = some a) ∧
      (started m.state.log).Nodup ∧
      (∀ n ∈ m.inFlight.map InFlight.id, ∀ d ∈ m.inFlight.map InFlight.id, ∀ j,
        ¬ Path (fun n => s.dag.edges.lookup n) n (j + 1) d) ∧
      ∀ pre id r post, m.state.log = pre ++ .consume id r :: post →
        ∀ n : NodeId, n.index < s.dag.nodes.length → s.dag.depth n = s.dag.depth id →
          n ∈ started pre ∧ (n ≠ id → n ∈ m.state.spawned ∧ id ∈ m.state.spawned) := by
  have hinv := Reachable.inv hs.own hs.small
  obtain ⟨k, hmach, -⟩ := hm.inv hinv.wired hsp
  have hsch := hm.scheduled hinv.wired hsp
  have hdeps := hs.own.deps_eq hs.small
  refine ⟨fun n hn => ?_, hmach.run.started_nodup, fun n hn d hd j hp => ?_, fun pre id r post hlog n hn hdepth => ?_⟩
  · have hstart : n ∈ started m.state.log := by
      rcases hn with hn | hn
      · exact (hmach.started_of_inFlight hn).2
      · rw [hmach.run.mem_started]
        exact hmach.run.completed_sub ((hmach.run.mem_completed n).mp hn)
    obtain ⟨ds, hds⟩ := mem_started_iff.mp hstart
    obtain ⟨pre, post, hlog⟩ := List.append_of_mem hds
    refine ⟨pre, ds, post, hlog, fun d j hp => ?_⟩
    rw [← hdeps] at hp
    obtain ⟨a, hcomplete, hconsume⟩ := hsch.justified pre _ post hlog d j hp
    have hmem : .complete d (.ok (.ok a)) ∈ m.state.log := by
      rw [hlog]
      exact List.mem_append_left _ hcomplete
    exact ⟨a, hcomplete, hconsume, hmach.stored_of_path hstart hp hmem⟩
  · rw [← hdeps] at hp
    exact (hmach.started_of_inFlight hd).1.2 ((hmach.started_of_inFlight hn).1.path_ready hp)
  · obtain ⟨hcompleted, hall⟩ := hsch.justified pre _ post hlog
    have hstarted : ∀ a, a ∈ started pre → a ∈ started m.state.log := by
      intro a ha
      rw [hlog, started_append]
      exact List.mem_append_left _ ha
    have hid : AtDepth s.dag.deps (s.dag.depth id) id := by
      have hmem : id ∈ completed m.state.log := by
        rw [hlog, completed_append]
        exact List.mem_append_left _ hcompleted
      have hready := ((hmach.run.mem_completed id).mp hmem).1
      exact (hs.own.atDepth_iff hs.small).mpr ⟨(hs.own.exists_ready_iff hs.small id).mp ⟨_, hready⟩, rfl⟩
    have hn' : AtDepth s.dag.deps (s.dag.depth id) n := (hs.own.atDepth_iff hs.small).mpr ⟨hn, hdepth⟩
    refine ⟨hall _ n hid hn', fun hne => ⟨?_, ?_⟩⟩
    · exact (hsch.spawned n).mpr ⟨hstarted n (hall _ n hid hn'), _, id, hn', hid, hne.symm⟩
    · exact (hsch.spawned id).mpr ⟨hstarted id (hall _ id hid hid), _, n, hid, hn', hne⟩

theorem schedule_safe_sample : ∃ m : Machine Sample.Value,
    m.Reachable (Sample.session (Sample.value 2)).dag ⟨.stored _, .stored _⟩ .identity ∧
      ∃ pre ds post, m.state.log = pre ++ .start (.ofLen 3) ds :: post ∧ ∃ a, .consume (.ofLen 0) (.ok a) ∈ pre := by
  have hs := Sample.wellWired_session (Sample.value 2) rfl rfl
  have hsp : (Spawner.identity : Spawner Sample.Value).Honest := Spawner.identity_passesThrough.honest
  have hw := (Reachable.inv hs.own hs.small).wired
  obtain ⟨t, k, ht, hfinal, m, hm, -, rfl⟩ := hw.final hsp ⟨.stored _, .stored _⟩ .reversed
  have hready := hs.own.ready hs.small (by decide : (NodeId.ofLen 3).index < _)
  have he := hfinal.no_error Sample.no_panics
  have hdone := (hfinal.inv.mem_completed _).mpr (hfinal.ok_of_no_error he hready).1
  obtain ⟨hbefore, -⟩ := WellWired.schedule_safe hs hsp hm
  obtain ⟨pre, ds, post, hlog, hpath⟩ := hbefore _ (Or.inr hdone)
  have hp : Path (fun n => (Sample.session (Sample.value 2)).dag.edges.lookup n) (.ofLen 3) (1 + 1) (.ofLen 0) :=
    .cons rfl (by decide : .ofLen 2 ∈ [NodeId.ofLen 2, .ofLen 2])
      (.cons rfl (by decide : .ofLen 0 ∈ [NodeId.ofLen 0, .ofLen 1]) (.nil _))
  obtain ⟨a, -, ha, -⟩ := hpath _ 1 hp
  exact ⟨m, hm, pre, ds, post, hlog, a, ha⟩

end Session

end Dagx
