import Dagx.Outcome

/-!
# Handles of another runner

A handle is a bare id, so a handle of another runner stands for whichever task of this runner has its id.

* `World.Reachable.sessions`: both runners of a program are reached by API calls with handles of any origin;
* `DagRunner.PanicsOn`: a task panics when run on the outputs of its own runner's tasks with the ids it was given;
* `Reachable.started_fed`, `Reachable.not_started`: what a started task is fed, and that a task with an id that is its
  own, later or absent is skipped;
* `World.Reachable.foreign_detected_iff`: a run with a foreign handle fails exactly when some task panics so;
* `foreign_not_detected`: a foreign handle goes unnoticed.
-/

namespace Dagx

open DagRunner

variable {Ty : Type} [Preorder Ty] {Val : Ty → Type}

namespace Session

/-- A `depends_on` call of this runner was given a handle of the other. -/
def UsesForeign (s : Session Val) : Prop := ∃ call ∈ s.calls, ∃ handle, .foreign handle ∈ call.2

theorem Step.mono {foreign foreign' : TaskHandle Ty → Prop} (h : ∀ x, foreign x → foreign' x) {s s' : Session Val}
    (hs : Step foreign s s') : Step foreign' s s' := by
  cases hs with
  | addTask task hb => exact .addTask s task hb
  | coerceBuilder b b' hb hle => exact .coerceBuilder s b b' hb hle
  | dependsOn b args hb hty hargs =>
    refine .dependsOn s b args hb hty fun a ha => ?_
    have howns := hargs a ha
    cases a with
    | own x => exact howns
    | foreign x => exact h x howns
  | dropBuilder b hb => exact .dropBuilder s b hb

end Session

theorem World.Reachable.sessions {w : World Val} (hw : w.Reachable) :
    w.left.Reachable (fun _ => True) ∧ w.right.Reachable (fun _ => True) := by
  refine System.Reachable.invariant
    (I := fun w : World Val => w.left.Reachable (fun _ => True) ∧ w.right.Reachable (fun _ => True)) ?_ ?_ hw
  · rintro w rfl
    exact ⟨.of_init rfl, .of_init rfl⟩
  · rintro w w' ⟨hl, hr⟩ hstep
    cases hstep with
    | left s h => exact ⟨hl.step (h.mono fun _ _ => trivial), hr⟩
    | right s h => exact ⟨hl, hr.step (h.mono fun _ _ => trivial)⟩

variable [DecidableEq Ty]

namespace DagRunner

variable {dag : DagRunner Val}

/-- The task of `n`, run on the outputs of the tasks of this runner with the ids it was given, panics: by its body, or
because an input is missing or has another type. -/
def PanicsOn (dag : DagRunner Val) (n : NodeId) (values : List (AnyVal Val)) (p : Payload) : Prop :=
  ∃ ds task, dag.deps n = some ds ∧ List.Forall₂ (fun d v => dag.Evals d (.ok v)) ds values ∧
    dag.taskOf n = some task ∧ task.task.run values = .error p

theorem evals_error_iff (hw : dag.Wired) {n : NodeId} {p : Payload} :
    dag.Evals n (.error p) ↔ ∃ values, dag.PanicsOn n values p := by
  constructor
  · intro h
    obtain ⟨ds, values, hds, hall, hfire⟩ := Dataflow.evals_iff.mp h
    obtain ⟨task, htask⟩ := hw.task n (hw.index_lt (deps_eq_some.mp hds).1)
    have hcall : .error p = task.call values := by
      rw [hfire]
      show (dag.taskOf n).elim _ _ = _
      rw [htask]
      rfl
    exact ⟨values, ds, task, hds, hall, htask, TypedNode.call_eq_error.mp hcall.symm⟩
  · rintro ⟨values, ds, task, hds, hall, htask, hrun⟩
    refine Dataflow.evals_iff.mpr ⟨ds, values, hds, hall, ?_⟩
    show _ = (dag.taskOf n).elim _ _
    rw [htask]
    exact (TypedNode.call_eq_error.mpr hrun).symm

theorem Wired.run_ne_ok_iff (hw : dag.Wired) {sp : Spawner Val} (hsp : sp.Honest) (it : IterOrder)
    (co : CompletionOrder Val) :
    (∀ out, dag.run it sp co ≠ some (.ok (.ok out))) ↔ ∃ n values p, dag.PanicsOn n values p := by
  obtain ⟨t, k, ht, hfinal, -⟩ := hw.final hsp it co
  rw [run_eq ht]
  constructor
  · intro hfails
    by_contra hnone
    have he := hfinal.no_error fun n p hp => by
      obtain ⟨values, h⟩ := (evals_error_iff hw).mp hp
      exact hnone ⟨n, values, p, h⟩
    refine hfails ⟨t.outputs, t.strong⟩ ?_
    rw [RunState.result_eq_ok.mpr ⟨he, rfl⟩]
  · rintro ⟨n, values, p, h⟩ out hout
    obtain ⟨hsome, -⟩ := hfinal.panic ((evals_error_iff hw).mpr ⟨values, h⟩)
    have hresult : t.result = .ok out := Except.ok.inj (Option.some.inj hout)
    rw [(RunState.result_eq_ok.mp hresult).1] at hsome
    cases hsome

end DagRunner

namespace Session

variable {foreign : TaskHandle Ty → Prop} {s : Session Val} {sp : Spawner Val} {it : IterOrder}
  {co : CompletionOrder Val} {t : RunState Val}

theorem Reachable.started_fed (hs : s.Reachable foreign) (hsp : sp.Honest)
    (ht : s.dag.finalState it sp co = some (.ok (.ok t))) {n : NodeId} {dependencies : List (Arc Val)}
    (hstart : .start n dependencies ∈ t.log) : dependencies.map Arc.origin = s.dag.edgesOf n := by
  obtain ⟨t', k, ht', hfinal, -⟩ := (Reachable.wired hs).final hsp it co
  rw [ht] at ht'
  cases ht'
  obtain ⟨ds, hds, hall⟩ := hfinal.inv.start_fed n dependencies hstart
  rw [edgesOf, (deps_eq_some.mp hds).1]
  show dependencies.map Arc.origin = ds
  clear hds hstart
  induction hall with
  | nil => rfl
  | cons hda _ ih => rw [List.map_cons, ih, hda.1]

/-- A task that was given its own id, or one that is later or absent, is skipped without an error. -/
theorem Reachable.not_started (hs : s.Reachable foreign) (hsp : sp.Honest)
    (ht : s.dag.finalState it sp co = some (.ok (.ok t))) {n d : NodeId} (hd : d ∈ s.dag.edgesOf n)
    (hle : s.dag.addedAt n ≤ s.dag.addedAt d) : n ∉ started t.log := by
  obtain ⟨t', k, ht', hfinal, -⟩ := (Reachable.wired hs).final hsp it co
  rw [ht] at ht'
  cases ht'
  rw [hfinal.inv.mem_started]
  have hnever : ∀ j, ¬ Layering.Ready s.dag.deps j n := by
    intro j
    induction j with
    | zero => exact id
    | succ j ih =>
      rintro ⟨ds, hds, hready⟩
      obtain ⟨hlookup, hearlier⟩ := deps_eq_some.mp hds
      have hmem : d ∈ ds := by
        rw [edgesOf, hlookup] at hd
        exact hd
      obtain rfl : n = d := (addedAt_inj s.dag).mp (le_antisymm hle (hearlier d hmem))
      exact ih (hready n hmem)
  exact hnever (k + 1)

end Session

/-- **When a foreign handle is detected**: for every history of two runners, the runs of one that was given a handle of
the other fail exactly when one of its tasks panics on the outputs of its own runner's tasks that it is fed instead. -/
theorem World.Reachable.foreign_detected_iff {w : World Val} (hw : w.Reachable) {s : Session Val}
    (hs : s = w.left ∨ s = w.right) {sp : Spawner Val} (hsp : sp.Honest) (it : IterOrder) (co : CompletionOrder Val) :
    (s.UsesForeign → ∀ out, s.dag.run it sp co ≠ some (.ok (.ok out))) ↔
      (s.UsesForeign → ∃ n values p, s.dag.PanicsOn n values p) := by
  have hreach : s.Reachable (fun _ => True) := by
    rcases hs with rfl | rfl
    · exact hw.sessions.1
    · exact hw.sessions.2
  rw [(Session.Reachable.wired hreach).run_ne_ok_iff hsp it co]

/-! ## Two small runners -/

namespace Sample

def borrower : Session Value :=
  ((Session.new.addTask (value 2)).addTask format).dependsOn ⟨.ofLen 1, [.i32], .string⟩ [.foreign ⟨.ofLen 0, .i32⟩]

def lender : Session Value := Session.new.addTask (value 3)

theorem reachable_world : (⟨borrower, lender⟩ : World Value).Reachable := by
  have h₀ : (⟨.new, .new⟩ : World Value).Reachable := .of_init rfl
  have h₁ := h₀.step (.right _ _ (.addTask _ (value 3) rfl))
  have h₂ := h₁.step (.left _ _ (.addTask _ (value 2) rfl))
  have h₃ := h₂.step (.left _ _ (.addTask _ format rfl))
  have hcall : Session.Step lender.Issued ((Session.new.addTask (value 2)).addTask format) borrower := by
    refine .dependsOn _ ⟨.ofLen 1, [Kind.i32], Kind.string⟩ [.foreign ⟨.ofLen 0, Kind.i32⟩] rfl rfl fun a ha => ?_
    obtain rfl := List.mem_singleton.mp ha
    exact .of_mem (List.mem_singleton.mpr rfl)
  exact h₃.step (.left _ _ hcall)

theorem usesForeign_borrower : borrower.UsesForeign := by
  refine ⟨(.ofLen 1, [.foreign ⟨.ofLen 0, .i32⟩]), ?_, ⟨.ofLen 0, .i32⟩, ?_⟩
  · exact List.mem_singleton.mpr rfl
  · exact List.mem_singleton.mpr rfl

end Sample

/-- The consumer is fed the source of its own runner that has the foreign handle's id and type: `run` returns `Ok` with
`"2"` where the handle stands for `3`. -/
theorem foreign_not_detected : (⟨Sample.borrower, Sample.lender⟩ : World Sample.Value).Reachable ∧
    Sample.borrower.UsesForeign ∧
    ∃ out, Sample.borrower.dag.run ⟨.stored _, .stored _⟩ .identity .reversed = some (.ok (.ok out)) ∧
      out.value (.ofLen 1) = some ⟨.string, ("2" : String)⟩ :=
  ⟨Sample.reachable_world, Sample.usesForeign_borrower, _, rfl, rfl⟩

theorem foreign_detected_sample :
    ¬ (Sample.borrower.UsesForeign → ∃ n values p, Sample.borrower.dag.PanicsOn n values p) := by
  intro h
  have hiff := World.Reachable.foreign_detected_iff Sample.reachable_world (Or.inl rfl)
    Spawner.identity_passesThrough.honest ⟨.stored _, .stored _⟩ .reversed
  exact hiff.mpr h Sample.usesForeign_borrower _ rfl

end Dagx
