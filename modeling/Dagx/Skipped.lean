import Dagx.Adequacy
import Dagx.Robustness

/-!
# Tasks that `run` skips

A handle of another runner can be an id that this runner gives to a later task, to the task itself or to none. `run`
does not report it: the task, and every task that waits for it, is missing from the output map.

* `Wired.exists_ready_iff`: which tasks get into a layer;
* `Reachable.skipped_iff`: which tasks are missing from the output of a run that returns `Ok`.
-/

namespace Dagx

open Layering DagRunner

variable {Ty : Type} [Preorder Ty] {Val : Ty → Type}

/-- The task is there, and so are its dependencies, all added before it. -/
def DagRunner.LooksBack (dag : DagRunner Val) (n : NodeId) : Prop :=
  n ∈ dag.edges ∧ ∀ d ∈ dag.edgesOf n, dag.addedAt d < dag.addedAt n

theorem DagRunner.looksBack_iff {dag : DagRunner Val} {n : NodeId} :
    dag.LooksBack n ↔ ∃ ds, dag.edges.lookup n = some ds ∧ ∀ d ∈ ds, dag.addedAt d < dag.addedAt n := by
  unfold LooksBack edgesOf
  rw [← AList.lookup_isSome]
  cases dag.edges.lookup n with
  | none => simp
  | some ds => simp

/-- A task gets into a layer exactly when it and everything it waits for look back. -/
theorem DagRunner.exists_ready_iff {dag : DagRunner Val} {n : NodeId} :
    (∃ k, Ready dag.deps k n) ↔ ∀ j m, Path (fun n => dag.edges.lookup n) n j m → dag.LooksBack m := by
  rw [exists_ready_iff_path (fun a b => (addedAt_inj dag).mp) fun _ _ => deps_eq_some]
  constructor
  · intro h j m hp
    exact looksBack_iff.mpr (h j m hp)
  · intro h j m hp
    exact looksBack_iff.mp (h j m hp)

variable [DecidableEq Ty]

namespace Session

/-- **What `run` leaves out without an error**: for every build history, whatever handles of other runners it passes
and however many tasks it adds, the tasks missing from the output of a run that returns `Ok` are exactly those from
which a chain of dependencies leads to a task that does not exist or has a dependency that is not earlier. -/
theorem Reachable.skipped_iff {foreign : TaskHandle Ty → Prop} {s : Session Val} (hs : s.Reachable foreign)
    {sp : Spawner Val} (hsp : sp.Honest) (it : IterOrder) (co : CompletionOrder Val) :
    ∃ r, s.dag.run it sp co = some (.ok r) ∧ ∀ out, r = .ok out → ∀ n,
      n ∉ out.outputs ↔ ∃ j m, Path (fun n => s.dag.edges.lookup n) n j m ∧ ¬ s.dag.LooksBack m := by
  obtain ⟨r, hr, hok, -⟩ := (Reachable.wired hs).run_spec hsp it co
  refine ⟨r, hr, fun out hout n => ?_⟩
  obtain ⟨hpanic, hlookup, -⟩ := hok out hout
  have hready : n ∈ out.outputs ↔ ∃ k, Ready s.dag.deps k n := by
    rw [← AList.lookup_isSome, Option.isSome_iff_exists]
    constructor
    · rintro ⟨a, ha⟩
      exact Dataflow.Evals.ready ((hlookup n a).mp ha).2
    · rintro ⟨k, hk⟩
      obtain ⟨v, hv⟩ := Dataflow.ok_of_ready (D := s.dag.dataflow) (fun m p _ => hpanic m p) hk
      exact ⟨⟨n, v⟩, (hlookup n ⟨n, v⟩).mpr ⟨rfl, hv⟩⟩
  rw [hready, exists_ready_iff]
  push Not
  exact Iff.rfl

end Session

namespace Sample

/-- A source, a task that is given its own id by a handle of another runner, and one that waits for both. -/
def stray : Session Value :=
  let s := (Session.new.addTask (value 3)).addTask add
  let s := (s.dependsOn ⟨.ofLen 1, [.i32, .i32], .i32⟩ [.own ⟨.ofLen 0, .i32⟩, .foreign ⟨.ofLen 1, .i32⟩]).addTask add
  s.dependsOn ⟨.ofLen 2, [.i32, .i32], .i32⟩ [.own ⟨.ofLen 0, .i32⟩, .own ⟨.ofLen 1, .i32⟩]

theorem reachable_stray : stray.Reachable fun _ => True := by
  have hnew : (Session.new : Session Value).Reachable fun _ => True := .of_init rfl
  refine ((((hnew.step (.addTask _ (value 3) rfl)).step (.addTask _ add rfl)).step
    (.dependsOn _ _ _ rfl rfl fun a ha => ?_)).step (.addTask _ add rfl)).step
    (.dependsOn _ _ _ rfl rfl fun a ha => ?_)
  · rcases List.mem_pair.mp ha with rfl | rfl
    · exact .of_mem List.mem_cons_self
    · trivial
  · rcases List.mem_pair.mp ha with rfl | rfl
    · exact .of_mem List.mem_cons_self
    · exact .of_mem (List.mem_cons_of_mem _ List.mem_cons_self)

end Sample

theorem Session.skipped_iff_sample :
    ∃ out, Sample.stray.dag.run ⟨.stored _, .stored _⟩ .identity .reversed = some (.ok (.ok out)) ∧
      .ofLen 0 ∈ out.outputs ∧ .ofLen 2 ∉ out.outputs := by
  have hsp : (Spawner.identity : Spawner Sample.Value).Honest := Spawner.identity_passesThrough.honest
  obtain ⟨r, hr, hout⟩ := Session.Reachable.skipped_iff Sample.reachable_stray hsp ⟨.stored _, .stored _⟩ .reversed
  have hrun : ∃ out, Sample.stray.dag.run ⟨.stored _, .stored _⟩ .identity .reversed = some (.ok (.ok out)) ∧
      .ofLen 0 ∈ out.outputs := ⟨_, rfl, by decide⟩
  obtain ⟨out, hrun, hmem⟩ := hrun
  rw [hrun] at hr
  cases hr
  refine ⟨out, hrun, hmem, (hout out rfl (.ofLen 2)).mpr ⟨1, .ofLen 1, ?_, fun hback => ?_⟩⟩
  · have hds : Sample.stray.dag.edges.lookup (.ofLen 2) = some [.ofLen 0, .ofLen 1] := rfl
    exact .cons hds (by decide) (.nil _)
  · exact absurd (hback.2 (.ofLen 1) (by decide)) (lt_irrefl _)

end Dagx
