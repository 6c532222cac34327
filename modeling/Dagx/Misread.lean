import Dagx.Retrieval

/-!
# Retrieval with a handle of another runner

* `DagOutput.afterGet`, `DagOutput.afterGets`: what calls of `get` leave behind, returned or panicked
  (`DagOutput.eq_afterGet`);
* `WellWired.get_foreign_iff`: a handle, whichever runner issued it, is rejected exactly when there is no unread entry of
  its id and of the type at which it is used;
* `get_foreign_returns`: a handle of another runner is read as one of this runner.
-/

namespace Dagx

open DagRunner

variable {Ty : Type} {Val : Ty → Type}

namespace DagOutput

/-- What `get` leaves behind, whether it returns or panics: `remove` comes before every `unwrap`. -/
def afterGet (out : DagOutput Val) (handle : TaskHandle Ty) : DagOutput Val :=
  { out with outputs := out.outputs.erase handle.id }

def afterGets (out : DagOutput Val) (handles : List (TaskHandle Ty)) : DagOutput Val := handles.foldl afterGet out

theorem lookup_afterGet (out : DagOutput Val) (handle : TaskHandle Ty) (id : NodeId) :
    (out.afterGet handle).outputs.lookup id = if handle.id = id then none else out.outputs.lookup id := by
  unfold afterGet
  split_ifs with h
  · rw [h]
    exact AList.lookup_erase _ _
  · apply AList.lookup_erase_ne
    exact fun he => h he.symm

theorem lookup_afterGets (handles : List (TaskHandle Ty)) : ∀ (out : DagOutput Val) (id : NodeId),
    (out.afterGets handles).outputs.lookup id =
      if ∃ handle ∈ handles, handle.id = id then none else out.outputs.lookup id := by
  induction handles with
  | nil =>
    intro out id
    rw [if_neg (by simp)]
    rfl
  | cons handle handles ih =>
    intro out id
    have hstep : out.afterGets (handle :: handles) = (out.afterGet handle).afterGets handles := rfl
    rw [hstep, ih, lookup_afterGet]
    by_cases hid : handle.id = id
    · rw [if_pos hid, ite_self, if_pos ⟨handle, List.mem_cons_self, hid⟩]
    · simp [hid]

@[simp] theorem strong_afterGets (handles : List (TaskHandle Ty)) (out : DagOutput Val) :
    (out.afterGets handles).strong = out.strong := by
  induction handles generalizing out with
  | nil => rfl
  | cons handle handles ih => exact ih (out.afterGet handle)

variable [DecidableEq Ty]

theorem eq_afterGet {out out' : DagOutput Val} {handle : TaskHandle Ty} {value : Val handle.ty}
    (h : out.get handle = .ok (value, out')) : out' = out.afterGet handle := by
  unfold get at h
  split at h
  · cases h
  · split at h
    · cases h
    · split_ifs at h
      cases h
      rfl

theorem get_of_none {out : DagOutput Val} {handle : TaskHandle Ty} (h : out.outputs.lookup handle.id = none) :
    out.get handle = .error unwrapNone := by
  unfold get
  rw [h]

end DagOutput

namespace Session

variable [Preorder Ty] [DecidableEq Ty] {s : Session Val} {sp : Spawner Val} {it : IterOrder} {co : CompletionOrder Val}
  {out : DagOutput Val}

theorem WellWired.lookup_eq_none (hs : s.WellWired) (hsp : sp.Honest) (hrun : s.dag.run it sp co = some (.ok (.ok out)))
    {id : NodeId} (hid : ∀ task, s.dag.taskOf id ≠ some task) : out.outputs.lookup id = none := by
  have hinv := Reachable.inv hs.own hs.small
  obtain ⟨t, k, -, hfinal, -, rfl⟩ := hinv.wired.final_of_run hsp hrun
  refine hfinal.lookup_eq_none fun j hready => ?_
  obtain ⟨task, htask⟩ := exists_task_of_ready hinv.wired hready
  exact hid task htask

/-- **When a handle is rejected**: on the output of a successful run, after any calls of `get`, with a handle of any runner
at any type at which it can be used, `get` panics exactly when the runner that ran has no task of the id of the handle whose
output type is that type, or an earlier call used the id. -/
theorem WellWired.get_foreign_iff (hs : s.WellWired) (hsp : sp.Honest)
    (hrun : s.dag.run it sp co = some (.ok (.ok out))) (gets : List (TaskHandle Ty)) (handle : TaskHandle Ty) :
    (∃ payload, (out.afterGets gets).get handle = .error payload) ↔
      ∀ task, s.dag.taskOf handle.id = some task → task.Output = handle.ty → ∃ g ∈ gets, g.id = handle.id := by
  have hlookup := DagOutput.lookup_afterGets gets out handle.id
  constructor
  · intro hpanic task htask hty
    by_contra hfresh
    rw [if_neg hfresh] at hlookup
    obtain ⟨payload, hpanic⟩ := hpanic
    obtain ⟨v, hv, hentry, hstrong⟩ := hs.lookup_output hsp hrun htask
    have hholds : (out.afterGets gets).Holds handle v := by
      refine ⟨hlookup.trans hentry, ?_⟩
      rw [DagOutput.strong_afterGets]
      exact hstrong
    obtain ⟨value, hget, -⟩ := DagOutput.get_of_holds hholds (hv.trans hty)
    rw [hget] at hpanic
    cases hpanic
  · intro hcond
    cases htask : s.dag.taskOf handle.id with
    | none =>
      have hnone : out.outputs.lookup handle.id = none := hs.lookup_eq_none hsp hrun fun task h => by
        rw [htask] at h
        cases h
      rw [hnone, ite_self] at hlookup
      exact ⟨_, DagOutput.get_of_none hlookup⟩
    | some task =>
      by_cases hused : ∃ g ∈ gets, g.id = handle.id
      · rw [if_pos hused] at hlookup
        exact ⟨_, DagOutput.get_of_none hlookup⟩
      · rw [if_neg hused] at hlookup
        obtain ⟨v, hv, hentry, -⟩ := hs.lookup_output hsp hrun htask
        refine DagOutput.get_of_ne (hlookup.trans hentry) fun hty => hused (hcond task htask ?_)
        exact hv.symm.trans hty

/-- The second runner's handle of `3` reads the `2` of the first. -/
theorem get_foreign_returns : (Sample.session (Sample.value 2)).WellWired ∧ (Sample.session (Sample.value 3)).WellWired ∧
    ⟨.ofLen 0, .i32⟩ ∈ (Sample.session (Sample.value 3)).handles ∧ ∃ out out' : DagOutput Sample.Value,
      (Sample.session (Sample.value 2)).dag.run ⟨.stored _, .stored _⟩ .identity .reversed = some (.ok (.ok out)) ∧
      out.get ⟨.ofLen 0, Sample.Kind.i32⟩ = .ok ((2 : Int), out') :=
  ⟨Sample.wellWired_session _ rfl rfl, Sample.wellWired_session _ rfl rfl, by decide, _, _, rfl, rfl⟩

/-- Two runners whose first tasks have the same output type: the second runner's handle, used at a supertype, is rejected. -/
theorem get_foreign_sample : Sample.coerced.Issued ⟨.ofLen 0, .fnStaticStr⟩ ∧
    ∃ (out : DagOutput Sample.Value) (payload : Payload),
      Sample.measured.dag.run ⟨.stored _, .stored _⟩ .identity .reversed = some (.ok (.ok out)) ∧
        (out.afterGets [⟨.ofLen 1, .i32⟩]).get ⟨.ofLen 0, .fnStaticStr⟩ = .error payload := by
  refine ⟨⟨⟨.ofLen 0, .fnStr⟩, by decide, rfl, Or.inr ⟨rfl, rfl⟩⟩, ?_⟩
  have hrun : ∃ out, Sample.measured.dag.run ⟨.stored _, .stored _⟩ .identity .reversed = some (.ok (.ok out)) := ⟨_, rfl⟩
  obtain ⟨out, hrun⟩ := hrun
  have hiff := WellWired.get_foreign_iff Sample.wellWired_measured Spawner.identity_passesThrough.honest hrun
    [⟨.ofLen 1, .i32⟩] ⟨.ofLen 0, .fnStaticStr⟩
  obtain ⟨payload, hget⟩ := hiff.mpr fun task htask hty => by
    cases htask
    cases hty
  exact ⟨out, payload, hrun, hget⟩

end Session

end Dagx
