import Dagx.Outcome

/-!
# Retrieval after success

* `DagOutput.getAll`: `get` for each of a list of handles, in order;
* `DagOutput.Holds`: the entry of a handle is there, and the store is its last owner;
* `DagOutput.getAll_eq_ok_iff`: then every `get` succeeds exactly when the handles have the types of the entries;
* `RunState.Final.output`, `WellWired.lookup_output`: the entries of a run without an error;
* `WellWired.get_succeeds_iff`: after a successful run every handle can be retrieved, once each, in any order, exactly when
  each is used at the output type of its task;
* `not_get_succeeds`: a handle that is used at a supertype.
-/

namespace Dagx

open DagRunner

variable {Ty : Type} {Val : Ty → Type}

namespace DagOutput

/-- The entry of the handle is there with the given value, and the store is the only owner of its `Arc`. -/
def Holds (out : DagOutput Val) (handle : TaskHandle Ty) (v : AnyVal Val) : Prop :=
  out.outputs.lookup handle.id = some ⟨handle.id, v⟩ ∧ out.strong handle.id = 1

theorem Holds.erase {out : DagOutput Val} {handle : TaskHandle Ty} {v : AnyVal Val} (h : out.Holds handle v)
    {id : NodeId} (hne : handle.id ≠ id) : { out with outputs := out.outputs.erase id }.Holds handle v :=
  ⟨by rw [← h.1]; exact AList.lookup_erase_ne hne, h.2⟩

variable [DecidableEq Ty]

/-- `get` for each handle, in order; it panics when one of them does. -/
def getAll : List (TaskHandle Ty) → DagOutput Val → Outcome (List (AnyVal Val) × DagOutput Val)
  | [], out => .ok ([], out)
  | handle :: handles, out =>
    match out.get handle with
    | .error payload => .error payload
    | .ok (value, out) =>
      match getAll handles out with
      | .error payload => .error payload
      | .ok (values, out) => .ok (⟨handle.ty, value⟩ :: values, out)

theorem get_of_holds {out : DagOutput Val} {handle : TaskHandle Ty} {v : AnyVal Val} (h : out.Holds handle v)
    (hty : v.ty = handle.ty) :
    ∃ value, out.get handle = .ok (value, { out with outputs := out.outputs.erase handle.id }) ∧
      (⟨handle.ty, value⟩ : AnyVal Val) = v := by
  obtain ⟨hlookup, hstrong⟩ := h
  obtain ⟨ty, value⟩ := v
  obtain rfl : ty = handle.ty := hty
  refine ⟨value, ?_, rfl⟩
  unfold get
  rw [hlookup]
  simp only [AnyVal.downcastRef_self]
  exact if_pos hstrong

theorem get_of_ne {out : DagOutput Val} {handle : TaskHandle Ty} {arc : Arc Val}
    (h : out.outputs.lookup handle.id = some arc) (hty : arc.inner.ty ≠ handle.ty) :
    ∃ payload, out.get handle = .error payload := by
  have hcast : arc.inner.downcastRef handle.ty = none := dif_neg hty
  unfold get
  rw [h]
  dsimp only
  rw [hcast]
  exact ⟨_, rfl⟩

theorem getAll_cons_of_ok {out out' out'' : DagOutput Val} {handle : TaskHandle Ty} {handles : List (TaskHandle Ty)}
    {value : Val handle.ty} {values' : List (AnyVal Val)} (hget : out.get handle = .ok (value, out')) :
    getAll (handle :: handles) out = .ok (values', out'') ↔
      ∃ values, getAll handles out' = .ok (values, out'') ∧ values' = ⟨handle.ty, value⟩ :: values := by
  rw [getAll, hget]
  dsimp only
  cases getAll handles out' with
  | error payload =>
    constructor
    · intro h
      cases h
    · rintro ⟨values, h, -⟩
      cases h
  | ok rest =>
    obtain ⟨values, out₁⟩ := rest
    constructor
    · intro h
      cases h
      exact ⟨values, rfl, rfl⟩
    · rintro ⟨values, h, rfl⟩
      cases h
      rfl

/-- **Which retrievals succeed**: those of handles at the types of their entries; they return the entries. -/
theorem getAll_eq_ok_iff (handles : List (TaskHandle Ty)) : ∀ {values values' : List (AnyVal Val)} {out : DagOutput Val},
    List.Forall₂ out.Holds handles values → (handles.map TaskHandle.id).Nodup →
    ((∃ out', getAll handles out = .ok (values', out')) ↔
      values' = values ∧ values.map AnyVal.ty = handles.map TaskHandle.ty) := by
  induction handles with
  | nil =>
    intro values values' out hall _
    cases hall
    constructor
    · rintro ⟨out', h⟩
      cases h
      exact ⟨rfl, rfl⟩
    · rintro ⟨rfl, -⟩
      exact ⟨out, rfl⟩
  | cons handle handles ih =>
    intro values values' out hall hnodup
    rw [List.map_cons, List.nodup_cons] at hnodup
    cases hall with
    | @cons _ v _ values hv hrest =>
      rw [List.map_cons, List.map_cons, List.cons.injEq]
      by_cases hty : v.ty = handle.ty
      · obtain ⟨value, hget, rfl⟩ := get_of_holds hv hty
        have hrest' : List.Forall₂ { out with outputs := out.outputs.erase handle.id }.Holds handles values := by
          rw [List.forall₂_iff_zip] at hrest ⊢
          refine ⟨hrest.1, fun {a b} hab => (hrest.2 hab).erase fun he => hnodup.1 ?_⟩
          rw [← he]
          exact List.mem_map_of_mem (List.of_mem_zip hab).1
        constructor
        · rintro ⟨out', h⟩
          obtain ⟨rest, hall', rfl⟩ := (getAll_cons_of_ok hget).mp h
          obtain ⟨rfl, htypes⟩ := (ih hrest' hnodup.2).mp ⟨_, hall'⟩
          exact ⟨rfl, hty, htypes⟩
        · rintro ⟨rfl, -, htypes⟩
          obtain ⟨out', hout'⟩ := (ih hrest' hnodup.2).mpr ⟨rfl, htypes⟩
          exact ⟨out', (getAll_cons_of_ok hget).mpr ⟨values, hout', rfl⟩⟩
      · obtain ⟨payload, hget⟩ := get_of_ne hv.1 hty
        constructor
        · rintro ⟨out', h⟩
          rw [getAll, hget] at h
          cases h
        · exact fun h => absurd h.2.1 hty

end DagOutput

theorem map_ty_eq_iff {P : TaskHandle Ty → Prop} {handles : List (TaskHandle Ty)} {values : List (AnyVal Val)}
    (h : List.Forall₂ (fun handle v => v.ty = handle.ty ↔ P handle) handles values) :
    values.map AnyVal.ty = handles.map TaskHandle.ty ↔ ∀ handle ∈ handles, P handle := by
  induction h with
  | nil => simp
  | cons hv _ ih => rw [List.map_cons, List.map_cons, List.cons.injEq, List.forall_mem_cons, hv, ih]

variable [Preorder Ty] [DecidableEq Ty]

/-- After a run without an error every task that was ever ready has its output in the store, which is its one owner. -/
theorem RunState.Final.output {dag : DagRunner Val} {k j : Nat} {t : RunState Val} (h : t.Final dag k)
    (he : t.firstError = none) {id : NodeId} {task : TypedNode Val} (htask : dag.taskOf id = some task)
    (hready : Layering.Ready dag.deps j id) :
    ∃ v, v.ty = task.Output ∧ t.outputs.lookup id = some ⟨id, v⟩ ∧ t.strong id = 1 ∧
      .complete id (.ok (.ok ⟨id, v⟩)) ∈ t.log := by
  obtain ⟨hready, v, hv⟩ := h.ok_of_no_error he hready
  refine ⟨v, ty_of_evals hv htask, h.lookup he hv, ?_, h.inv.complete_mem hready hv⟩
  -- no future is left to hold a clone
  rw [h.inv.strong, if_pos ⟨hready, v, hv⟩, clones_nil]

theorem DagRunner.Wired.final_of_run {dag : DagRunner Val} (hw : dag.Wired) {sp : Spawner Val} (hsp : sp.Honest)
    {it : IterOrder} {co : CompletionOrder Val} {out : DagOutput Val} (hrun : dag.run it sp co = some (.ok (.ok out))) :
    ∃ (t : RunState Val) (k : Nat), dag.finalState it sp co = some (.ok (.ok t)) ∧ t.Final dag k ∧ t.firstError = none ∧
      out = ⟨t.outputs, t.strong⟩ := by
  obtain ⟨t, k, ht, hfinal, -⟩ := hw.final hsp it co
  rw [run_eq ht] at hrun
  have hresult : t.result = .ok out := Except.ok.inj (Option.some.inj hrun)
  exact ⟨t, k, ht, hfinal, RunState.result_eq_ok.mp hresult⟩

namespace Session

theorem WellWired.lookup_output {s : Session Val} (hs : s.WellWired) {sp : Spawner Val} (hsp : sp.Honest)
    {it : IterOrder} {co : CompletionOrder Val} {out : DagOutput Val} (hrun : s.dag.run it sp co = some (.ok (.ok out)))
    {id : NodeId} {task : TypedNode Val} (htask : s.dag.taskOf id = some task) :
    ∃ v, v.ty = task.Output ∧ out.outputs.lookup id = some ⟨id, v⟩ ∧ out.strong id = 1 := by
  obtain ⟨t, k, -, hfinal, he, rfl⟩ := (Reachable.inv hs.own hs.small).wired.final_of_run hsp hrun
  obtain ⟨v, hty, hlookup, hstrong, -⟩ := hfinal.output he htask (hs.own.ready hs.small (index_lt_of_taskOf htask))
  exact ⟨v, hty, hlookup, hstrong⟩

/-- **When retrieval after success never fails**: after a run that returned `Ok`, `get` succeeds for handles of the runner
with distinct ids, in any order, and returns the value each task completed with, exactly when each handle is used at the
output type of its task. -/
theorem WellWired.get_succeeds_iff {s : Session Val} (hs : s.WellWired) {sp : Spawner Val} (hsp : sp.Honest)
    {it : IterOrder} {co : CompletionOrder Val} {out : DagOutput Val} (hrun : s.dag.run it sp co = some (.ok (.ok out)))
    {handles : List (TaskHandle Ty)} (hissued : ∀ handle ∈ handles, s.Issued handle)
    (hnodup : (handles.map TaskHandle.id).Nodup) :
    (∃ (t : RunState Val) (values : List (AnyVal Val)) (out' : DagOutput Val),
      s.dag.finalState it sp co = some (.ok (.ok t)) ∧ out.getAll handles = .ok (values, out') ∧
      List.Forall₂ (fun handle v => .complete handle.id (.ok (.ok ⟨handle.id, v⟩)) ∈ t.log) handles values) ↔
    ∀ handle ∈ handles, ∀ task, s.dag.taskOf handle.id = some task → task.Output = handle.ty := by
  have hinv := Reachable.inv hs.own hs.small
  obtain ⟨t, k, ht, hfinal, he, rfl⟩ := hinv.wired.final_of_run hsp hrun
  have hholds : ∀ handle ∈ handles, ∃ v, (⟨t.outputs, t.strong⟩ : DagOutput Val).Holds handle v ∧
      .complete handle.id (.ok (.ok ⟨handle.id, v⟩)) ∈ t.log ∧
      (v.ty = handle.ty ↔ ∀ task, s.dag.taskOf handle.id = some task → task.Output = handle.ty) := by
    intro handle hh
    obtain ⟨issued, hmem, hle⟩ := hissued handle hh
    obtain ⟨task, htask⟩ := hinv.handles issued hmem
    rw [hle.1] at htask
    obtain ⟨v, hv, hlookup, hstrong, hcomplete⟩ :=
      hfinal.output he htask (hs.own.ready hs.small (index_lt_of_taskOf htask))
    refine ⟨v, ⟨hlookup, hstrong⟩, hcomplete, ?_⟩
    rw [hv, htask]
    constructor
    · intro hty task' ht
      cases ht
      exact hty
    · exact fun h => h task rfl
  obtain ⟨values, hvalues⟩ := Dataflow.exists_forall₂ hholds
  have htypes := map_ty_eq_iff (hvalues.imp fun _ _ h => h.2.2)
  constructor
  · rintro ⟨t', values', out', -, hget, -⟩
    exact htypes.mp ((DagOutput.getAll_eq_ok_iff handles (hvalues.imp fun _ _ h => h.1) hnodup).mp ⟨out', hget⟩).2
  · intro hown
    obtain ⟨out', hout'⟩ := (DagOutput.getAll_eq_ok_iff handles (hvalues.imp fun _ _ h => h.1) hnodup).mpr
      ⟨rfl, htypes.mpr hown⟩
    exact ⟨t, values, out', ht, hout', hvalues.imp fun _ _ h => h.2.1⟩

theorem get_succeeds_sample : ∃ (out out' : DagOutput Sample.Value) (values : List (AnyVal Sample.Value)),
    (Sample.session (Sample.value 2)).dag.run ⟨.stored _, .stored _⟩ .identity .reversed = some (.ok (.ok out)) ∧
      out.getAll [⟨.ofLen 4, .string⟩, ⟨.ofLen 1, .i32⟩, ⟨.ofLen 2, .i32⟩] = .ok (values, out') := by
  have hs := Sample.wellWired_session (Sample.value 2) rfl rfl
  have hrun : ∃ out, (Sample.session (Sample.value 2)).dag.run ⟨.stored _, .stored _⟩ .identity .reversed =
      some (.ok (.ok out)) := ⟨_, rfl⟩
  obtain ⟨out, hrun⟩ := hrun
  have hmem : ∀ handle ∈ ([⟨.ofLen 4, .string⟩, ⟨.ofLen 1, .i32⟩, ⟨.ofLen 2, .i32⟩] : List (TaskHandle Sample.Kind)),
      handle ∈ (Sample.session (Sample.value 2)).handles := by decide
  have hexact := (Sample.plain_session (Sample.value 2) rfl rfl).exact hs.small
  obtain ⟨-, values, out', -, hget, -⟩ := (WellWired.get_succeeds_iff hs Spawner.identity_passesThrough.honest hrun
    (fun handle hh => .of_mem (hmem handle hh)) (by decide)).mpr fun handle hh => hexact.handles handle (hmem handle hh)
  exact ⟨out, out', values, hrun, hget⟩

end Session

/-! ## A handle at a supertype -/

namespace Sample

def callAny : TypedNode Value := ⟨[.fnStr], .i32, .next le_rfl fun f : String → Int => .ret (f "dag")⟩

def measured : Session Value :=
  ((Session.new.addTask measure).addTask callAny).dependsOn ⟨.ofLen 1, [.fnStr], .i32⟩ [.own ⟨.ofLen 0, .fnStr⟩]

theorem wellWired_measured : measured.WellWired := by
  have hnew : (Session.new : Session Value).WellWired := Session.wellWired_new
  have h₀ := hnew.addSource rfl (by decide) measure rfl
  exact (h₀.1.addWired h₀.2 (by simp [Session.length_addTask, Session.new, DagRunner.new]) callAny
    [.own ⟨.ofLen 0, .fnStr⟩] (by decide) rfl
    (Session.owns_of_mem (by simp [Session.addTask, measure, Session.new, DagRunner.new]))).1

end Sample

/-- The run returns `Ok`; the source's own handle, as a handle of a function of the `'static` strings, finds the entry, and
the downcast fails. -/
theorem not_get_succeeds : Sample.measured.WellWired ∧ Sample.measured.Issued ⟨.ofLen 0, .fnStaticStr⟩ ∧
    ∃ out, Sample.measured.dag.run ⟨.stored _, .stored _⟩ .identity .reversed = some (.ok (.ok out)) ∧
      .ofLen 0 ∈ out.outputs ∧ out.get ⟨.ofLen 0, Sample.Kind.fnStaticStr⟩ =
        .error (.string "called `Result::unwrap()` on an `Err` value: Any \x7b .. \x7d") :=
  ⟨Sample.wellWired_measured, ⟨⟨.ofLen 0, .fnStr⟩, by decide, rfl, Or.inr ⟨rfl, rfl⟩⟩, _, rfl, by decide, rfl⟩

end Dagx
