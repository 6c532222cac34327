import Dagx.Typing

/-!
# What `run` returns

* `Blames`: the error recorded is that of the first task to complete with a panic; the runs of all layers keep it when
  the spawner passes outcomes through (`Blames.runLayers`);
* `WellWired.run_panic`: with panics it stops after the layer of the shallowest, and returns the first of that layer.
-/

namespace Dagx

open Layering DagRunner

variable {Ty : Type} {Val : Ty → Type}

/-! ## The first panic -/

def firstPanic (log : List (Event Val)) : Option (NodeId × Payload) :=
  log.findSome? fun e => match e with
    | .complete id (.error payload) => some (id, payload)
    | _ => none

@[simp] theorem firstPanic_append (log log' : List (Event Val)) :
    firstPanic (log ++ log') = (firstPanic log).or (firstPanic log') := List.findSome?_append

theorem exists_of_firstPanic {log : List (Event Val)} {id : NodeId} {p : Payload} (h : firstPanic log = some (id, p)) :
    ∃ pre post, log = pre ++ .complete id (.error p) :: post ∧ ∀ m q, .complete m (.error q) ∉ pre := by
  obtain ⟨pre, e, post, rfl, he, hpre⟩ := List.findSome?_eq_some_iff.mp h
  refine ⟨pre, post, ?_, fun m q hm => ?_⟩
  · cases e with
    | complete id' o =>
      cases o with
      | ok r => simp at he
      | error q =>
        obtain ⟨rfl, rfl⟩ : id' = id ∧ q = p := by simpa using he
        rfl
    | start id' ds => simp at he
    | consume id' r => simp at he
  · have := hpre _ hm
    simp at this

variable [Preorder Ty]

/-- The error recorded is that of the first task to complete with a panic. -/
def RunState.Blames (s : RunState Val) : Prop :=
  s.firstError = (firstPanic s.log).map fun q => .TaskPanicked q.1.val (panicMessage q.2)

namespace RunState

theorem start_cases {edges : PassThroughHashMap (List NodeId)} {s s' : RunState Val} {id : NodeId}
    {o : Option (InFlight Val)} (h : s.start edges id = .ok (o, s')) :
    o = none ∧ s' = s ∨ ∃ node dependencies, o = some ⟨id, node, dependencies⟩ ∧
      s' = { s with
        nodes := s.nodes.set id.index none
        strong := cloneAll dependencies s.strong
        log := s.log ++ [.start id dependencies] } := by
  unfold start at h
  split at h
  · cases h
  · cases h
    exact Or.inl ⟨rfl, rfl⟩
  · split at h
    · cases h
    · cases h
      exact Or.inr ⟨_, _, rfl, rfl⟩

theorem Blames.start {edges : PassThroughHashMap (List NodeId)} {s s' : RunState Val} {id : NodeId}
    {o : Option (InFlight Val)} (hb : s.Blames) (h : s.start edges id = .ok (o, s')) : s'.Blames := by
  rcases start_cases h with ⟨-, rfl⟩ | ⟨node, dependencies, -, rfl⟩
  · exact hb
  · show s.firstError = (firstPanic (s.log ++ [.start id dependencies])).map _
    rw [firstPanic_append, show firstPanic [Event.start id dependencies] = none from rfl, Option.or_none]
    exact hb

theorem Blames.spawnAll {edges : PassThroughHashMap (List NodeId)} (layer : List NodeId) :
    ∀ {s s' : RunState Val} {fs : List (InFlight Val)}, s.Blames → spawnAll edges layer s = .ok (fs, s') →
      s'.Blames := by
  induction layer with
  | nil =>
    intro s s' fs hb h
    cases h
    exact hb
  | cons id layer ih =>
    intro s s' fs hb h
    unfold RunState.spawnAll at h
    split at h
    · cases h
    · rename_i s₁ hs
      exact ih (hb.start hs) h
    · rename_i f s₁ hs
      have hb' : s₁.Blames := hb.start hs
      have hb₁ : { s₁ with spawned := s₁.spawned ++ [id] }.Blames := hb'
      split at h
      · cases h
      · rename_i gs s₂ hs₂
        cases h
        exact ih hb₁ hs₂

variable [DecidableEq Ty]

theorem Blames.settle {s : RunState Val} (hb : s.Blames) (f : InFlight Val) :
    ((s.complete f).consume f.id (inlineResult f)).Blames := by
  unfold Blames at hb ⊢
  rw [firstError_consume, log_consume]
  show s.firstError.or _ = (firstPanic ((s.log ++ [.complete f.id f.outcome]) ++ [_])).map _
  rw [firstPanic_append, firstPanic_append, inlineResult, InFlight.outcome, executeWithDeps_eq, hb]
  cases f.node.call (f.dependencies.map Arc.inner) with
  | ok v =>
    show ((firstPanic s.log).map _).or none = (((firstPanic s.log).or none).or none).map _
    rw [Option.or_none, Option.or_none, Option.or_none]
  | error p =>
    show ((firstPanic s.log).map _).or (some _) = (((firstPanic s.log).or (some (f.id, p))).or none).map _
    cases firstPanic s.log <;> rfl

theorem spawnedOutput_eq {sp : Spawner Val} (hsp : sp.PassesThrough) (f : InFlight Val) :
    spawnedOutput sp f = inlineResult f := by
  unfold spawnedOutput spawnedResult inlineResult
  rw [hsp]
  cases f.outcome with
  | error payload => rfl
  | ok result => cases result <;> rfl

theorem Blames.foldl_settle {sp : Spawner Val} (hsp : sp.PassesThrough) (fs : List (InFlight Val)) :
    ∀ {s : RunState Val}, s.Blames → (fs.foldl (RunState.settle sp) s).Blames := by
  induction fs with
  | nil => exact id
  | cons f fs ih =>
    intro s hb
    refine ih ?_
    rw [settle_eq, spawnedOutput_eq hsp]
    exact hb.settle f

theorem Blames.runLayer {sp : Spawner Val} (hsp : sp.PassesThrough) (co : CompletionOrder Val)
    {edges : PassThroughHashMap (List NodeId)} {layer : List NodeId} {s s' : RunState Val} (hb : s.Blames)
    (h : runLayer sp co edges s layer = .ok s') : s'.Blames := by
  unfold RunState.runLayer at h
  split at h
  · unfold runInline at h
    split at h
    · cases h
    · rename_i s₁ hs
      cases h
      exact hb.start hs
    · rename_i id f s₁ hs
      cases h
      rcases start_cases hs with ⟨hf, -⟩ | ⟨node, dependencies, hf, -⟩
      · cases hf
      · cases hf
        exact (hb.start hs).settle _
  · unfold runSpawned at h
    split at h
    · cases h
    · rename_i fs s₁ hs
      cases h
      exact (hb.spawnAll _ hs).foldl_settle hsp _

theorem Blames.runLayers {sp : Spawner Val} (hsp : sp.PassesThrough) (co : CompletionOrder Val)
    {edges : PassThroughHashMap (List NodeId)} (layers : List (List NodeId)) : ∀ {s s' : RunState Val}, s.Blames →
    runLayers (RunState.runLayer sp co edges) layers s = .ok s' → s'.Blames := by
  induction layers with
  | nil =>
    intro s s' hb h
    cases h
    exact hb
  | cons layer layers ih =>
    intro s s' hb h
    unfold RunState.runLayers at h
    split at h
    · cases h
    · rename_i s₁ hs
      split at h
      · cases h
        exact hb.runLayer hsp co hs
      · exact ih (hb.runLayer hsp co hs) h

end RunState

variable [DecidableEq Ty]

theorem DagRunner.blames_finalState {dag : DagRunner Val} {it : IterOrder} {sp : Spawner Val} {co : CompletionOrder Val}
    (hsp : sp.PassesThrough) {s : RunState Val} (h : dag.finalState it sp co = some (.ok (.ok s))) : s.Blames := by
  unfold DagRunner.finalState finalStateWith at h
  split at h
  · cases h
  · cases h
  · cases h
  · rename_i layers hrun
    cases hs : RunState.runLayers (RunState.runLayer sp co dag.edges) layers dag.initState with
    | error payload => rw [hs] at h; cases h
    | ok s' =>
      rw [hs] at h
      cases h
      have hinit : dag.initState.Blames := rfl
      exact hinit.runLayers hsp co layers hs

/-! ## The end of a run -/

namespace RunState.Final

variable {dag : DagRunner Val} {k : Nat} {s : RunState Val}

theorem ok_of_no_error (h : s.Final dag k) (he : s.firstError = none) {n : NodeId} {j : Nat}
    (hn : Ready dag.deps j n) : Ready dag.deps (k + 1) n ∧ ∃ v, dag.Evals n (.ok v) := by
  rcases h.outcome with ⟨-, hall⟩ | ⟨hsome, -⟩
  · exact hall n j hn
  · rw [he] at hsome
    cases hsome

theorem no_error (h : s.Final dag k) (hpanic : ∀ n p, ¬ dag.Evals n (.error p)) : s.firstError = none := by
  rcases h.outcome with ⟨he, -⟩ | ⟨-, n, p, -, hp⟩
  · exact he
  · exact absurd hp (hpanic n p)

/-- If a task panics, the last layer is at the least depth of such a task. -/
theorem panic (h : s.Final dag k) {n : NodeId} {p : Payload} (hp : dag.Evals n (.error p)) :
    s.firstError.isSome ∧ ∃ m q, AtDepth dag.deps k m ∧ dag.Evals m (.error q) := by
  rcases h.outcome with ⟨-, hall⟩ | hout
  · obtain ⟨j, hj⟩ := Dataflow.Evals.ready hp
    obtain ⟨-, v, hv⟩ := hall n j hj
    exact (hv.ok_ne_error hp).elim
  · exact hout

theorem lookup (h : s.Final dag k) (he : s.firstError = none) {n : NodeId} {v : AnyVal Val}
    (hv : dag.Evals n (.ok v)) : s.outputs.lookup n = some ⟨n, v⟩ := by
  obtain ⟨j, hj⟩ := Dataflow.Evals.ready hv
  exact h.inv.stored n (h.ok_of_no_error he hj).1 v hv

theorem lookup_eq_none (h : s.Final dag k) {n : NodeId} (hn : ∀ j, ¬ Ready dag.deps j n) :
    s.outputs.lookup n = none := h.inv.stored_only n (hn (k + 1))

end RunState.Final

def DagOutput.value (out : DagOutput Val) (id : NodeId) : Option (AnyVal Val) := (out.outputs.lookup id).map Arc.inner

theorem map_value_eq {dag : DagRunner Val} {out : DagOutput Val} {args : List (Arg Ty)} {vs : List (AnyVal Val)}
    (hvs : List.Forall₂ (fun d v => dag.Evals d (.ok v)) (toNodeIds args) vs)
    (hvalue : ∀ d v, dag.Evals d (.ok v) → out.value d = some v) :
    args.map (fun a => out.value a.handle.id) = vs.map some := by
  rw [toNodeIds, List.forall₂_map_left_iff] at hvs
  induction hvs with
  | nil => rfl
  | cons hav _ ih => rw [List.map_cons, List.map_cons, ih, hvalue _ _ hav]

namespace Session

/-- **`run` stops after the layer of the shallowest panic.** Without panics it returns `Ok`. Otherwise, with `L` the
least depth of a task that panics, it returns the id and message of the first task to complete with a panic, which is at
depth `L`; all tasks up to depth `L` were started and completed once, none deeper was started. -/
theorem WellWired.run_panic {s : Session Val} (hs : s.WellWired) {sp : Spawner Val} (hsp : sp.PassesThrough)
    (it : IterOrder) (co : CompletionOrder Val) :
    ∃ t : RunState Val, s.dag.finalState it sp co = some (.ok (.ok t)) ∧ s.dag.run it sp co = some (.ok t.result) ∧
      ((∀ n p, ¬ s.dag.Evals n (.error p)) → ∃ out, t.result = .ok out) ∧
      ∀ L, IsLeast {k | ∃ n p, s.dag.Evals n (.error p) ∧ s.dag.depth n = k} L →
        (∃ id p pre post, t.log = pre ++ .complete id (.error p) :: post ∧ (∀ m q, .complete m (.error q) ∉ pre) ∧
          s.dag.depth id = L ∧ s.dag.Evals id (.error p) ∧
          t.result = .error (.TaskPanicked id.val (panicMessage p))) ∧
        (∀ n : NodeId, n.index < s.dag.nodes.length → s.dag.depth n ≤ L →
          (started t.log).count n = 1 ∧ (completed t.log).count n = 1) ∧
        ∀ n, L < s.dag.depth n → n ∉ started t.log := by
  have hinv := Reachable.inv hs.own hs.small
  obtain ⟨t, k, ht, hfinal, -⟩ := hinv.wired.final hsp.honest it co
  refine ⟨t, ht, DagRunner.run_eq ht, fun hpanic => ?_, fun L hL => ?_⟩
  · exact ⟨⟨t.outputs, t.strong⟩, RunState.result_eq_ok.mpr ⟨hfinal.no_error hpanic, rfl⟩⟩
  · obtain ⟨n, p, hp, hdepth⟩ := hL.1
    obtain ⟨hsome, m, q, hm, hq⟩ := hfinal.panic hp
    -- the last layer is at depth `L`: a shallower one has no panic, and `L` is least
    have hk : k = L := by
      have hle : L ≤ k := hL.2 ⟨m, q, hq, ((hs.own.atDepth_iff hs.small).mp hm).2⟩
      by_contra hne
      obtain ⟨j, hj⟩ := Dataflow.Evals.ready hp
      have hn := (hs.own.exists_ready_iff hs.small n).mp ⟨j, hj⟩
      obtain ⟨v, hv⟩ := hfinal.below n ((hs.own.ready_iff hs.small).mpr ⟨hn, by omega⟩)
      exact hv.ok_ne_error hp
    subst hk
    refine ⟨?_, fun a ha hda => ?_, fun a hda hin => ?_⟩
    · obtain ⟨e, he⟩ := Option.isSome_iff_exists.mp hsome
      have hblames : t.firstError = _ := DagRunner.blames_finalState hsp ht
      rw [he] at hblames
      obtain ⟨⟨id, r⟩, hfirst, rfl⟩ := Option.map_eq_some_iff.mp hblames.symm
      obtain ⟨pre, post, hlog, hpre⟩ := exists_of_firstPanic hfirst
      have hmem : .complete id (.error r) ∈ t.log := by simp [hlog]
      obtain ⟨hready, hpanics⟩ := hfinal.inv.panic_of_mem hmem
      have hat : AtDepth s.dag.deps k id := by
        refine ⟨hready, fun hlow => ?_⟩
        obtain ⟨v, hv⟩ := hfinal.below id hlow
        exact hv.ok_ne_error hpanics
      refine ⟨id, r, pre, post, hlog, hpre, ((hs.own.atDepth_iff hs.small).mp hat).2, hpanics, ?_⟩
      exact RunState.result_eq_error.mpr he
    · have hready := (hs.own.ready_iff hs.small).mpr ⟨ha, Nat.lt_succ_of_le hda⟩
      exact ⟨List.count_eq_one_of_mem hfinal.inv.started_nodup ((hfinal.inv.mem_started a).mpr hready),
        List.count_eq_one_of_mem hfinal.inv.completed_nodup ((hfinal.inv.mem_completed a).mpr hready)⟩
    · have hready := (hs.own.ready_iff hs.small).mp ((hfinal.inv.mem_started a).mp hin)
      omega

/-- On the sample with a source that panics: the other source is run to completion, the sum is never started. -/
theorem run_panic_sample : ∃ (t : RunState Sample.Value) (id : NodeId) (p : Payload),
    (Sample.session Sample.boom).dag.finalState ⟨.stored _, .stored _⟩ .identity .reversed = some (.ok (.ok t)) ∧
      t.result = .error (.TaskPanicked id.val (panicMessage p)) ∧ (Sample.session Sample.boom).dag.depth id = 0 ∧
      (completed t.log).count (.ofLen 1) = 1 := by
  have hs := Sample.wellWired_session Sample.boom rfl rfl
  have hdepth : ∀ n : NodeId, (Sample.session Sample.boom).dag.deps n = some [] →
      n.index < 5 ∧ (Sample.session Sample.boom).dag.depth n = 0 := fun n hn =>
    (hs.own.atDepth_iff hs.small).mp (atDepth_zero_iff.mpr hn)
  have hboom : (Sample.session Sample.boom).dag.Evals (.ofLen 0) (.error (.str "boom")) :=
    Dataflow.evals_iff.mpr ⟨[], [], rfl, .nil, rfl⟩
  obtain ⟨t, ht, -, -, hpanic⟩ := WellWired.run_panic hs Spawner.identity_passesThrough ⟨.stored _, .stored _⟩ .reversed
  have hleast : IsLeast {k | ∃ n p, (Sample.session Sample.boom).dag.Evals n (.error p) ∧
      (Sample.session Sample.boom).dag.depth n = k} 0 := ⟨⟨_, _, hboom, (hdepth _ rfl).2⟩, fun k _ => Nat.zero_le k⟩
  obtain ⟨⟨id, p, -, -, -, -, hid, -, hresult⟩, hcounts, -⟩ := hpanic 0 hleast
  exact ⟨t, id, p, ht, hresult, hid, (hcounts (.ofLen 1) (by decide) (hdepth _ rfl).2.le).2⟩

example : (Sample.session Sample.boom).dag.run ⟨.stored _, .stored _⟩ .identity .reversed =
    some (.ok (.error (.TaskPanicked 0 "boom"))) := rfl

end Session

end Dagx
