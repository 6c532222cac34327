import Dagx.Confluence

/-!
# `run` and its interleavings have the same results

`DagRunner.run` lets the futures of a layer resolve one after another, in the order in which they are handled. It loses
no behaviour of the machine, in which they resolve at any time:

* `Stops.stopped`: the final state of `run` is that of a machine that stopped;
* `CompletionOrder.first`, `Inv.runLayers_first`: the order in which a given panic is handled first;
* `Wired.run_spec`: what `run` returns, in terms of the recursive evaluation;
* `Reachable.run_iff_stopped`: `run` returns what the machines that stop return;
* `Reachable.run_errors`: the errors that `run` can return.
-/

namespace Dagx

open Layering System Relation DagRunner

variable {Ty : Type} {Val : Ty → Type}

/-- Two results of `run` are the same but for the order of the entries of the output map. -/
def SameResult : DagResult (DagOutput Val) → DagResult (DagOutput Val) → Prop
  | .ok out, .ok out' => (∀ n, out.outputs.lookup n = out'.outputs.lookup n) ∧ out.strong = out'.strong
  | .error e, .error e' => e = e'
  | _, _ => False

theorem exists_of_error {log : List (Event Val)} {e : DagError} (h : log.findSome? Event.error = some e) :
    ∃ n, .consume n (.error e) ∈ log := by
  obtain ⟨ev, hmem, hev⟩ := List.exists_of_findSome?_eq_some h
  cases ev with
  | start id ds => cases hev
  | complete id o => cases hev
  | consume id r =>
    cases r with
    | ok a => cases hev
    | error e' =>
      cases hev
      exact ⟨id, hmem⟩

variable [Preorder Ty]

def CompletionOrder.first (n : NodeId) : CompletionOrder Val where
  order fs := fs.filter (fun f => f.id = n) ++ fs.filter (fun f => !(decide (f.id = n)))
  perm fs := List.filter_append_perm (fun f => decide (f.id = n)) fs

theorem CompletionOrder.order_first {n : NodeId} {fs : List (InFlight Val)} (hn : n ∈ fs.map InFlight.id) :
    ∃ f rest, f ∈ fs ∧ f.id = n ∧ (CompletionOrder.first n).order fs = f :: rest := by
  obtain ⟨f, hf, hid⟩ := List.mem_map.mp hn
  have hmem : f ∈ fs.filter (fun f => f.id = n) := List.mem_filter.mpr ⟨hf, by simpa using hid⟩
  obtain ⟨g, rest, hfilter⟩ := List.exists_cons_of_ne_nil (List.ne_nil_of_mem hmem)
  have hg : g ∈ fs.filter (fun f => f.id = n) := by rw [hfilter]; exact List.mem_cons_self
  obtain ⟨hgfs, hgid⟩ := List.mem_filter.mp hg
  refine ⟨g, rest ++ fs.filter (fun f => !(decide (f.id = n))), hgfs, by simpa using hgid, ?_⟩
  show fs.filter (fun f => f.id = n) ++ _ = _
  rw [hfilter]
  rfl

variable [DecidableEq Ty]

namespace RunState

theorem firstError_settle (sp : Spawner Val) (s : RunState Val) (f : InFlight Val) :
    (settle sp s f).firstError =
      s.firstError.or (match spawnedOutput sp f with | .ok _ => none | .error e => some e) := by
  rw [settle_eq, firstError_consume]
  rfl

theorem runLayer_of_length_ne_one {sp : Spawner Val} {co : CompletionOrder Val}
    {edges : PassThroughHashMap (List NodeId)} {s : RunState Val} {layer : List NodeId} (h : layer.length ≠ 1) :
    runLayer sp co edges s layer = s.runSpawned sp co edges layer := by
  unfold runLayer
  split
  · rename_i id
    exact absurd rfl h
  · rfl

theorem firstError_foldl_settle (sp : Spawner Val) (fs : List (InFlight Val)) {e : DagError} :
    ∀ {s : RunState Val}, s.firstError = some e → (fs.foldl (settle sp) s).firstError = some e := by
  induction fs with
  | nil => exact id
  | cons f fs ih =>
    intro s hs
    apply ih
    rw [firstError_settle, hs]
    rfl

end RunState

namespace Machine

variable {dag : DagRunner Val} {sp : Spawner Val} {k : Nat} {m : Machine Val}

/-! ## The final state of `run` -/

theorem Stops.stopped {s : RunState Val} (h : m.Stops dag sp k s) (hsp : sp.Honest) : m.Stopped ∧ s = m.state := by
  cases he : m.state.firstError with
  | none =>
    obtain ⟨hs, hrest⟩ := h.clean (h.honest hsp he)
    exact ⟨⟨h.idle, Or.inr hrest⟩, hs⟩
  | some e => exact ⟨⟨h.idle, Or.inl (by simp [he])⟩, h.error (by simp [he])⟩

/-! ## A given panic first -/

theorem Inv.runLayer_first (hw : dag.Wired) (hsp : sp.Honest) (h : m.Inv dag k) (hp : m.pending = m.layer)
    (hf : m.inFlight = []) (he : m.state.firstError = none) {n : NodeId} (hn : n ∈ m.layer)
    {e : DagError} (hhandled : Handled dag sp n (.error e)) {s : RunState Val}
    (hs : RunState.runLayer sp (.first n) dag.edges m.state m.layer = .ok s) : s.firstError = some e := by
  have hat := (h.mem_layer n).mp hn
  have hresult : ∀ f : InFlight Val, dag.Launched f → f.id = n → result sp m.layer f = .error e := fun f hlaunched hid =>
    Handled.unique ⟨f, m.layer, k, hlaunched, hid, hat, h.layer_nodup, h.mem_layer, rfl⟩ hhandled
  by_cases hone : m.layer.length = 1
  · obtain ⟨id, hlayer⟩ := List.length_eq_one_iff.mp hone
    obtain rfl : n = id := by
      rw [hlayer] at hn
      exact List.mem_singleton.mp hn
    obtain ⟨node, dependencies, s', hs', hlaunched, -, -, herr, -⟩ := h.start_spec hw (hp.trans hlayer)
    have hres := hresult _ hlaunched rfl
    rw [result, if_pos hone] at hres
    rw [hlayer, RunState.runLayer, RunState.runInline, hs'] at hs
    cases hs
    rw [RunState.firstError_consume, hres]
    show s'.firstError.or _ = _
    rw [herr, he]
    rfl
  · obtain ⟨fs, s', hs', hids, hsteps⟩ := h.spawnAll hw hsp.1 m.layer m hone hp
    have hinv := h.works hw hsp.1 hsteps
    have hflight : m.inFlight ++ fs = fs := by rw [hf, List.nil_append]
    have herr : s'.firstError = none := by
      refine hinv.no_error fun d hd => h.below d ?_
      -- nothing of the layer has been settled
      by_contra hnot
      have hlayer : d ∈ m.layer := (h.mem_layer d).mpr ⟨hd.1, hnot⟩
      exact hd.2 (mem_busy.mpr (Or.inr (Or.inl (by rw [hflight, hids]; exact hlayer))))
    have hnfs : n ∈ fs.map InFlight.id := by rw [hids]; exact hn
    obtain ⟨f, rest, hmem, hid, horder⟩ := CompletionOrder.order_first hnfs
    have hlaunched : dag.Launched f := (hinv.run.launched f (by rw [hflight]; exact hmem)).1
    have hres := hresult f hlaunched hid
    rw [result, if_neg hone] at hres
    have hbranch : RunState.runLayer sp (.first n) dag.edges m.state m.layer =
        m.state.runSpawned sp (.first n) dag.edges m.layer :=
      RunState.runLayer_of_length_ne_one hone
    rw [hbranch, RunState.runSpawned, hs'] at hs
    obtain rfl : ((CompletionOrder.first n).order fs).foldl (RunState.settle sp) s' = s := Except.ok.inj hs
    rw [horder, List.foldl_cons]
    apply RunState.firstError_foldl_settle
    rw [RunState.firstError_settle, herr, hres]
    rfl

/-- **The loop over the layers with the panic of `n`**, one of the shallowest, whose future resolves first: its error is
the one recorded. -/
theorem Inv.runLayers_first (hw : dag.Wired) (hsp : sp.Honest) {n : NodeId} {L : Nat} (hat : AtDepth dag.deps L n)
    (hbelow : ∀ d, Ready dag.deps L d → ∃ v, dag.Evals d (.ok v)) {e : DagError} (hhandled : Handled dag sp n (.error e))
    (rest : List (List NodeId)) : ∀ (k : Nat) (m : Machine Val), k ≤ L → m.Inv dag k → m.pending = m.layer →
    m.inFlight = [] → m.ready = [] → m.rest = rest → ∀ s,
    RunState.runLayers (RunState.runLayer sp (.first n) dag.edges) (m.layer :: rest) m.state = .ok s →
    s.firstError = some e := by
  induction rest with
  | nil =>
    intro k m hk h hp hf hr hrest s hs
    -- no layer is left, so this is the layer of `n`
    have hkL : k = L := by
      by_contra hne
      have hmem := (h.rest.mem_flatten n).mpr ⟨L, by omega, hat⟩
      simp [hrest] at hmem
    subst hkL
    obtain ⟨s₁, hs₁, -⟩ := h.runLayer hw hsp.1 (.first n) hp hf hr
    have hbusy : m.busy = m.layer := by rw [busy, hp, hf, hr]; simp
    have he := h.no_error (h.clean_of_busy hbusy)
    rw [RunState.runLayers, hs₁] at hs
    have hs : (if s₁.firstError.isSome then Except.ok s₁ else .ok s₁) = .ok s := hs
    rw [ite_self] at hs
    cases hs
    exact h.runLayer_first hw hsp hp hf he ((h.mem_layer n).mpr hat) hhandled hs₁
  | cons layer rest ih =>
    intro k m hk h hp hf hr hrest s hs
    obtain ⟨s₁, hs₁, hworks⟩ := h.runLayer hw hsp.1 (.first n) hp hf hr
    have hbusy : m.busy = m.layer := by rw [busy, hp, hf, hr]; simp
    have hinv := h.works hw hsp.1 hworks
    set m₁ : Machine Val := { m with state := s₁, pending := [], inFlight := [], ready := [] }
    rw [RunState.runLayers, hs₁] at hs
    have hs : (if s₁.firstError.isSome then Except.ok s₁
      else RunState.runLayers (RunState.runLayer sp (.first n) dag.edges) (layer :: rest) s₁) = .ok s := hs
    by_cases hkL : k = L
    · subst hkL
      have he := h.no_error (h.clean_of_busy hbusy)
      have herr := h.runLayer_first hw hsp hp hf he ((h.mem_layer n).mpr hat) hhandled hs₁
      rw [if_pos (by rw [herr]; rfl)] at hs
      cases hs
      exact herr
    · -- no task panics before the layer of `n`
      have hclean : m₁.Clean dag k := fun d hd => hbelow d (hd.1.mono (by omega))
      have he : s₁.firstError = none := hinv.no_error hclean
      rw [he] at hs
      exact ih (k + 1) _ (by omega) (hinv.next ⟨rfl, rfl, rfl⟩ hclean hrest) rfl rfl rfl rfl s hs

end Machine

namespace DagRunner.Wired

variable {dag : DagRunner Val} {sp : Spawner Val}

/-- **The final state of `run` is that of a machine that stopped.** -/
theorem final_stopped (hw : dag.Wired) (hsp : sp.Honest) (it : IterOrder) (co : CompletionOrder Val) :
    ∃ m : Machine Val, dag.finalState it sp co = some (.ok (.ok m.state)) ∧ m.Reachable dag it sp ∧ m.Stopped := by
  obtain ⟨s, m, k, hs, hreach, hstop⟩ := hw.finalState hsp.1 it co
  obtain ⟨hstopped, rfl⟩ := hstop.stopped hsp
  exact ⟨m, hs, hreach, hstopped⟩

/-- **What `run` returns**: the outputs of the recursive evaluation, each with one owner, or an error of a task that
panics in it. -/
theorem run_spec (hw : dag.Wired) (hsp : sp.Honest) (it : IterOrder) (co : CompletionOrder Val) :
    ∃ r, dag.run it sp co = some (.ok r) ∧
      (∀ out, r = .ok out → (∀ n p, ¬ dag.Evals n (.error p)) ∧
        (∀ n a, out.outputs.lookup n = some a ↔ a.origin = n ∧ dag.Evals n (.ok a.inner)) ∧
        ∀ n v, dag.Evals n (.ok v) → out.strong n = 1) ∧
      ∀ e, r = .error e → ∃ n p, dag.Evals n (.error p) := by
  obtain ⟨s, k, hs, hfinal, -⟩ := hw.final hsp it co
  refine ⟨s.result, run_eq hs, fun out hout => ?_, fun e he => ?_⟩
  · obtain ⟨he, rfl⟩ := RunState.result_eq_ok.mp hout
    refine ⟨fun n p hp => ?_, fun n a => ⟨fun ha => ?_, fun ⟨ho, hev⟩ => ?_⟩, fun n v hv => ?_⟩
    · have hsome := (hfinal.panic hp).1
      rw [he] at hsome
      cases hsome
    · have hready : Ready dag.deps (k + 1) n := by
        by_contra hn
        have hnone : s.outputs.lookup n = none := hfinal.inv.stored_only n hn
        rw [hnone] at ha
        cases ha
      obtain ⟨-, v, hv⟩ := hfinal.ok_of_no_error he hready
      rw [hfinal.lookup he hv] at ha
      cases ha
      exact ⟨rfl, hv⟩
    · obtain rfl := ho
      exact hfinal.lookup he hev
    · obtain ⟨j, hj⟩ := Dataflow.Evals.ready hv
      show s.strong n = 1
      rw [hfinal.inv.strong n, if_pos ⟨(hfinal.ok_of_no_error he hj).1, v, hv⟩, clones_nil]
  · have he := RunState.result_eq_error.mp he
    rcases hfinal.outcome with ⟨hnone, -⟩ | ⟨-, n, p, -, hp⟩
    · rw [hnone] at he
      cases he
    · exact ⟨n, p, hp⟩

theorem run_first (hw : dag.Wired) (hsp : sp.Honest) (it : IterOrder) {n : NodeId} {L : Nat}
    (hat : AtDepth dag.deps L n) (hbelow : ∀ d, Ready dag.deps L d → ∃ v, dag.Evals d (.ok v)) {e : DagError}
    (hhandled : Machine.Handled dag sp n (.error e)) : dag.run it sp (.first n) = some (.ok (.error e)) := by
  obtain ⟨layers, hrun, hlayers⟩ := hw.computeLayers it
  obtain ⟨m, hm, -, -⟩ := hw.final_stopped hsp it (.first n)
  have hfinal : dag.finalState it sp (.first n) =
      some ((RunState.runLayers (RunState.runLayer sp (.first n) dag.edges) layers dag.initState).map .ok) := by
    rw [DagRunner.finalState, finalStateWith, hrun]
  have hstate : RunState.runLayers (RunState.runLayer sp (.first n) dag.edges) layers dag.initState = .ok m.state := by
    rw [hfinal] at hm
    cases hs : RunState.runLayers (RunState.runLayer sp (.first n) dag.edges) layers dag.initState with
    | error payload =>
      rw [hs] at hm
      cases hm
    | ok s =>
      rw [hs] at hm
      cases hm
      rfl
  have hinv := Machine.inv_init hlayers
  have herr : m.state.firstError = some e := by
    cases layers with
    | nil =>
      have hmem := (hlayers.mem_flatten n).mpr ⟨L, Nat.zero_le L, hat⟩
      simp at hmem
    | cons layer rest =>
      exact Machine.Inv.runLayers_first hw hsp hat hbelow hhandled rest 0 _ (Nat.zero_le L) hinv rfl rfl rfl rfl _ hstate
  rw [run_eq hm]
  exact congrArg (fun r => some (Except.ok r)) (RunState.result_eq_error.mpr herr)

end DagRunner.Wired

namespace Machine

variable {dag : DagRunner Val} {sp : Spawner Val} {m : Machine Val}

theorem Reachable.error_spec (hw : dag.Wired) (hsp : sp.Honest) {it : IterOrder} (hm : m.Reachable dag it sp)
    (hstop : m.Stopped) {e : DagError} (he : m.state.firstError = some e) :
    ∃ n L p, AtDepth dag.deps L n ∧ dag.Evals n (.error p) ∧ (∀ d, Ready dag.deps L d → ∃ v, dag.Evals d (.ok v)) ∧
      Handled dag sp n (.error e) := by
  obtain ⟨k, hfinal⟩ := hm.final hw hsp hstop
  obtain ⟨_, _, hlayers, hreach, htracks⟩ := hm.abs hw
  have hblamed := htracks.blamed
  rw [he] at hblamed
  obtain ⟨n, hmem⟩ := exists_of_error hblamed.symm
  have hhandled := hm.handled hw hsp n _ hmem
  obtain ⟨p, hp⟩ := hhandled.panics hsp.1
  obtain ⟨L, hat⟩ : ∃ L, AtDepth dag.deps L n := by
    obtain ⟨_, _, L, _, _, hat, -⟩ := hhandled
    exact ⟨L, hat⟩
  -- what is handled was started, so it is in the last layer at the latest
  have hstarted : n ∈ started m.state.log := by
    obtain ⟨j, hinv⟩ := hreach.inv hlayers
    obtain ⟨hready, hbusy⟩ := (hinv.handle_mem n).mp ⟨_, mark_handle_mem.mpr ⟨_, hmem, rfl⟩⟩
    exact mark_start_mem.mp ((hinv.start_mem n).mpr ⟨hready, fun hn => hbusy (Rounds.mem_busy.mpr (Or.inl hn))⟩)
  have hlt := hat.lt_of_ready ((hfinal.inv.mem_started n).mp hstarted)
  exact ⟨n, L, p, hat, hp, fun d hd => hfinal.below d (hd.mono (by omega)), hhandled⟩

theorem Handled.of_panic (hsp : sp.PassesThrough) {n : NodeId} {r : DagResult (Arc Val)} (h : Handled dag sp n r)
    {p : Payload} (hp : dag.Evals n (.error p)) : r = .error (.TaskPanicked n.val (panicMessage p)) := by
  obtain ⟨f, layer, j, hf, rfl, -, -, -, rfl⟩ := h
  have hout : f.outcome = .error p := hf.outcome hp
  have hsame : result sp layer f = inlineResult f := by
    unfold result
    rw [RunState.spawnedOutput_eq hsp, ite_self]
  rw [hsame, inlineResult, hout]

theorem Reachable.consumed_of_started (hw : dag.Wired) {it : IterOrder} (hm : m.Reachable dag it sp) (hstop : m.Stopped)
    {n : NodeId} (hn : n ∈ started m.state.log) : ∃ r : DagResult (Arc Val), .consume n r ∈ m.state.log := by
  obtain ⟨_, _, hlayers, hreach, -⟩ := hm.abs hw
  obtain ⟨k, hinv⟩ := hreach.inv hlayers
  obtain ⟨hp, hf, hq⟩ := (abs_stopped.mpr hstop).1
  have hready := ((hinv.start_mem n).mp (mark_start_mem.mpr hn)).1
  obtain ⟨good, hgood⟩ := (hinv.handle_mem n).mpr ⟨hready, by rw [Rounds.mem_busy, hp, hf, hq]; simp⟩
  obtain ⟨r, hr, -⟩ := mark_handle_mem.mp hgood
  exact ⟨r, hr⟩

end Machine

namespace Session

variable {foreign : TaskHandle Ty → Prop} {s : Session Val}

/-- **`run` returns what the machines that stop return**, for every build history, iteration order and spawner that
passes results through and makes no output of a panic: each result of `run` is that of a machine that stopped, and each
machine that stopped, whatever its interleaving, has the result of `run` with some order of completions, up to the order
of the entries of the output map. -/
theorem Reachable.run_iff_stopped (hs : s.Reachable foreign) {sp : Spawner Val} (hsp : sp.Honest) (it : IterOrder) :
    (∀ co, ∃ m : Machine Val, m.Reachable s.dag it sp ∧ m.Stopped ∧ s.dag.run it sp co = some (.ok m.state.result)) ∧
      ∀ m : Machine Val, m.Reachable s.dag it sp → m.Stopped →
        ∃ co r, s.dag.run it sp co = some (.ok r) ∧ SameResult r m.state.result := by
  have hw := Reachable.wired hs
  refine ⟨fun co => ?_, fun m hm hstop => ?_⟩
  · obtain ⟨m, hrun, hm, hstop⟩ := hw.final_stopped hsp it co
    exact ⟨m, hm, hstop, run_eq hrun⟩
  · cases he : m.state.firstError with
    | some e =>
      obtain ⟨n, L, p, hat, -, hbelow, hhandled⟩ := hm.error_spec hw hsp hstop he
      refine ⟨.first n, .error e, hw.run_first hsp it hat hbelow hhandled, ?_⟩
      rw [RunState.result_eq_error.mpr he]
      rfl
    | none =>
      obtain ⟨m', hrun, hm', hstop'⟩ := hw.final_stopped hsp it .reversed
      obtain ⟨k, hfinal⟩ := hm.final hw hsp hstop
      obtain ⟨k', hfinal'⟩ := hm'.final hw hsp hstop'
      have he' : m'.state.firstError = none := by
        rw [← Option.not_isSome_iff_eq_none, ← hfinal.error_iff hfinal', he]
        simp
      refine ⟨.reversed, m'.state.result, run_eq hrun, ?_⟩
      rw [RunState.result_eq_ok.mpr ⟨he, rfl⟩, RunState.result_eq_ok.mpr ⟨he', rfl⟩]
      exact ⟨fun n => hm'.lookup_congr hw hsp hsp hm hfinal' hfinal n, hfinal'.strong_eq hfinal⟩

theorem run_iff_stopped_sample : ∃ (m : Machine Sample.Value) (co : CompletionOrder Sample.Value)
    (r : DagResult (DagOutput Sample.Value)), m.Stopped ∧
      (Sample.session Sample.boom).dag.run IterOrder.backwards .identity co = some (.ok r) ∧
      SameResult r m.state.result := by
  have hs := Sample.wellWired_session Sample.boom rfl rfl
  have hsp : (Spawner.identity : Spawner Sample.Value).Honest := Spawner.identity_passesThrough.honest
  obtain ⟨m, hm, hstop⟩ := Sample.exists_stopped Sample.boom rfl rfl IterOrder.backwards .identity
  obtain ⟨-, hall⟩ := Reachable.run_iff_stopped hs.own hsp IterOrder.backwards
  obtain ⟨co, r, hrun, hsame⟩ := hall m hm hstop
  exact ⟨m, co, r, hstop, hrun, hsame⟩

/-- **The errors of `run`**, for every build history and iteration order, with a spawner that passes outcomes through:
`run` can return an error, in some order of completions, if and only if it is the `TaskPanicked` with the id and message
of a task that panics at the least depth at which a task panics. -/
theorem Reachable.run_errors (hs : s.Reachable foreign) {sp : Spawner Val} (hsp : sp.PassesThrough) (it : IterOrder)
    (e : DagError) :
    (∃ co, s.dag.run it sp co = some (.ok (.error e))) ↔
      ∃ n p L, IsLeast {k | ∃ d q, AtDepth s.dag.deps k d ∧ s.dag.Evals d (.error q)} L ∧ AtDepth s.dag.deps L n ∧
        s.dag.Evals n (.error p) ∧ e = .TaskPanicked n.val (panicMessage p) := by
  have hw := Reachable.wired hs
  constructor
  · rintro ⟨co, hrun⟩
    obtain ⟨m, hfinal, hm, hstop⟩ := hw.final_stopped hsp.honest it co
    rw [run_eq hfinal] at hrun
    have he : m.state.firstError = some e := RunState.result_eq_error.mp (Except.ok.inj (Option.some.inj hrun))
    obtain ⟨n, L, p, hat, hp, hbelow, hhandled⟩ := hm.error_spec hw hsp.honest hstop he
    refine ⟨n, p, L, ⟨⟨n, p, hat, hp⟩, ?_⟩, hat, hp, Except.error.inj (hhandled.of_panic hsp hp)⟩
    rintro j ⟨d, q, hd, hq⟩
    by_contra hlt
    obtain ⟨v, hv⟩ := hbelow d (hd.ready (by omega))
    exact hv.ok_ne_error hq
  · rintro ⟨n, p, L, hleast, hat, hp, rfl⟩
    have hbelow : ∀ d, Ready s.dag.deps L d → ∃ v, s.dag.Evals d (.ok v) := by
      refine fun d hd => Dataflow.ok_of_ready (D := s.dag.dataflow) (fun a q ha hq => ?_) hd
      obtain ⟨j, hj, haj⟩ := ready_iff_atDepth.mp ha
      have := hleast.2 ⟨a, q, haj, hq⟩
      omega
    -- any run that stopped has handled the panic of `n`
    obtain ⟨m, -, hm, hstop⟩ := hw.final_stopped hsp.honest it (.first n)
    obtain ⟨k, hfinal⟩ := hm.final hw hsp.honest hstop
    obtain ⟨-, d, q, hd, hq⟩ := hfinal.panic hp
    have hle : L ≤ k := hleast.2 ⟨d, q, hd, hq⟩
    have hstarted := (hfinal.inv.mem_started n).mpr (hat.1.mono (by omega))
    obtain ⟨r, hr⟩ := hm.consumed_of_started hw hstop hstarted
    have hhandled := hm.handled hw hsp.honest n r hr
    rw [hhandled.of_panic hsp hp] at hhandled
    exact ⟨.first n, hw.run_first hsp.honest it hat hbelow hhandled⟩

theorem run_errors_sample : ∃ co,
    (Sample.session Sample.boom).dag.run ⟨.stored _, .stored _⟩ .identity co =
      some (.ok (.error (.TaskPanicked 0 "boom"))) := by
  have hs := Sample.wellWired_session Sample.boom rfl rfl
  have hboom : (Sample.session Sample.boom).dag.Evals (.ofLen 0) (.error (.str "boom")) :=
    Dataflow.evals_iff.mpr ⟨[], [], rfl, .nil, rfl⟩
  have hat : AtDepth (Sample.session Sample.boom).dag.deps 0 (.ofLen 0) := atDepth_zero_iff.mpr rfl
  exact (Reachable.run_errors hs.own Spawner.identity_passesThrough ⟨.stored _, .stored _⟩ _).mpr
    ⟨.ofLen 0, .str "boom", 0, ⟨⟨_, _, hat, hboom⟩, fun k _ => Nat.zero_le k⟩, hat, hboom, rfl⟩

end Session

end Dagx
