import Dagx.Abstraction

/-!
# All interleavings agree

With spawners that pass results through and make no output of a panic:

* `Machine.Handled`: the result `run` handles for a task, which the interleaving does not determine (`Handled.unique`);
* `Reachable.final`: what a machine that stopped has done;
* `Reachable.run_confluent`: any two machines that stopped have run the same tasks on the same inputs and hold the same
  outputs, whatever their interleavings, iteration orders and spawners;
* `Reachable.strong_exact`: the reference counts in every reachable state.
-/

namespace Dagx

open Layering System DagRunner

variable {Ty : Type} [DecidableEq Ty] [Preorder Ty] {Val : Ty → Type}

namespace Machine

variable {dag : DagRunner Val} {sp : Spawner Val} {k : Nat} {m m' : Machine Val}

/-! ## The results handled -/

/-- `r` is what `run` makes of the future of `n` in the layer of `n`. -/
def Handled (dag : DagRunner Val) (sp : Spawner Val) (n : NodeId) (r : DagResult (Arc Val)) : Prop :=
  ∃ f layer j, dag.Launched f ∧ f.id = n ∧ AtDepth dag.deps j n ∧ layer.Nodup ∧
    (∀ d, d ∈ layer ↔ AtDepth dag.deps j d) ∧ r = result sp layer f

theorem Handled.unique {n : NodeId} {r r' : DagResult (Arc Val)} (h : Handled dag sp n r) (h' : Handled dag sp n r') :
    r = r' := by
  obtain ⟨f, layer, j, hf, hid, hat, hnodup, hmem, rfl⟩ := h
  obtain ⟨f', layer', j', hf', hid', hat', hnodup', hmem', rfl⟩ := h'
  obtain rfl := hat.unique hat'
  have hlen : layer.length = layer'.length := by
    have hperm := (List.perm_ext_iff_of_nodup hnodup hnodup').mpr fun d => (hmem d).trans (hmem' d).symm
    exact hperm.length_eq
  have hids : f'.id = f.id := hid'.trans hid.symm
  have hout : f'.outcome = f.outcome := by
    have hev := hf.evals
    rw [hf.outcome hev, ← hids]
    exact hf'.outcome (by rw [hids]; exact hev)
  unfold result spawnedOutput spawnedResult inlineResult
  rw [hlen, hids, hout]

theorem Handled.of_ok (hsp : sp.PassesResults) {n : NodeId} {r : DagResult (Arc Val)} (h : Handled dag sp n r)
    {v : AnyVal Val} (hv : dag.Evals n (.ok v)) : r = .ok ⟨n, v⟩ := by
  obtain ⟨f, layer, j, hf, rfl, -, -, -, rfl⟩ := h
  exact result_of_ok hsp hf hv layer

theorem Handled.of_error (hsp : sp.Honest) {n : NodeId} {r : DagResult (Arc Val)} (h : Handled dag sp n r)
    {p : Payload} (hp : dag.Evals n (.error p)) : ∃ e, r = .error e := by
  obtain ⟨f, layer, j, hf, rfl, -, -, -, rfl⟩ := h
  exact result_of_error hsp hf hp layer

theorem Handled.panics (hsp : sp.PassesResults) {n : NodeId} {e : DagError} (h : Handled dag sp n (.error e)) :
    ∃ p, dag.Evals n (.error p) := by
  obtain ⟨f, -, -, hf, rfl, -⟩ := id h
  cases hr : f.node.call (f.dependencies.map Arc.inner) with
  | ok v => cases h.of_ok hsp (hr ▸ hf.evals)
  | error p => exact ⟨p, hr ▸ hf.evals⟩

theorem Inv.handled (h : m.Inv dag k) (sp : Spawner Val) {f : InFlight Val} (hf : f ∈ m.ready) :
    Handled dag sp f.id (result sp m.layer f) := by
  have hat := h.atDepth_of_busy (mem_busy.mpr (Or.inr (Or.inr (List.mem_map_of_mem hf))))
  exact ⟨f, m.layer, k, h.ready_launched f hf, rfl, hat, h.layer_nodup, h.mem_layer, rfl⟩

theorem consume_mem_work {edges : PassThroughHashMap (List NodeId)} (hs : Work edges sp m m') {n : NodeId}
    {r : DagResult (Arc Val)} (hm : .consume n r ∈ m'.state.log) :
    .consume n r ∈ m.state.log ∨ ∃ f ∈ m.ready, n = f.id ∧ r = result sp m.layer f := by
  cases hs with
  | start id pending f s hp hs =>
    refine Or.inl ?_
    have hm : .consume n r ∈ (handOver m.layer id s).log := hm
    rw [log_handOver] at hm
    rcases RunState.start_cases hs with ⟨hnone, -⟩ | ⟨node, dependencies, -, rfl⟩
    · cases hnone
    · simpa using hm
  | skip id pending s hp hs =>
    refine Or.inl ?_
    rcases RunState.start_cases hs with ⟨-, rfl⟩ | ⟨node, dependencies, hsome, -⟩
    · exact hm
    · cases hsome
  | complete l r' f hf =>
    have hm : .consume n r ∈ m.state.log ++ [Event.complete f.id f.outcome] := hm
    exact Or.inl (by simpa using hm)
  | consume l r' f hp hf =>
    have hm : .consume n r ∈ (m.state.consume f.id (result sp m.layer f)).log := hm
    rw [RunState.log_consume, List.mem_append, List.mem_singleton] at hm
    rcases hm with hm | hm
    · exact Or.inl hm
    · cases hm
      exact Or.inr ⟨f, by simp [hf], rfl, rfl⟩

/-- **Every result handled is that of the task**, whatever the interleaving. -/
theorem Reachable.handled (hw : dag.Wired) (hsp : sp.Honest) {it : IterOrder} (h : m.Reachable dag it sp) :
    ∀ n r, .consume n r ∈ m.state.log → Handled dag sp n r := by
  have hboth : (∃ k, m.Inv dag k ∧ (m.state.firstError = none → m.Clean dag k)) ∧
      ∀ n r, .consume n r ∈ m.state.log → Handled dag sp n r := by
    refine System.Reachable.invariant
      (I := fun m => (∃ k, m.Inv dag k ∧ (m.state.firstError = none → m.Clean dag k)) ∧
        ∀ n r, .consume n r ∈ m.state.log → Handled dag sp n r) ?_ ?_ h
    · rintro m ⟨layers, hrun, rfl⟩
      refine ⟨Reachable.inv hw hsp (.of_init ⟨layers, hrun, rfl⟩), fun n r hm => ?_⟩
      have hlog : (init dag layers).state.log = [] := by cases layers <;> rfl
      rw [hlog] at hm
      cases hm
    · rintro m m' ⟨hinv, hall⟩ hs
      refine ⟨Inv.step hw hsp hs hinv, fun n r hm => ?_⟩
      obtain ⟨k, hinv, -⟩ := hinv
      cases hs with
      | next layer rest hidle he hr => exact hall n r hm
      | work m' hwork =>
        rcases consume_mem_work hwork hm with hm | ⟨f, hf, rfl, rfl⟩
        · exact hall n r hm
        · exact hinv.handled sp hf
  exact hboth.2

/-! ## Machines that stopped -/

/-- **What a machine that stopped has done.** -/
theorem Reachable.final (hw : dag.Wired) (hsp : sp.Honest) {it : IterOrder} (h : m.Reachable dag it sp)
    (hstop : m.Stopped) : ∃ k, m.state.Final dag k := by
  obtain ⟨k, hinv, herror⟩ := h.inv hw hsp
  obtain ⟨hidle, hend⟩ := hstop
  refine ⟨k, hinv.run_of_idle hidle, hinv.below, ?_⟩
  by_cases hclean : m.Clean dag k
  · have he := hinv.no_error hclean
    have hrest := hinv.rest
    rw [hend.resolve_left (by simp [he])] at hrest
    refine Or.inl ⟨he, fun n j hn => ?_⟩
    have hready : Ready dag.deps (k + 1) n := hrest.ready hn
    exact ⟨hready, hclean n ⟨hready, by rw [hidle.busy]; exact List.not_mem_nil⟩⟩
  · refine Or.inr ⟨?_, hinv.exists_panic hidle hclean⟩
    rw [Option.isSome_iff_ne_none]
    exact fun he => hclean (herror he)

end Machine

namespace RunState.Final

variable {dag : DagRunner Val} {k k' : Nat} {s s' : RunState Val}

theorem error_iff (h : s.Final dag k) (h' : s'.Final dag k') : s.firstError.isSome ↔ s'.firstError.isSome := by
  have himp : ∀ {t t' : RunState Val} {j j' : Nat}, t.Final dag j → t'.Final dag j' → t.firstError.isSome →
      t'.firstError.isSome := by
    intro t t' j j' ht ht' hsome
    rcases ht.outcome with ⟨hnone, -⟩ | ⟨-, n, p, -, hp⟩
    · rw [hnone] at hsome
      cases hsome
    · exact (ht'.panic hp).1
  exact ⟨himp h h', himp h' h⟩

theorem ready_of (h : s.Final dag k) (h' : s'.Final dag k') {n : NodeId} (hn : Ready dag.deps (k + 1) n) :
    Ready dag.deps (k' + 1) n := by
  rcases h'.outcome with ⟨-, hall⟩ | ⟨-, d, p, hat, hp⟩
  · exact (hall n _ hn).1
  · -- the panic of the second run is not below the last layer of the first
    have hle : k ≤ k' := by
      by_contra hlt
      obtain ⟨v, hv⟩ := h.below d (hat.1.mono (by omega))
      exact hv.ok_ne_error hp
    exact hn.mono (by omega)

theorem ready_iff (h : s.Final dag k) (h' : s'.Final dag k') (n : NodeId) :
    Ready dag.deps (k + 1) n ↔ Ready dag.deps (k' + 1) n :=
  ⟨h.ready_of h', h'.ready_of h⟩

theorem start_mem_of (h : s.Final dag k) (h' : s'.Final dag k') {n : NodeId} {arcs : List (Arc Val)}
    (hm : .start n arcs ∈ s.log) : .start n arcs ∈ s'.log := by
  have hready := (h.inv.mem_started n).mp (mem_started_iff.mpr ⟨arcs, hm⟩)
  obtain ⟨arcs', hm'⟩ := mem_started_iff.mp ((h'.inv.mem_started n).mpr (h.ready_of h' hready))
  obtain ⟨ds, hds, hall⟩ := h.inv.start_fed n arcs hm
  obtain ⟨ds', hds', hall'⟩ := h'.inv.start_fed n arcs' hm'
  rw [hds] at hds'
  cases hds'
  -- one output for each dependency
  have harcs : arcs = arcs' := by
    refine Dataflow.forall₂_unique hall hall' fun d a b hz hb => ?_
    obtain ⟨ho, ha⟩ := (List.forall₂_iff_zip.mp hall).2 hz
    have hinner : a.inner = b.inner := Except.ok.inj (ha.unique hb.2)
    cases a
    cases b
    obtain rfl := ho
    simp_all
  rw [harcs]
  exact hm'

theorem complete_mem_of (h : s.Final dag k) (h' : s'.Final dag k') {n : NodeId} {o : Outcome (DagResult (Arc Val))}
    (hm : .complete n o ∈ s.log) : .complete n o ∈ s'.log := by
  have hready := (h.inv.mem_completed n).mp (mem_completed_iff.mpr ⟨o, hm⟩)
  obtain ⟨r, hr, rfl⟩ := h.inv.complete_evals n o hm
  exact h'.inv.complete_mem (h.ready_of h' hready) hr

theorem strong_eq (h : s.Final dag k) (h' : s'.Final dag k') : s.strong = s'.strong := by
  funext n
  rw [h.inv.strong n, h'.inv.strong n, clones_nil]
  classical
  refine congrArg (· + 0) (if_congr ?_ rfl rfl)
  rw [Set.mem_ofPred_eq, Set.mem_ofPred_eq, h.ready_iff h' n]

end RunState.Final

namespace Machine

variable {dag : DagRunner Val} {sp : Spawner Val} {m : Machine Val}

theorem Reachable.lookup_iff (hw : dag.Wired) (hsp : sp.Honest) {it : IterOrder} (hm : m.Reachable dag it sp)
    {S C D : Set NodeId} {fs : List (InFlight Val)} (hinv : m.state.Inv dag S C D fs) (n : NodeId) (a : Arc Val) :
    m.state.outputs.lookup n = some a ↔ n ∈ D ∧ a.origin = n ∧ dag.Evals n (.ok a.inner) := by
  constructor
  · intro ha
    have hn : n ∈ D := by
      by_contra hn
      rw [hinv.stored_only n hn] at ha
      cases ha
    obtain ⟨_, _, _, _, htracks⟩ := hm.abs hw
    have hhandled := hm.handled hw hsp n _ ((htracks.stored n a).mp ha)
    obtain ⟨o, ho⟩ := mem_completed_iff.mp ((hinv.mem_completed n).mpr (hinv.settled_sub hn))
    obtain ⟨r, hr, -⟩ := hinv.complete_evals n o ho
    cases r with
    | ok v =>
      cases hhandled.of_ok hsp.1 hr
      exact ⟨hn, rfl, hr⟩
    | error p =>
      obtain ⟨e, he⟩ := hhandled.of_error hsp hr
      cases he
  · rintro ⟨hn, rfl, hev⟩
    exact hinv.stored a.origin hn a.inner hev

theorem Reachable.lookup_congr (hw : dag.Wired) {sp' : Spawner Val} (hsp : sp.Honest) (hsp' : sp'.Honest)
    {it it' : IterOrder} (hm : m.Reachable dag it sp) {m' : Machine Val} (hm' : m'.Reachable dag it' sp') {k k' : Nat}
    (hfinal : m.state.Final dag k) (hfinal' : m'.state.Final dag k') (n : NodeId) :
    m.state.outputs.lookup n = m'.state.outputs.lookup n := by
  apply Option.ext
  intro a
  rw [hm.lookup_iff hw hsp hfinal.inv, hm'.lookup_iff hw hsp' hfinal'.inv, Set.mem_ofPred_eq, Set.mem_ofPred_eq,
    hfinal.ready_iff hfinal' n]

/-! ## Reference counts -/

theorem Inv.held {k : Nat} (h : m.Inv dag k) {f : InFlight Val} (hf : f ∈ m.inFlight) {a : Arc Val}
    (ha : a ∈ f.dependencies) : a.origin ∈ m.Settled dag k ∧ dag.Evals a.origin (.ok a.inner) := by
  obtain ⟨ds, hds, hall⟩ := (h.run.launched f hf).1.fed
  have hmem : a.origin ∈ ds := RunState.Inv.origin_mem_of_forall₂ hall ha
  obtain ⟨i, hi, rfl⟩ := List.getElem_of_mem ha
  have hlen := hall.length_eq
  have hev := (List.forall₂_iff_get.mp hall).2 i (by omega) hi
  have hat := h.atDepth_of_busy (mem_busy.mpr (Or.inr (Or.inl (List.mem_map_of_mem hf))))
  refine ⟨h.settled_of_ready (hat.1.deps_ready hds _ hmem), ?_⟩
  have hget : (f.dependencies.get ⟨i, hi⟩).origin = _ := hev.1
  have hinner := hev.2
  rw [← hget] at hinner
  exact hinner

theorem Inv.strong_of_ok {k : Nat} (h : m.Inv dag k) {n : NodeId} (hn : n ∈ m.Completed dag k) {v : AnyVal Val}
    (hv : dag.Evals n (.ok v)) : m.state.strong n = 1 + clones m.inFlight n := by
  rw [h.run.strong n, if_pos ⟨hn, v, hv⟩]

theorem Inv.complete_ok_iff {k : Nat} (h : m.Inv dag k) (n : NodeId) (a : Arc Val) :
    .complete n (.ok (.ok a)) ∈ m.state.log ↔ n ∈ m.Completed dag k ∧ a.origin = n ∧ dag.Evals n (.ok a.inner) := by
  constructor
  · intro hm
    obtain ⟨r, hr, hout⟩ := h.run.complete_evals n _ hm
    cases r with
    | error p => cases hout
    | ok v =>
      cases hout
      exact ⟨(h.run.mem_completed n).mp (mem_completed_iff.mpr ⟨_, hm⟩), rfl, hr⟩
  · rintro ⟨hn, rfl, hev⟩
    exact h.run.complete_mem hn hev

end Machine

def IterOrder.backwards : IterOrder :=
  ⟨⟨fun map => map.entries.reverse, fun map => map.entries.reverse_perm⟩,
    ⟨fun map => map.entries.reverse, fun map => map.entries.reverse_perm⟩⟩

namespace Session

variable {foreign : TaskHandle Ty → Prop} {s : Session Val}

/-- **All interleavings agree**, for every build history: two runs of a graph that have stopped, with any interleavings,
iteration orders and spawners that pass results through and make no output of a panic, have started the same tasks with
the same inputs, each as often; these completed with the same outcomes; the same outputs are stored, with the same
reference counts; and both have recorded an error or neither has. -/
theorem Reachable.run_confluent (hs : s.Reachable foreign) {sp sp' : Spawner Val} (hsp : sp.Honest) (hsp' : sp'.Honest)
    {it it' : IterOrder} {m m' : Machine Val} (hm : m.Reachable s.dag it sp) (hm' : m'.Reachable s.dag it' sp')
    (hstop : m.Stopped) (hstop' : m'.Stopped) :
    (∀ n arcs, .start n arcs ∈ m.state.log ↔ .start n arcs ∈ m'.state.log) ∧
      (started m.state.log).Perm (started m'.state.log) ∧
      (∀ n o, .complete n o ∈ m.state.log ↔ .complete n o ∈ m'.state.log) ∧
      (completed m.state.log).Perm (completed m'.state.log) ∧
      (∀ n, m.state.outputs.lookup n = m'.state.outputs.lookup n) ∧ m.state.strong = m'.state.strong ∧
      (m.state.firstError.isSome ↔ m'.state.firstError.isSome) := by
  have hw := Reachable.wired hs
  obtain ⟨k, hfinal⟩ := hm.final hw hsp hstop
  obtain ⟨k', hfinal'⟩ := hm'.final hw hsp' hstop'
  refine ⟨fun n arcs => ⟨hfinal.start_mem_of hfinal', hfinal'.start_mem_of hfinal⟩, ?_,
    fun n o => ⟨hfinal.complete_mem_of hfinal', hfinal'.complete_mem_of hfinal⟩, ?_,
    hm.lookup_congr hw hsp hsp' hm' hfinal hfinal', hfinal.strong_eq hfinal', hfinal.error_iff hfinal'⟩
  · refine (List.perm_ext_iff_of_nodup hfinal.inv.started_nodup hfinal'.inv.started_nodup).mpr fun n => ?_
    rw [hfinal.inv.mem_started, hfinal'.inv.mem_started]
    exact hfinal.ready_iff hfinal' n
  · refine (List.perm_ext_iff_of_nodup hfinal.inv.completed_nodup hfinal'.inv.completed_nodup).mpr fun n => ?_
    rw [hfinal.inv.mem_completed, hfinal'.inv.mem_completed]
    exact hfinal.ready_iff hfinal' n

theorem run_confluent_sample : ∃ m m' : Machine Sample.Value,
    m.Reachable (Sample.session Sample.boom).dag ⟨.stored _, .stored _⟩ .identity ∧ m.Stopped ∧ m'.Stopped ∧
      (started m.state.log).Perm (started m'.state.log) := by
  have hs := Sample.wellWired_session Sample.boom rfl rfl
  have hsp : (Spawner.identity : Spawner Sample.Value).Honest := Spawner.identity_passesThrough.honest
  obtain ⟨m, hm, hstop⟩ := Sample.exists_stopped Sample.boom rfl rfl ⟨.stored _, .stored _⟩ .identity
  obtain ⟨m', hm', hstop'⟩ := Sample.exists_stopped Sample.boom rfl rfl IterOrder.backwards .identity
  obtain ⟨-, hstarted, -⟩ := Reachable.run_confluent hs.own hsp hsp hm hm' hstop hstop'
  exact ⟨m, m', hm, hstop, hstop', hstarted⟩

/-- **Reference counts are exact in every reachable state**: the output of a task that completed is owned once by the
result or the store and once by every input of a future in flight it was cloned for; what has not completed has no owner.
So an output in the store is never freed, and one that a future in flight holds is also in the store. -/
theorem Reachable.strong_exact (hs : s.Reachable foreign) {sp : Spawner Val} (hsp : sp.Honest) {it : IterOrder}
    {m : Machine Val} (hm : m.Reachable s.dag it sp) (n : NodeId) :
    (∀ a, .complete n (.ok (.ok a)) ∈ m.state.log → a.origin = n ∧ m.state.strong n = 1 + clones m.inFlight n) ∧
      ((∀ a, .complete n (.ok (.ok a)) ∉ m.state.log) → m.state.strong n = 0 ∧ clones m.inFlight n = 0) ∧
      (∀ a, m.state.outputs.lookup n = some a → a.origin = n ∧ m.state.strong n = 1 + clones m.inFlight n) ∧
      ∀ f ∈ m.inFlight, ∀ a ∈ f.dependencies,
        m.state.outputs.lookup a.origin = some a ∧ 2 ≤ m.state.strong a.origin := by
  have hw := Reachable.wired hs
  obtain ⟨k, hinv, -⟩ := hm.inv hw hsp
  refine ⟨fun a ha => ?_, fun hnone => ?_, fun a ha => ?_, fun f hf a ha => ?_⟩
  · obtain ⟨hn, ho, hev⟩ := (hinv.complete_ok_iff n a).mp ha
    exact ⟨ho, hinv.strong_of_ok hn hev⟩
  · have hno : ∀ v, n ∈ m.Completed s.dag k → ¬ s.dag.Evals n (.ok v) := fun v hn hv =>
      hnone ⟨n, v⟩ ((hinv.complete_ok_iff n ⟨n, v⟩).mpr ⟨hn, rfl, hv⟩)
    have hclones : clones m.inFlight n = 0 := by
      unfold clones
      rw [List.sum_eq_zero_iff_forall_eq_nat]
      intro c hc
      obtain ⟨f, hf, rfl⟩ := List.mem_map.mp hc
      refine List.count_eq_zero.mpr fun hin => ?_
      obtain ⟨a, ha, rfl⟩ := List.mem_map.mp hin
      obtain ⟨hsettled, hev⟩ := hinv.held hf ha
      exact hno a.inner (hinv.run.settled_sub hsettled) hev
    rw [hinv.run.strong n, if_neg (fun hok => hok.2.elim fun v hv => hno v hok.1 hv), hclones]
    exact ⟨rfl, rfl⟩
  · obtain ⟨hsettled, ho, hev⟩ := (hm.lookup_iff hw hsp hinv.run n a).mp ha
    exact ⟨ho, hinv.strong_of_ok (hinv.run.settled_sub hsettled) hev⟩
  · obtain ⟨hsettled, hev⟩ := hinv.held hf ha
    refine ⟨hinv.run.stored _ hsettled _ hev, ?_⟩
    rw [hinv.strong_of_ok (hinv.run.settled_sub hsettled) hev]
    obtain ⟨l, r, hlr⟩ := List.append_of_mem hf
    have hpos : 0 < (f.dependencies.map Arc.origin).count a.origin :=
      List.count_pos_iff.mpr (List.mem_map_of_mem ha)
    rw [hlr, clones_cons]
    omega

theorem strong_exact_sample : ∃ m : Machine Sample.Value,
    m.Reachable (Sample.session (Sample.value 2)).dag ⟨.stored _, .stored _⟩ .identity ∧
      m.state.strong (.ofLen 2) = 1 := by
  have hs := Sample.wellWired_session (Sample.value 2) rfl rfl
  have hsp : (Spawner.identity : Spawner Sample.Value).Honest := Spawner.identity_passesThrough.honest
  obtain ⟨m, hm, hstop⟩ := Sample.exists_stopped (Sample.value 2) rfl rfl ⟨.stored _, .stored _⟩ .identity
  obtain ⟨k, hfinal⟩ := hm.final (Reachable.wired hs.own) hsp hstop
  have he := hfinal.no_error Sample.no_panics
  obtain ⟨-, v, hv⟩ := hfinal.ok_of_no_error he (hs.own.ready hs.small (by decide : (NodeId.ofLen 2).index < _))
  obtain ⟨-, -, hstored, -⟩ := Reachable.strong_exact hs.own hsp hm (.ofLen 2)
  obtain ⟨-, hstrong⟩ := hstored _ (hfinal.lookup he hv)
  rw [hstop.1.2.1] at hstrong
  exact ⟨m, hm, hstrong⟩

end Session

end Dagx
