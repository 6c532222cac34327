import Dagx.Invariant

/-!
# The invariant of the machine

`Machine.Inv dag k m`: the current layer is the one at depth `k`, every task below it returned a value, and the locals
of `run` satisfy `RunState.Inv` for the tasks `m` has started, completed and settled.

* `Machine.Inv.work`: kept by every step inside a layer, whatever the spawner does with panics;
* `Machine.Inv.next`: kept by the step to the next layer when every task of this one returned a value;
* `Machine.Inv.clean_work`: with an honest spawner no error means just that, so `Machine.Reachable.inv`: every reachable
  machine satisfies the invariant.
-/

namespace Dagx

open Layering

variable {Ty : Type} [Preorder Ty] {Val : Ty → Type}

namespace Machine

/-! ## How far each task is -/

def busy (m : Machine Val) : List NodeId := m.pending ++ m.inFlight.map InFlight.id ++ m.ready.map InFlight.id

theorem mem_busy {m : Machine Val} {n : NodeId} :
    n ∈ m.busy ↔ n ∈ m.pending ∨ n ∈ m.inFlight.map InFlight.id ∨ n ∈ m.ready.map InFlight.id := by
  rw [busy, List.mem_append, List.mem_append, or_assoc]

theorem busy_start {m : Machine Val} {id : NodeId} {pending : List NodeId} {f : InFlight Val}
    (hp : m.pending = id :: pending) (hf : f.id = id) (s : RunState Val) :
    { m with state := s, pending := pending, inFlight := m.inFlight ++ [f] }.busy.Perm m.busy := by
  rw [List.perm_iff_count]
  intro n
  simp only [busy, hp, hf, List.map_append, List.count_append, List.count_cons, List.map_cons, List.map_nil,
    List.count_nil]
  omega

theorem busy_complete {m : Machine Val} {l r : List (InFlight Val)} {f : InFlight Val} (hf : m.inFlight = l ++ f :: r)
    (s : RunState Val) : { m with state := s, inFlight := l ++ r, ready := m.ready ++ [f] }.busy.Perm m.busy := by
  rw [List.perm_iff_count]
  intro n
  simp only [busy, hf, List.map_append, List.count_append, List.count_cons, List.map_cons, List.map_nil, List.count_nil]
  omega

theorem busy_consume {m : Machine Val} {l r : List (InFlight Val)} {f : InFlight Val} (hf : m.ready = l ++ f :: r)
    (s : RunState Val) : m.busy.Perm (f.id :: { m with state := s, ready := l ++ r }.busy) := by
  rw [List.perm_iff_count]
  intro n
  simp only [busy, hf, List.map_append, List.count_append, List.count_cons, List.map_cons]
  omega

theorem Idle.busy {m : Machine Val} (h : m.Idle) : m.busy = [] := by
  obtain ⟨hp, hf, hr⟩ := h
  rw [Machine.busy, hp, hf, hr]
  rfl

theorem busy_init (dag : DagRunner Val) (layers : List (List NodeId)) :
    (init dag layers).busy = (init dag layers).layer := by
  cases layers <;> simp [init, busy]

theorem firstError_handOver (layer : List NodeId) (id : NodeId) (s : RunState Val) :
    (handOver layer id s).firstError = s.firstError := by
  unfold handOver
  split_ifs <;> rfl

theorem log_handOver (layer : List NodeId) (id : NodeId) (s : RunState Val) : (handOver layer id s).log = s.log := by
  unfold handOver
  split_ifs <;> rfl

/-- The tasks started, when the current layer is at depth `k`. -/
def Started (dag : DagRunner Val) (k : Nat) (m : Machine Val) : Set NodeId :=
  {n | Ready dag.deps (k + 1) n ∧ n ∉ m.pending}

def Completed (dag : DagRunner Val) (k : Nat) (m : Machine Val) : Set NodeId :=
  {n | Ready dag.deps (k + 1) n ∧ n ∉ m.pending ∧ n ∉ m.inFlight.map InFlight.id}

def Settled (dag : DagRunner Val) (k : Nat) (m : Machine Val) : Set NodeId :=
  {n | Ready dag.deps (k + 1) n ∧ n ∉ m.busy}

theorem settled_congr {dag : DagRunner Val} {k : Nat} {m m' : Machine Val} (h : m'.busy.Perm m.busy) :
    m'.Settled dag k = m.Settled dag k := by
  ext n
  simp only [Settled, Set.mem_ofPred_eq, h.mem_iff]

theorem ready_and_notMem_iff {dag : DagRunner Val} {k : Nat} {layer : List NodeId}
    (hmem : ∀ n, n ∈ layer ↔ AtDepth dag.deps (k + 1) n) (n : NodeId) :
    Ready dag.deps (k + 1 + 1) n ∧ n ∉ layer ↔ Ready dag.deps (k + 1) n := by
  rw [hmem]
  constructor
  · rintro ⟨hr, hn⟩
    by_contra hnot
    exact hn ⟨hr, hnot⟩
  · intro hr
    exact ⟨hr.succ, fun hat => hat.2 hr⟩

variable [DecidableEq Ty] {dag : DagRunner Val} {sp : Spawner Val} {k : Nat} {m m' : Machine Val}

/-- Every task settled returned a value. -/
def Clean (dag : DagRunner Val) (k : Nat) (m : Machine Val) : Prop := ∀ n ∈ m.Settled dag k, ∃ v, dag.Evals n (.ok v)

/-! ## Results -/

theorem result_of_ok (hsp : sp.PassesResults) {f : InFlight Val} (hf : dag.Launched f) {v : AnyVal Val}
    (hv : dag.Evals f.id (.ok v)) (layer : List NodeId) : result sp layer f = .ok ⟨f.id, v⟩ := by
  have hout : f.outcome = .ok (.ok ⟨f.id, v⟩) := hf.outcome hv
  unfold result
  split_ifs
  · rw [inlineResult, hout]
  · rw [spawnedOutput, spawnedResult, hout, hsp]
    rfl

theorem result_of_error (hsp : sp.Honest) {f : InFlight Val} (hf : dag.Launched f) {p : Payload}
    (hp : dag.Evals f.id (.error p)) (layer : List NodeId) : ∃ e, result sp layer f = .error e := by
  have hout : f.outcome = .error p := hf.outcome hp
  unfold result
  split_ifs
  · rw [inlineResult, hout]
    exact ⟨_, rfl⟩
  · rw [spawnedOutput, spawnedResult, hout]
    cases hs : sp f.id (.error p) with
    | error q => exact ⟨_, rfl⟩
    | ok r =>
      cases r with
      | error e => exact ⟨e, rfl⟩
      | ok arc => exact absurd hs (hsp.2 f.id p arc)

/-! ## The invariant -/

/-- The current layer is at depth `k`, and the locals of `run` are as far as its tasks are. -/
structure Inv (dag : DagRunner Val) (k : Nat) (m : Machine Val) : Prop where
  mem_layer : ∀ n, n ∈ m.layer ↔ AtDepth dag.deps k n
  layer_nodup : m.layer.Nodup
  rest : Layered dag.deps (k + 1) m.rest
  busy_sub : ∀ n ∈ m.busy, n ∈ m.layer
  busy_nodup : m.busy.Nodup
  ready_launched : ∀ f ∈ m.ready, dag.Launched f
  below : ∀ n, Ready dag.deps k n → ∃ v, dag.Evals n (.ok v)
  run : m.state.Inv dag (m.Started dag k) (m.Completed dag k) (m.Settled dag k) m.inFlight
  no_error : m.Clean dag k → m.state.firstError = none

theorem Inv.settled_of_ready (h : m.Inv dag k) {n : NodeId} (hn : Ready dag.deps k n) : n ∈ m.Settled dag k :=
  ⟨hn.succ, fun hbusy => ((h.mem_layer n).mp (h.busy_sub n hbusy)).2 hn⟩

theorem Inv.atDepth_of_busy (h : m.Inv dag k) {n : NodeId} (hn : n ∈ m.busy) : AtDepth dag.deps k n :=
  (h.mem_layer n).mp (h.busy_sub n hn)

theorem Inv.handOver {S C D : Set NodeId} {fs : List (InFlight Val)} {s : RunState Val} (h : s.Inv dag S C D fs)
    (layer : List NodeId) (id : NodeId) : (handOver layer id s).Inv dag S C D fs := by
  unfold Machine.handOver
  split_ifs
  · exact h
  · exact h.spawned _

/-! ## Steps inside a layer -/

theorem Inv.start_spec (hw : dag.Wired) (h : m.Inv dag k) {id : NodeId} {pending : List NodeId}
    (hp : m.pending = id :: pending) :
    ∃ node dependencies s, m.state.start dag.edges id = .ok (some ⟨id, node, dependencies⟩, s) ∧
      dag.Launched ⟨id, node, dependencies⟩ ∧
      s.Inv dag (insert id (m.Started dag k)) (m.Completed dag k) (m.Settled dag k)
        (m.inFlight ++ [⟨id, node, dependencies⟩]) ∧
      s.log = m.state.log ++ [.start id dependencies] ∧ s.firstError = m.state.firstError ∧
      s.spawned = m.state.spawned := by
  have hid : id ∈ m.pending := by simp [hp]
  obtain ⟨⟨ds, hds, hready⟩, -⟩ := h.atDepth_of_busy (mem_busy.mpr (Or.inl hid))
  have hlt := hw.index_lt (DagRunner.deps_eq_some.mp hds).1
  obtain ⟨node, hnode⟩ := hw.task id hlt
  obtain ⟨dependencies, s, hs⟩ := h.run.start hnode hds (fun hstarted => hstarted.2 hid) fun d hd =>
    ⟨h.settled_of_ready (hready d hd), h.below d (hready d hd)⟩
  exact ⟨node, dependencies, s, hs⟩

theorem Inv.start (hw : dag.Wired) (h : m.Inv dag k) {id : NodeId} {pending : List NodeId} {f : InFlight Val}
    {s : RunState Val} (hp : m.pending = id :: pending) (hs : m.state.start dag.edges id = .ok (some f, s)) :
    { m with state := Machine.handOver m.layer id s, pending := pending, inFlight := m.inFlight ++ [f] }.Inv dag k := by
  obtain ⟨node, dependencies, s', hs', -, hinv, -, herr, -⟩ := h.start_spec hw hp
  rw [hs'] at hs
  cases hs
  set m' : Machine Val := { m with
    state := Machine.handOver m.layer id s
    pending := pending
    inFlight := m.inFlight ++ [⟨id, node, dependencies⟩] } with hm'
  have hat : AtDepth dag.deps k id := h.atDepth_of_busy (mem_busy.mpr (Or.inl (by simp [hp])))
  have hperm : m'.busy.Perm m.busy := busy_start hp rfl _
  have hnodup := hperm.nodup_iff.mpr h.busy_nodup
  have hnot : id ∉ pending := by
    have := h.busy_nodup
    rw [busy, hp, List.append_assoc, List.cons_append, List.nodup_cons, List.mem_append, not_or] at this
    exact this.1.1
  have hstarted : m'.Started dag k = insert id (m.Started dag k) := by
    ext n
    simp only [Started, hm', hp, Set.mem_insert_iff, Set.mem_ofPred_eq, List.mem_cons, not_or]
    by_cases hn : n = id
    · subst hn
      simp [hat.1, hnot]
    · simp [hn]
  have hcompleted : m'.Completed dag k = m.Completed dag k := by
    ext n
    simp only [Completed, hm', hp, Set.mem_ofPred_eq, List.map_append, List.map_cons, List.map_nil, List.mem_append,
      List.mem_cons, List.not_mem_nil, or_false, not_or]
    exact ⟨fun ⟨hr, hn, hi, he⟩ => ⟨hr, ⟨he, hn⟩, hi⟩, fun ⟨hr, ⟨he, hn⟩, hi⟩ => ⟨hr, hn, hi, he⟩⟩
  have hsettled : m'.Settled dag k = m.Settled dag k := settled_congr hperm
  refine ⟨h.mem_layer, h.layer_nodup, h.rest, fun n hn => h.busy_sub n (hperm.mem_iff.mp hn), hnodup,
    h.ready_launched, h.below, ?_, fun hclean => ?_⟩
  · rw [hstarted, hcompleted, hsettled]
    exact Inv.handOver hinv m.layer id
  · show (Machine.handOver m.layer id s).firstError = none
    rw [firstError_handOver, herr]
    exact h.no_error (by rwa [Clean, hsettled] at hclean)

theorem Inv.complete (h : m.Inv dag k) {l r : List (InFlight Val)} {f : InFlight Val} (hf : m.inFlight = l ++ f :: r) :
    { m with state := m.state.complete f, inFlight := l ++ r, ready := m.ready ++ [f] }.Inv dag k := by
  set m' : Machine Val := { m with
    state := m.state.complete f
    inFlight := l ++ r
    ready := m.ready ++ [f] } with hm'
  have hperm : m'.busy.Perm m.busy := busy_complete hf _
  have hbusy : f.id ∈ m.busy := mem_busy.mpr (Or.inr (Or.inl (by simp [hf])))
  have hat := h.atDepth_of_busy hbusy
  have hnodup := h.busy_nodup
  have hnot : f.id ∉ m.pending ∧ f.id ∉ (l ++ r).map InFlight.id := by
    have hperm' : m.busy.Perm (f.id :: (m.pending ++ (l ++ r).map InFlight.id ++ m.ready.map InFlight.id)) := by
      rw [List.perm_iff_count]
      intro n
      simp only [busy, hf, List.map_append, List.count_append, List.count_cons, List.map_cons]
      omega
    rw [hperm'.nodup_iff, List.nodup_cons, List.mem_append, List.mem_append, not_or, not_or] at hnodup
    exact hnodup.1.1
  have hcompleted : m'.Completed dag k = insert f.id (m.Completed dag k) := by
    ext n
    simp only [Completed, hm', Set.mem_insert_iff, Set.mem_ofPred_eq]
    by_cases hn : n = f.id
    · subst hn
      exact ⟨fun _ => Or.inl rfl, fun _ => ⟨hat.1, hnot.1, hnot.2⟩⟩
    · simp [hn, hf]
  have hsettled : m'.Settled dag k = m.Settled dag k := settled_congr hperm
  have hrun := h.run
  rw [hf] at hrun
  have hinv := hrun.complete ⟨hat.1, hnot.1⟩ fun hc => hc.2.2 (by simp [hf])
  refine ⟨h.mem_layer, h.layer_nodup, h.rest, fun n hn => h.busy_sub n (hperm.mem_iff.mp hn),
    hperm.nodup_iff.mpr h.busy_nodup, fun g hg => ?_, h.below, ?_, fun hclean => h.no_error (by rwa [Clean, hsettled] at hclean)⟩
  · rcases List.mem_append.mp hg with hg | hg
    · exact h.ready_launched g hg
    · obtain rfl := List.mem_singleton.mp hg
      exact (h.run.launched g (by simp [hf])).1
  · rw [hcompleted, hsettled]
    exact hinv

theorem Inv.settled_consume (h : m.Inv dag k) {l r : List (InFlight Val)} {f : InFlight Val}
    (hf : m.ready = l ++ f :: r) (s : RunState Val) :
    { m with state := s, ready := l ++ r }.Settled dag k = insert f.id (m.Settled dag k) := by
  have hperm := busy_consume hf s
  have hnodup := h.busy_nodup
  rw [hperm.nodup_iff, List.nodup_cons] at hnodup
  have hat := h.atDepth_of_busy (hperm.mem_iff.mpr List.mem_cons_self)
  ext n
  simp only [Settled, Set.mem_insert_iff, Set.mem_ofPred_eq, hperm.mem_iff, List.mem_cons, not_or]
  by_cases hn : n = f.id
  · subst hn
    exact ⟨fun _ => Or.inl rfl, fun _ => ⟨hat.1, hnodup.1⟩⟩
  · simp [hn]

theorem Inv.completed_of_ready (h : m.Inv dag k) {l r : List (InFlight Val)} {f : InFlight Val}
    (hf : m.ready = l ++ f :: r) : f.id ∈ m.Completed dag k := by
  have hready : f.id ∈ m.ready.map InFlight.id := by simp [hf]
  have hbusy : f.id ∈ m.busy := mem_busy.mpr (Or.inr (Or.inr hready))
  have hcount : m.busy.count f.id = 1 := List.count_eq_one_of_mem h.busy_nodup hbusy
  rw [busy, List.count_append, List.count_append] at hcount
  have hpos := List.count_pos_iff.mpr hready
  exact ⟨(h.atDepth_of_busy hbusy).1, List.count_eq_zero.mp (by omega), List.count_eq_zero.mp (by omega)⟩

theorem Inv.consume (hsp : sp.PassesResults) (h : m.Inv dag k) {l r : List (InFlight Val)} {f : InFlight Val}
    (hf : m.ready = l ++ f :: r) :
    { m with state := m.state.consume f.id (result sp m.layer f), ready := l ++ r }.Inv dag k := by
  set m' : Machine Val := { m with
    state := m.state.consume f.id (result sp m.layer f)
    ready := l ++ r } with hm'
  have hperm : m.busy.Perm (f.id :: m'.busy) := busy_consume hf _
  have hnodup := h.busy_nodup
  rw [hperm.nodup_iff, List.nodup_cons] at hnodup
  have hlaunched := h.ready_launched f (by simp [hf])
  have hat := h.atDepth_of_busy (hperm.mem_iff.mpr List.mem_cons_self)
  have hsettled : m'.Settled dag k = insert f.id (m.Settled dag k) := h.settled_consume hf _
  have hcompleted := h.completed_of_ready hf
  refine ⟨h.mem_layer, h.layer_nodup, h.rest,
    fun n hn => h.busy_sub n (hperm.mem_iff.mpr (List.mem_cons_of_mem _ hn)), hnodup.2,
    fun g hg => h.ready_launched g ?_, h.below, ?_, fun hclean => ?_⟩
  · rcases List.mem_append.mp hg with hg | hg <;> simp [hf, hg]
  · rw [hsettled]
    exact h.run.consume hcompleted fun v hv => result_of_ok hsp hlaunched hv m.layer
  · rw [Clean, hsettled] at hclean
    obtain ⟨v, hv⟩ := hclean f.id (Set.mem_insert _ _)
    show (m.state.consume f.id (result sp m.layer f)).firstError = none
    rw [RunState.firstError_consume, result_of_ok hsp hlaunched hv m.layer, Option.or_none]
    exact h.no_error fun n hn => hclean n (Set.mem_insert_of_mem _ hn)

/-- **Every step inside a layer keeps the invariant**, whatever the spawner does with panics. -/
theorem Inv.work (hw : dag.Wired) (hsp : sp.PassesResults) (h : m.Inv dag k) (hs : Work dag.edges sp m m') :
    m'.Inv dag k := by
  cases hs with
  | start id pending f s hp hs => exact h.start hw hp hs
  | skip id pending s hp hs =>
    -- the task of a node is taken once
    obtain ⟨_, _, _, hs', -⟩ := h.start_spec hw hp
    rw [hs'] at hs
    cases hs
  | complete l r f hf => exact h.complete hf
  | consume l r f hp hf => exact h.consume hsp hf

theorem Inv.clean_work (hw : dag.Wired) (hsp : sp.Honest) (h : m.Inv dag k)
    (hclean : m.state.firstError = none → m.Clean dag k) (hs : Work dag.edges sp m m') :
    m'.state.firstError = none → m'.Clean dag k := by
  intro he
  cases hs with
  | start id pending f s hp hs =>
    obtain ⟨node, dependencies, s', hs', -, -, -, herr, -⟩ := h.start_spec hw hp
    rw [hs'] at hs
    cases hs
    have he : (Machine.handOver m.layer id s).firstError = none := he
    rw [firstError_handOver, herr] at he
    rw [Clean, settled_congr (busy_start hp rfl _)]
    exact hclean he
  | skip id pending s hp hs =>
    obtain ⟨_, _, _, hs', -⟩ := h.start_spec hw hp
    rw [hs'] at hs
    cases hs
  | complete l r f hf =>
    rw [Clean, settled_congr (busy_complete hf _)]
    exact hclean he
  | consume l r f hp hf =>
    have he : (m.state.consume f.id (result sp m.layer f)).firstError = none := he
    rw [RunState.firstError_consume, Option.or_eq_none_iff] at he
    rw [Clean, h.settled_consume hf]
    intro n hn
    rcases Set.mem_insert_iff.mp hn with rfl | hn
    · have hlaunched := h.ready_launched f (by simp [hf])
      cases hout : f.node.call (f.dependencies.map Arc.inner) with
      | ok v => exact ⟨v, hout ▸ hlaunched.evals⟩
      | error p =>
        obtain ⟨e, hres⟩ := result_of_error hsp hlaunched (hout ▸ hlaunched.evals) m.layer
        rw [hres] at he
        cases he.2
    · exact hclean he.1 n hn

/-! ## From layer to layer -/

theorem inv_init {layers : List (List NodeId)} (h : Layered dag.deps 0 layers) : (init dag layers).Inv dag 0 := by
  have hfields : (init dag layers).state = dag.initState ∧ (init dag layers).inFlight = [] ∧
      (init dag layers).ready = [] ∧ (init dag layers).pending = (init dag layers).layer := by
    cases layers <;> exact ⟨rfl, rfl, rfl, rfl⟩
  obtain ⟨hstate, hflight, hready, hpending⟩ := hfields
  have hlayer : (∀ n, n ∈ (init dag layers).layer ↔ AtDepth dag.deps 0 n) ∧ (init dag layers).layer.Nodup ∧
      Layered dag.deps 1 (init dag layers).rest := by
    cases h with
    | nil hnone =>
      refine ⟨fun n => ⟨fun hn => ?_, fun hat => absurd hat (hnone n)⟩, List.nodup_nil,
        .nil (not_atDepth_of_le hnone (Nat.le_succ 0))⟩
      simp [init] at hn
    | cons hne hnodup hmem htail => exact ⟨hmem, hnodup, htail⟩
  have hbusy := busy_init dag layers
  have hnone : ∀ n, Ready dag.deps 1 n → n ∈ (init dag layers).layer := fun n hn => (hlayer.1 n).mpr ⟨hn, id⟩
  have hstarted : (init dag layers).Started dag 0 = ∅ := by
    refine Set.eq_empty_of_forall_notMem fun n hn => hn.2 ?_
    rw [hpending]
    exact hnone n hn.1
  have hcompleted : (init dag layers).Completed dag 0 = ∅ := by
    refine Set.eq_empty_of_forall_notMem fun n hn => hn.2.1 ?_
    rw [hpending]
    exact hnone n hn.1
  have hsettled : (init dag layers).Settled dag 0 = ∅ := by
    refine Set.eq_empty_of_forall_notMem fun n hn => hn.2 ?_
    rw [hbusy]
    exact hnone n hn.1
  refine ⟨hlayer.1, hlayer.2.1, hlayer.2.2, fun n hn => by rwa [hbusy] at hn, by rw [hbusy]; exact hlayer.2.1,
    fun f hf => ?_, fun n hn => hn.elim, ?_, fun _ => by rw [hstate]; rfl⟩
  · rw [hready] at hf
    cases hf
  · rw [hstarted, hcompleted, hsettled, hstate, hflight]
    exact RunState.inv_init dag

theorem Inv.next (h : m.Inv dag k) (hidle : m.Idle) (hclean : m.Clean dag k) {layer : List NodeId}
    {rest : List (List NodeId)} (hr : m.rest = layer :: rest) :
    { m with layer := layer, pending := layer, rest := rest }.Inv dag (k + 1) := by
  obtain ⟨hp, hf, hq⟩ := hidle
  have hbusy : m.busy = [] := Idle.busy ⟨hp, hf, hq⟩
  have hrest := h.rest
  rw [hr] at hrest
  cases hrest with
  | cons hne hnodup hmem htail =>
    set m' : Machine Val := { m with
      layer := layer
      pending := layer
      rest := rest } with hm'
    have hbusy' : m'.busy = layer := by
      simp [busy, hm', hf, hq]
    have hiff := ready_and_notMem_iff hmem
    have hstarted : m'.Started dag (k + 1) = m.Started dag k := by
      ext n
      simp [Started, hm', hp, hiff]
    have hcompleted : m'.Completed dag (k + 1) = m.Completed dag k := by
      ext n
      simp [Completed, hm', hp, hf, hiff]
    have hsettled : m'.Settled dag (k + 1) = m.Settled dag k := by
      ext n
      simp [Settled, hbusy', hbusy, hiff]
    refine ⟨hmem, hnodup, htail, fun n hn => by rwa [hbusy'] at hn, by rwa [hbusy'], h.ready_launched, fun n hn => ?_,
      ?_, fun hc => ?_⟩
    · exact hclean n ⟨hn, by rw [hbusy]; exact List.not_mem_nil⟩
    · rw [hstarted, hcompleted, hsettled]
      exact h.run
    · exact h.no_error hclean

/-! ## Every reachable machine -/

theorem Inv.step (hw : dag.Wired) (hsp : sp.Honest) (hs : Step dag.edges sp m m')
    (h : ∃ k, m.Inv dag k ∧ (m.state.firstError = none → m.Clean dag k)) :
    ∃ k, m'.Inv dag k ∧ (m'.state.firstError = none → m'.Clean dag k) := by
  obtain ⟨k, hinv, hclean⟩ := h
  cases hs with
  | work m' hwork => exact ⟨k, hinv.work hw hsp.1 hwork, hinv.clean_work hw hsp hclean hwork⟩
  | next layer rest hidle he hr =>
    have hnext := hinv.next hidle (hclean he) hr
    refine ⟨k + 1, hnext, fun _ n hn => ?_⟩
    have hbusy : n ∉ layer := fun hin => hn.2 (mem_busy.mpr (Or.inl hin))
    have hready : Ready dag.deps (k + 1) n := (ready_and_notMem_iff hnext.mem_layer n).mp ⟨hn.1, hbusy⟩
    exact hnext.below n hready

/-- **The invariant of every reachable machine.** -/
theorem Reachable.inv (hw : dag.Wired) (hsp : sp.Honest) {it : IterOrder} (h : m.Reachable dag it sp) :
    ∃ k, m.Inv dag k ∧ (m.state.firstError = none → m.Clean dag k) := by
  refine System.Reachable.invariant (I := fun m => ∃ k, m.Inv dag k ∧ (m.state.firstError = none → m.Clean dag k)) ?_
    (fun _ _ ih hs => Inv.step hw hsp hs ih) h
  rintro m ⟨layers, hrun, rfl⟩
  obtain ⟨layers', hrun', hlayers⟩ := hw.computeLayers it
  rw [hrun'] at hrun
  cases hrun
  have hinv := inv_init hlayers
  refine ⟨0, hinv, fun _ n hn => absurd ?_ hn.2⟩
  rw [busy_init, hinv.mem_layer]
  exact ⟨hn.1, id⟩

end Machine

end Dagx
