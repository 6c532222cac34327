import Dagx.History

/-!
# `run` is a run of the machine

* `Inv.spawnAll`, `drain`, `Inv.runInline`: the two branches of `run` are sequences of steps inside a layer;
* `Inv.runLayers`: the loop over the layers is a run of the machine, up to the end of the first layer with a task that
  panics; with an honest spawner it stops there;
* `DagRunner.Wired.finalState`: what the final state of `run` is, for every iteration order, completion order and
  spawner that passes results through.
-/

namespace Dagx

open Layering Relation

variable {Ty : Type} [Preorder Ty] {Val : Ty → Type}

/-! ## Histories only grow -/

/-- What no later step takes back. -/
structure RunState.Grows (s s' : RunState Val) : Prop where
  nodes : s'.nodes.length = s.nodes.length
  log : s.log <+: s'.log
  spawned : s.spawned <+: s'.spawned

namespace RunState.Grows

theorem refl (s : RunState Val) : s.Grows s := ⟨rfl, List.prefix_rfl, List.prefix_rfl⟩

theorem trans {s s' s'' : RunState Val} (h : s.Grows s') (h' : s'.Grows s'') : s.Grows s'' :=
  ⟨h'.nodes.trans h.nodes, h.log.trans h'.log, h.spawned.trans h'.spawned⟩

end RunState.Grows

theorem RunState.grows_consume (s : RunState Val) (id : NodeId) (result : DagResult (Arc Val)) :
    s.Grows (s.consume id result) := by
  refine ⟨?_, ?_, ?_⟩
  · cases result <;> rfl
  · rw [s.log_consume]
    exact List.prefix_append _ _
  · cases result <;> exact List.prefix_rfl

namespace RunState

/-- The ids of tasks are valid indices and keys, so no index operation of `run` panics. -/
def Valid (dag : DagRunner Val) (s : RunState Val) (id : NodeId) : Prop :=
  id.index < s.nodes.length ∧ id ∈ dag.edges

theorem Valid.grows {dag : DagRunner Val} {s s' : RunState Val} {id : NodeId} (h : s.Valid dag id) (hg : s.Grows s') :
    s'.Valid dag id := ⟨by rw [hg.nodes]; exact h.1, h.2⟩

theorem valid_of_atDepth {dag : DagRunner Val} (hw : dag.Wired) {id : NodeId} {j : Nat} (h : AtDepth dag.deps j id)
    {s : RunState Val}
    (hs : s.nodes.length = dag.nodes.length) : s.Valid dag id := by
  obtain ⟨⟨ds, hds, -⟩, -⟩ := h
  have hlt := hw.index_lt (DagRunner.deps_eq_some.mp hds).1
  exact ⟨by rw [hs]; exact hlt, (hw.mem_edges id).mpr hlt⟩

theorem start_total {dag : DagRunner Val} {s : RunState Val} {id : NodeId} (h : s.Valid dag id) :
    ∃ r, s.start dag.edges id = .ok r ∧ s.Grows r.2 := by
  obtain ⟨ds, hds⟩ := Option.isSome_iff_exists.mp (AList.lookup_isSome.mpr h.2)
  obtain ⟨slot, hslot⟩ : ∃ slot, s.nodes[id.index]? = some slot := ⟨_, List.getElem?_eq_getElem h.1⟩
  unfold start
  rw [hslot]
  cases slot with
  | none => exact ⟨_, rfl, .refl s⟩
  | some node =>
    rw [hds]
    exact ⟨_, rfl, List.length_set, List.prefix_append _ _, List.prefix_rfl⟩

theorem spawnAll_total {dag : DagRunner Val} (layer : List NodeId) (s : RunState Val)
    (h : ∀ id ∈ layer, s.Valid dag id) : ∃ r, spawnAll dag.edges layer s = .ok r ∧ s.Grows r.2 := by
  induction layer generalizing s with
  | nil => exact ⟨_, rfl, .refl s⟩
  | cons id layer ih =>
    obtain ⟨⟨f, s₁⟩, hs₁, hg₁⟩ := start_total (h id List.mem_cons_self)
    cases f with
    | none =>
      obtain ⟨r, hr, hg⟩ := ih s₁ fun n hn => (h n (List.mem_cons_of_mem id hn)).grows hg₁
      exact ⟨r, by rw [spawnAll_cons_none hs₁, hr], hg₁.trans hg⟩
    | some f =>
      have hg₂ : s.Grows { s₁ with spawned := s₁.spawned ++ [id] } :=
        ⟨hg₁.nodes, hg₁.log, hg₁.spawned.trans (List.prefix_append _ _)⟩
      obtain ⟨r, hr, hg⟩ := ih { s₁ with spawned := s₁.spawned ++ [id] } fun n hn =>
        (h n (List.mem_cons_of_mem id hn)).grows hg₂
      refine ⟨(f :: r.1, r.2), ?_, hg₂.trans hg⟩
      rw [spawnAll_cons_some hs₁, hr]
      rfl

end RunState

variable [DecidableEq Ty]

namespace RunState

theorem grows_complete (s : RunState Val) (f : InFlight Val) : s.Grows (s.complete f) :=
  ⟨rfl, List.prefix_append _ _, List.prefix_rfl⟩

theorem settle_eq (sp : Spawner Val) (s : RunState Val) (f : InFlight Val) :
    settle sp s f = (s.complete f).consume f.id (spawnedOutput sp f) := by
  unfold settle spawnedOutput spawnedResult
  cases sp f.id f.outcome with
  | error payload => rfl
  | ok result => cases result <;> rfl

theorem grows_settle (sp : Spawner Val) (s : RunState Val) (f : InFlight Val) : s.Grows (settle sp s f) := by
  rw [settle_eq]
  exact (s.grows_complete f).trans (grows_consume _ _ _)

theorem grows_foldl_settle (sp : Spawner Val) (fs : List (InFlight Val)) (s : RunState Val) :
    s.Grows (fs.foldl (settle sp) s) := by
  induction fs generalizing s with
  | nil => exact .refl s
  | cons f fs ih => exact (grows_settle sp s f).trans (ih (settle sp s f))

theorem runLayer_total {dag : DagRunner Val} (sp : Spawner Val) (co : CompletionOrder Val) (layer : List NodeId)
    (s : RunState Val) (h : ∀ id ∈ layer, s.Valid dag id) :
    ∃ s', runLayer sp co dag.edges s layer = .ok s' ∧ s.Grows s' := by
  have hspawned : ∃ s', s.runSpawned sp co dag.edges layer = .ok s' ∧ s.Grows s' := by
    obtain ⟨⟨fs, s₁⟩, hr, hg⟩ := spawnAll_total layer s h
    rw [runSpawned, hr]
    exact ⟨_, rfl, hg.trans (grows_foldl_settle sp _ _)⟩
  match layer with
  | [] => exact hspawned
  | [id] =>
    obtain ⟨⟨f, s₁⟩, hs₁, hg₁⟩ := start_total (h id List.mem_cons_self)
    rw [runLayer, runInline, hs₁]
    cases f with
    | none => exact ⟨_, rfl, hg₁⟩
    | some f => exact ⟨_, rfl, hg₁.trans ((grows_complete _ f).trans (grows_consume _ _ _))⟩
  | _ :: _ :: _ => exact hspawned

theorem runLayers_total {dag : DagRunner Val} (sp : Spawner Val) (co : CompletionOrder Val)
    (layers : List (List NodeId)) (s : RunState Val) (h : ∀ layer ∈ layers, ∀ id ∈ layer, s.Valid dag id) :
    ∃ s', runLayers (runLayer sp co dag.edges) layers s = .ok s' ∧ s.Grows s' := by
  induction layers generalizing s with
  | nil => exact ⟨s, rfl, .refl s⟩
  | cons layer layers ih =>
    obtain ⟨s₁, hs₁, hg₁⟩ := runLayer_total sp co layer s (h layer List.mem_cons_self)
    rw [runLayers, hs₁]
    show ∃ s', (if s₁.firstError.isSome then _ else _) = _ ∧ _
    split_ifs
    · exact ⟨s₁, rfl, hg₁⟩
    · obtain ⟨s', hs', hg⟩ := ih s₁ fun l hl id hid => (h l (List.mem_cons_of_mem layer hl) id hid).grows hg₁
      exact ⟨s', hs', hg₁.trans hg⟩

end RunState

namespace Machine

variable {dag : DagRunner Val} {sp : Spawner Val} {k : Nat} {m m' : Machine Val}

/-! ## A layer -/

theorem Inv.works (hw : dag.Wired) (hsp : sp.PassesResults) (h : m.Inv dag k)
    (hs : ReflTransGen (Work dag.edges sp) m m') : m'.Inv dag k := by
  induction hs with
  | refl => exact h
  | tail _ hstep ih => exact ih.work hw hsp hstep

theorem Scheduled.works (hw : dag.Wired) (hsp : sp.PassesResults) (h : m.Inv dag k) (hsch : m.Scheduled dag)
    (hs : ReflTransGen (Work dag.edges sp) m m') : m'.Scheduled dag := by
  induction hs with
  | refl => exact hsch
  | tail hsteps hstep ih => exact ih.work hw (h.works hw hsp hsteps) hstep

theorem Inv.clean_works (hw : dag.Wired) (hsp : sp.Honest) (h : m.Inv dag k)
    (hclean : m.state.firstError = none → m.Clean dag k) (hs : ReflTransGen (Work dag.edges sp) m m') :
    m'.state.firstError = none → m'.Clean dag k := by
  induction hs with
  | refl => exact hclean
  | tail hsteps hstep ih => exact (h.works hw hsp.1 hsteps).clean_work hw hsp ih hstep

theorem Inv.clean_of_busy (h : m.Inv dag k) (hbusy : m.busy = m.layer) : m.Clean dag k := by
  intro n hn
  refine h.below n ?_
  by_contra hnot
  exact hn.2 (by rw [hbusy, h.mem_layer]; exact ⟨hn.1, hnot⟩)

theorem Inv.spawnAll (hw : dag.Wired) (hsp : sp.PassesResults) (pending : List NodeId) : ∀ m : Machine Val,
    m.Inv dag k → m.layer.length ≠ 1 → m.pending = pending →
    ∃ fs s, RunState.spawnAll dag.edges pending m.state = .ok (fs, s) ∧ fs.map InFlight.id = pending ∧
      ReflTransGen (Work dag.edges sp) m { m with state := s, pending := [], inFlight := m.inFlight ++ fs } := by
  induction pending with
  | nil =>
    intro m h _ hp
    refine ⟨[], m.state, rfl, rfl, ?_⟩
    rw [List.append_nil, ← hp]
  | cons id pending ih =>
    intro m h hlayer hp
    obtain ⟨node, dependencies, s, hs, -⟩ := h.start_spec hw hp
    have hstep : Work dag.edges sp m _ := .start m id pending _ s hp hs
    have hover : Machine.handOver m.layer id s = { s with spawned := s.spawned ++ [id] } := if_neg hlayer
    obtain ⟨fs, s', hs', hids, hsteps⟩ := ih _ (h.work hw hsp hstep) hlayer rfl
    refine ⟨⟨id, node, dependencies⟩ :: fs, s', ?_, by rw [List.map_cons, hids], .head hstep ?_⟩
    · rw [RunState.spawnAll_cons_some hs, ← hover, hs']
      rfl
    · simpa using hsteps

theorem drain_some (dag : DagRunner Val) (sp : Spawner Val) (order rest : List (InFlight Val)) : ∀ m : Machine Val,
    m.layer.length ≠ 1 → m.pending = [] → m.ready = [] → m.inFlight.Perm (order ++ rest) →
    ∃ inFlight, inFlight.Perm rest ∧ ReflTransGen (Work dag.edges sp) m
      { m with state := order.foldl (RunState.settle sp) m.state, inFlight := inFlight, ready := [] } := by
  induction order with
  | nil =>
    intro m _ _ hr hperm
    have hstate : { m with ready := [] } = m := by rw [← hr]
    refine ⟨m.inFlight, hperm, ?_⟩
    rw [List.foldl_nil, hstate]
  | cons f order ih =>
    intro m hlayer hp hr hperm
    obtain ⟨l, r, hf⟩ := List.append_of_mem (hperm.mem_iff.mpr List.mem_cons_self)
    rw [hf] at hperm
    have hperm' : (l ++ r).Perm (order ++ rest) := (List.perm_middle.symm.trans hperm).cons_inv
    have hcomplete : Work dag.edges sp m _ := .complete m l r f hf
    have hready : m.ready ++ [f] = [] ++ f :: [] := by rw [hr]
    have hconsume : Work dag.edges sp _ _ :=
      .consume { m with state := m.state.complete f, inFlight := l ++ r, ready := m.ready ++ [f] } [] [] f hp hready
    have hresult : result sp m.layer f = spawnedOutput sp f := if_neg hlayer
    obtain ⟨inFlight, hrest, hsteps⟩ :=
      ih { m with state := RunState.settle sp m.state f, inFlight := l ++ r, ready := [] } hlayer hp rfl hperm'
    refine ⟨inFlight, hrest, .head hcomplete (.head hconsume ?_)⟩
    rw [RunState.settle_eq, ← hresult] at hsteps
    rw [List.foldl_cons, RunState.settle_eq, ← hresult]
    exact hsteps

/-- `while let Some(out) = futures.next().await`: the futures in flight resolve and are handled in the given order. -/
theorem drain (dag : DagRunner Val) (sp : Spawner Val) (order : List (InFlight Val)) (m : Machine Val)
    (hlayer : m.layer.length ≠ 1) (hp : m.pending = []) (hr : m.ready = []) (hperm : order.Perm m.inFlight) :
    ReflTransGen (Work dag.edges sp) m
      { m with state := order.foldl (RunState.settle sp) m.state, inFlight := [], ready := [] } := by
  rw [← List.append_nil order] at hperm
  obtain ⟨inFlight, hrest, hsteps⟩ := drain_some dag sp order [] m hlayer hp hr hperm.symm
  rw [hrest.eq_nil] at hsteps
  exact hsteps

theorem Inv.runInline (hw : dag.Wired) (h : m.Inv dag k) {id : NodeId} (hlayer : m.layer = [id])
    (hp : m.pending = [id]) (hf : m.inFlight = []) (hr : m.ready = []) :
    ∃ s, m.state.runInline dag.edges id = .ok s ∧
      ReflTransGen (Work dag.edges sp) m { m with state := s, pending := [], inFlight := [], ready := [] } := by
  obtain ⟨node, dependencies, s, hs, -⟩ := h.start_spec hw hp
  set f : InFlight Val := ⟨id, node, dependencies⟩
  have hone : m.layer.length = 1 := by rw [hlayer]; rfl
  have hover : Machine.handOver m.layer id s = s := if_pos hone
  have hresult : result sp m.layer f = inlineResult f := if_pos hone
  refine ⟨(s.complete f).consume id (inlineResult f), ?_, ?_⟩
  · rw [RunState.runInline, hs]
  · have hstart : Work dag.edges sp m _ := .start m id [] f s hp hs
    rw [hover] at hstart
    have hcomplete : Work dag.edges sp _ _ :=
      .complete { m with state := s, pending := [], inFlight := m.inFlight ++ [f] } [] [] f (by rw [hf])
    have hconsume : Work dag.edges sp _ _ :=
      .consume { m with state := s.complete f, pending := [], inFlight := [], ready := m.ready ++ [f] } [] [] f rfl
        (by rw [hr])
    rw [hresult] at hconsume
    exact .head hstart (.head hcomplete (.head hconsume .refl))

/-- **A layer of `run` is a sequence of steps inside it**, at whose end nothing is left. -/
theorem Inv.runLayer (hw : dag.Wired) (hsp : sp.PassesResults) (co : CompletionOrder Val) (h : m.Inv dag k)
    (hp : m.pending = m.layer) (hf : m.inFlight = []) (hr : m.ready = []) :
    ∃ s, RunState.runLayer sp co dag.edges m.state m.layer = .ok s ∧
      ReflTransGen (Work dag.edges sp) m { m with state := s, pending := [], inFlight := [], ready := [] } := by
  by_cases hone : m.layer.length = 1
  · obtain ⟨id, hlayer⟩ := List.length_eq_one_iff.mp hone
    have hbranch : RunState.runLayer sp co dag.edges m.state m.layer = m.state.runInline dag.edges id := by
      rw [hlayer]
      rfl
    rw [hbranch]
    exact h.runInline hw hlayer (hp.trans hlayer) hf hr
  · obtain ⟨fs, s, hs, -, hspawn⟩ := h.spawnAll hw hsp m.layer m hone hp
    have hdrain := drain dag sp (co.order fs) { m with state := s, pending := [], inFlight := m.inFlight ++ fs } hone
      rfl hr (by rw [hf, List.nil_append]; exact co.perm fs)
    have hbranch : RunState.runLayer sp co dag.edges m.state m.layer =
        m.state.runSpawned sp co dag.edges m.layer := by
      unfold RunState.runLayer
      split
      · rename_i id heq
        rw [heq] at hone
        exact absurd rfl hone
      · rfl
    refine ⟨(co.order fs).foldl (RunState.settle sp) s, ?_, hspawn.trans ?_⟩
    · rw [hbranch, RunState.runSpawned, hs]
    · exact hdrain

/-! ## All layers -/

theorem steps_of_works (h : ReflTransGen (Work dag.edges sp) m m') : ReflTransGen (Step dag.edges sp) m m' := by
  induction h with
  | refl => exact .refl
  | tail _ hs ih => exact ih.tail (.work _ _ hs)

/-- `m` is at the end of a layer, with all of its tasks clean and no layer left, or with a task that panicked and the
final state `s` of `run` at least as far. -/
structure Stops (dag : DagRunner Val) (sp : Spawner Val) (k : Nat) (m : Machine Val) (s : RunState Val) : Prop where
  inv : m.Inv dag k
  scheduled : m.Scheduled dag
  idle : m.Idle
  grows : m.state.Grows s
  error : m.state.firstError.isSome → s = m.state
  clean : m.Clean dag k → s = m.state ∧ m.rest = []
  honest : sp.Honest → m.state.firstError = none → m.Clean dag k

theorem Inv.valid_rest (hw : dag.Wired) (h : m.Inv dag k) {s : RunState Val} (hs : s.nodes.length = dag.nodes.length) :
    ∀ layer ∈ m.rest, ∀ id ∈ layer, s.Valid dag id := by
  intro layer hl id hid
  have hmem : id ∈ m.rest.flatten := List.mem_flatten.mpr ⟨layer, hl, hid⟩
  obtain ⟨j, -, hat⟩ := (h.rest.mem_flatten id).mp hmem
  exact RunState.valid_of_atDepth hw hat hs

/-- **The loop over the layers is a run of the machine**, up to the end of the first layer with a task that panics. -/
theorem Inv.runLayers (hw : dag.Wired) (hsp : sp.PassesResults) (co : CompletionOrder Val)
    (rest : List (List NodeId)) : ∀ (k : Nat) (m : Machine Val), m.Inv dag k → m.Scheduled dag → m.pending = m.layer →
    m.inFlight = [] → m.ready = [] → m.rest = rest → m.state.nodes.length = dag.nodes.length →
    ∃ m' k' s, RunState.runLayers (RunState.runLayer sp co dag.edges) (m.layer :: rest) m.state = .ok s ∧
      ReflTransGen (Step dag.edges sp) m m' ∧ m'.Stops dag sp k' s := by
  induction rest with
  | nil =>
    intro k m h hsch hp hf hr hrest hlen
    obtain ⟨s, hs, hworks⟩ := h.runLayer hw hsp co hp hf hr
    have hbusy : m.busy = m.layer := by rw [busy, hp, hf, hr]; simp
    refine ⟨_, k, s, ?_, steps_of_works hworks, h.works hw hsp hworks, hsch.works hw hsp h hworks,
      ⟨rfl, rfl, rfl⟩, .refl s, fun _ => rfl,
      fun _ => ⟨rfl, hrest⟩, fun hhon => h.clean_works hw hhon (fun _ => h.clean_of_busy hbusy) hworks⟩
    rw [RunState.runLayers, hs]
    exact ite_self _
  | cons layer rest ih =>
    intro k m h hsch hp hf hr hrest hlen
    obtain ⟨s, hs, hworks⟩ := h.runLayer hw hsp co hp hf hr
    have hinv := h.works hw hsp hworks
    have hbusy : m.busy = m.layer := by rw [busy, hp, hf, hr]; simp
    have hhonest := fun hhon : sp.Honest => h.clean_works hw hhon (fun _ => h.clean_of_busy hbusy) hworks
    have hsch₁ := hsch.works hw hsp h hworks
    set m₁ : Machine Val := { m with state := s, pending := [], inFlight := [], ready := [] }
    have hidle : m₁.Idle := ⟨rfl, rfl, rfl⟩
    have hlen₁ : s.nodes.length = dag.nodes.length := by
      obtain ⟨s₁, hs₁, hg⟩ := RunState.runLayer_total sp co m.layer m.state fun id hid =>
        RunState.valid_of_atDepth hw ((h.mem_layer id).mp hid) hlen
      rw [hs] at hs₁
      cases hs₁
      rw [hg.nodes, hlen]
    have hvalid := h.valid_rest hw hlen₁
    rw [hrest] at hvalid
    obtain ⟨s', hs', hg⟩ := RunState.runLayers_total sp co (layer :: rest) s hvalid
    have hrun : RunState.runLayers (RunState.runLayer sp co dag.edges) (m.layer :: layer :: rest) m.state =
        if s.firstError.isSome then .ok s
        else RunState.runLayers (RunState.runLayer sp co dag.edges) (layer :: rest) s := by
      rw [RunState.runLayers, hs]
    rw [hrun]
    by_cases hclean : m₁.Clean dag k
    · -- no error: the next layer
      have hnone : s.firstError = none := hinv.no_error hclean
      obtain ⟨m', k', s'', hs'', hsteps, hstop⟩ := ih (k + 1) _ (hinv.next hidle hclean hrest)
        ⟨hsch₁.justified, hsch₁.spawned, hsch₁.reported⟩ rfl rfl rfl rfl hlen₁
      have hnext : Step dag.edges sp m₁ _ := .next m₁ layer rest hidle hnone hrest
      refine ⟨m', k', s'', ?_, (steps_of_works hworks).trans (.head hnext hsteps), hstop⟩
      rw [hnone]
      exact hs''
    · by_cases hsome : s.firstError.isSome
      · refine ⟨m₁, k, s, if_pos hsome, steps_of_works hworks, hinv, hsch₁, hidle, .refl s, fun _ => rfl,
          fun hc => absurd hc hclean, hhonest⟩
      · refine ⟨m₁, k, s', ?_, steps_of_works hworks, hinv, hsch₁, hidle, hg, fun he => absurd he hsome,
          fun hc => absurd hc hclean, hhonest⟩
        rw [if_neg hsome, hs']

end Machine

/-- **The final state of `run`**: for every iteration order, completion order and spawner that passes results through,
`run` returns, and its final state is that of a machine that stopped. -/
theorem DagRunner.Wired.finalState {dag : DagRunner Val} (hw : dag.Wired) {sp : Spawner Val} (hsp : sp.PassesResults)
    (it : IterOrder) (co : CompletionOrder Val) :
    ∃ (s : RunState Val) (m : Machine Val) (k : Nat),
      dag.finalState it sp co = some (.ok (.ok s)) ∧ m.Reachable dag it sp ∧ m.Stops dag sp k s := by
  obtain ⟨layers, hrun, hlayers⟩ := hw.computeLayers it
  have hinit : (Machine.init dag layers).Reachable dag it sp := .of_init ⟨layers, hrun, rfl⟩
  have hinv := Machine.inv_init hlayers
  have hfinal : dag.finalState it sp co =
      some ((RunState.runLayers (RunState.runLayer sp co dag.edges) layers dag.initState).map .ok) := by
    rw [DagRunner.finalState, finalStateWith, hrun]
  cases layers with
  | nil =>
    exact ⟨dag.initState, _, 0, hfinal, hinit, hinv, Machine.scheduled_init dag [], ⟨rfl, rfl, rfl⟩, .refl _,
      fun _ => rfl, fun _ => ⟨rfl, rfl⟩, fun _ _ => hinv.clean_of_busy rfl⟩
  | cons layer rest =>
    obtain ⟨m, k, s, hs, hsteps, hstop⟩ := hinv.runLayers hw hsp co rest 0 _
      (Machine.scheduled_init dag (layer :: rest)) rfl rfl rfl rfl rfl
    refine ⟨s, m, k, ?_, ?_, hstop⟩
    · have hs : RunState.runLayers (RunState.runLayer sp co dag.edges) (layer :: rest) dag.initState = .ok s := hs
      rw [hfinal, hs]
      rfl
    · obtain ⟨m₀, h₀, hr⟩ := hinit
      exact ⟨m₀, h₀, hr.trans hsteps⟩

/-! ## The end of a run -/

/-- The final state of a run whose last layer was at depth `k`: exactly the nodes up to that layer were started,
completed and handled. Either no task panics at all, or the least depth of one that does is `k`. -/
structure RunState.Final (dag : DagRunner Val) (k : Nat) (s : RunState Val) : Prop where
  inv : s.Inv dag {n | Ready dag.deps (k + 1) n} {n | Ready dag.deps (k + 1) n} {n | Ready dag.deps (k + 1) n} []
  below : ∀ n, Ready dag.deps k n → ∃ v, dag.Evals n (.ok v)
  outcome : s.firstError = none ∧ (∀ n j, Ready dag.deps j n → Ready dag.deps (k + 1) n ∧ ∃ v, dag.Evals n (.ok v)) ∨
    s.firstError.isSome ∧ ∃ n p, AtDepth dag.deps k n ∧ dag.Evals n (.error p)

namespace Machine

variable {dag : DagRunner Val} {k : Nat} {m : Machine Val} {s : RunState Val}

theorem Inv.run_of_idle (h : m.Inv dag k) (hidle : m.Idle) :
    m.state.Inv dag {n | Ready dag.deps (k + 1) n} {n | Ready dag.deps (k + 1) n} {n | Ready dag.deps (k + 1) n} [] := by
  have hrun := h.run
  have hstarted : m.Started dag k = {n | Ready dag.deps (k + 1) n} := by
    ext n
    simp [Started, hidle.1]
  have hcompleted : m.Completed dag k = {n | Ready dag.deps (k + 1) n} := by
    ext n
    simp [Completed, hidle.1, hidle.2.1]
  have hsettled : m.Settled dag k = {n | Ready dag.deps (k + 1) n} := by
    ext n
    simp [Settled, hidle.busy]
  rwa [hstarted, hcompleted, hsettled, hidle.2.1] at hrun

theorem Inv.exists_panic (h : m.Inv dag k) (hidle : m.Idle) (hclean : ¬ m.Clean dag k) :
    ∃ n p, AtDepth dag.deps k n ∧ dag.Evals n (.error p) := by
  have hrun := h.run_of_idle hidle
  unfold Clean at hclean
  push Not at hclean
  obtain ⟨n, hn, hno⟩ := hclean
  obtain ⟨o, ho⟩ := mem_completed_iff.mp ((hrun.mem_completed n).mpr hn.1)
  obtain ⟨r, hr, -⟩ := hrun.complete_evals n o ho
  cases r with
  | ok v => exact absurd hr (hno v)
  | error p =>
    refine ⟨n, p, ⟨hn.1, fun hready => ?_⟩, hr⟩
    obtain ⟨v, hv⟩ := h.below n hready
    exact hno v hv

theorem Stops.all_ok {sp : Spawner Val} (h : m.Stops dag sp k s) (hclean : m.Clean dag k) {n : NodeId} {j : Nat}
    (hn : Ready dag.deps j n) : Ready dag.deps (k + 1) n ∧ ∃ v, dag.Evals n (.ok v) := by
  have hrest := h.inv.rest
  rw [(h.clean hclean).2] at hrest
  have hready : Ready dag.deps (k + 1) n := hrest.ready hn
  exact ⟨hready, hclean n ⟨hready, by rw [h.idle.busy]; exact List.not_mem_nil⟩⟩

end Machine

theorem DagRunner.run_eq {dag : DagRunner Val} {it : IterOrder} {sp : Spawner Val} {co : CompletionOrder Val}
    {s : RunState Val} (h : dag.finalState it sp co = some (.ok (.ok s))) : dag.run it sp co = some (.ok s.result) := by
  rw [DagRunner.run, h]
  rfl

/-- **With an honest spawner `run` stops after the first layer with a task that panics.** -/
theorem DagRunner.Wired.final {dag : DagRunner Val} (hw : dag.Wired) {sp : Spawner Val} (hsp : sp.Honest)
    (it : IterOrder) (co : CompletionOrder Val) :
    ∃ s k, dag.finalState it sp co = some (.ok (.ok s)) ∧ s.Final dag k ∧
      ∃ m : Machine Val, m.Reachable dag it sp ∧ m.Idle ∧ m.state = s := by
  obtain ⟨s, m, k, hs, hreach, hstop⟩ := hw.finalState hsp.1 it co
  have hstate : s = m.state := by
    cases he : m.state.firstError with
    | none => exact (hstop.clean (hstop.honest hsp he)).1
    | some e => exact hstop.error (by rw [he]; rfl)
  subst hstate
  refine ⟨m.state, k, hs, ⟨hstop.inv.run_of_idle hstop.idle, hstop.inv.below, ?_⟩, m, hreach, hstop.idle, rfl⟩
  by_cases hclean : m.Clean dag k
  · exact Or.inl ⟨hstop.inv.no_error hclean, fun n j hn => hstop.all_ok hclean hn⟩
  · refine Or.inr ⟨?_, hstop.inv.exists_panic hstop.idle hclean⟩
    rw [Option.isSome_iff_ne_none]
    exact fun he => hclean (hstop.honest hsp he)

end Dagx
