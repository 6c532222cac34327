import Dagx.Abstraction

/-!
# The order in which tasks are started, and the number of rounds

* `multiTask layers`: the tasks that go to the spawner, those of the layers that are not a single task;
* `Machine.Ordered`: what was started and handed over, with what waits in the current layer, is what the layers list;
* `Reachable.start_order`: the order does not depend on how tasks complete;
* `Reachable.layers_least`: no fewer rounds run the same tasks.
-/

namespace Dagx

open Layering System DagRunner

variable {Ty : Type} [Preorder Ty] {Val : Ty → Type}

/-- The tasks of the layers that are not a single task. -/
def multiTask (layers : List (List NodeId)) : List NodeId := (layers.filter fun layer => layer.length ≠ 1).flatten

theorem multiTask_append_singleton (layers : List (List NodeId)) (layer : List NodeId) :
    multiTask (layers ++ [layer]) = multiTask layers ++ if layer.length = 1 then [] else layer := by
  unfold multiTask
  rw [List.filter_append, List.flatten_append]
  by_cases h : layer.length = 1 <;> simp [h]

namespace Machine

/-- The layers begun, in order: what was started and what was handed to the spawner, and what of it is to come. -/
def Ordered (layers : List (List NodeId)) (m : Machine Val) : Prop :=
  ∃ begun, layers = begun ++ m.rest ∧ started m.state.log ++ m.pending = begun.flatten ∧
    m.state.spawned ++ (if m.layer.length = 1 then [] else m.pending) = multiTask begun

theorem ordered_init (dag : DagRunner Val) (layers : List (List NodeId)) : (init dag layers).Ordered layers := by
  cases layers with
  | nil => exact ⟨[], rfl, rfl, rfl⟩
  | cons layer rest =>
    refine ⟨[layer], rfl, (List.append_nil layer).symm, ?_⟩
    exact (multiTask_append_singleton [] layer).symm

variable {dag : DagRunner Val} {sp : Spawner Val} {layers : List (List NodeId)} {m m' : Machine Val}

theorem Ordered.start (h : m.Ordered layers) {id : NodeId} {pending : List NodeId} {s : RunState Val}
    {dependencies : List (Arc Val)} {inFlight : List (InFlight Val)} (hp : m.pending = id :: pending)
    (hlog : s.log = m.state.log ++ [.start id dependencies]) (hspawned : s.spawned = m.state.spawned) :
    { m with state := handOver m.layer id s, pending := pending, inFlight := inFlight }.Ordered layers := by
  obtain ⟨begun, hlayers, hstarted, hmulti⟩ := h
  refine ⟨begun, hlayers, ?_, ?_⟩
  · show started (handOver m.layer id s).log ++ pending = _
    rw [log_handOver, hlog, started_append, started_start, List.append_assoc, ← hstarted, hp]
    rfl
  · show (handOver m.layer id s).spawned ++ (if m.layer.length = 1 then [] else pending) = _
    rw [← hmulti, hp]
    unfold handOver
    split_ifs
    · rw [hspawned]
    · show s.spawned ++ [id] ++ pending = _
      rw [hspawned, List.append_assoc]
      rfl

variable [DecidableEq Ty]

/-- **Every step keeps the order.** -/
theorem Ordered.step (hw : dag.Wired) (htracks : m.Tracks dag) (hinv : ∃ k, m.abs.Inv dag.deps k) (h : m.Ordered layers)
    (hs : Step dag.edges sp m m') : m'.Ordered layers := by
  obtain ⟨k, hinv⟩ := hinv
  cases hs with
  | work m' hwork =>
    cases hwork with
    | start id pending f s hp hs =>
      obtain ⟨node, dependencies, hs', -⟩ := htracks.start_spec hw hinv hp
      rw [hs'] at hs
      cases hs
      exact h.start hp rfl rfl
    | skip id pending s hp hs =>
      obtain ⟨_, _, hs', -⟩ := htracks.start_spec hw hinv hp
      rw [hs'] at hs
      cases hs
    | complete l r f hf =>
      obtain ⟨begun, hlayers, hstarted, hmulti⟩ := h
      refine ⟨begun, hlayers, ?_, hmulti⟩
      show started (m.state.log ++ [.complete f.id f.outcome]) ++ m.pending = _
      rw [started_append, started_complete, List.append_nil, hstarted]
    | consume l r f hp hf =>
      obtain ⟨begun, hlayers, hstarted, hmulti⟩ := h
      refine ⟨begun, hlayers, ?_, ?_⟩
      · show started (m.state.consume f.id (result sp m.layer f)).log ++ m.pending = _
        rw [RunState.log_consume, started_append, started_consume, List.append_nil, hstarted]
      · rw [← hmulti]
        show (m.state.consume f.id (result sp m.layer f)).spawned ++ _ = _
        cases result sp m.layer f <;> rfl
  | next layer rest hidle he hr =>
    obtain ⟨begun, hlayers, hstarted, hmulti⟩ := h
    have hpending := hidle.1
    rw [hpending, List.append_nil] at hstarted
    rw [hpending, ite_self, List.append_nil] at hmulti
    refine ⟨begun ++ [layer], ?_, ?_, ?_⟩
    · rw [hlayers, hr, List.append_assoc]
      rfl
    · show started m.state.log ++ layer = _
      rw [hstarted, List.flatten_append, List.flatten_singleton]
    · show m.state.spawned ++ (if layer.length = 1 then [] else layer) = _
      rw [multiTask_append_singleton, hmulti]

theorem Reachable.ordered (hw : dag.Wired) {it : IterOrder} (h : m.Reachable dag it sp) :
    ∃ layers, dag.computeLayers it = some (.ok (.ok layers)) ∧ m.Ordered layers := by
  obtain ⟨layers, hrun, hlayers⟩ := hw.computeLayers it
  obtain ⟨-, hordered⟩ := System.Reachable.invariant
    (I := fun m : Machine Val => (m.abs.Reachable layers ∧ m.Tracks dag) ∧ m.Ordered layers)
    (by
      rintro m ⟨layers', hrun', rfl⟩
      rw [hrun] at hrun'
      cases hrun'
      exact ⟨tracked_init dag layers, ordered_init dag layers⟩)
    (fun m m' ⟨htracked, hordered⟩ hs =>
      ⟨tracked_step hw hlayers hs htracked, hordered.step hw htracked.2 (htracked.1.inv hlayers) hs⟩) h
  exact ⟨layers, hrun, hordered⟩

end Machine

variable [DecidableEq Ty]

/-- **The order of the starts is fixed in advance**, for every build history and every spawner: in every reachable state
some first layers of those `compute_layers` returned have been begun; tasks were started in the order in which these
list them, up to what still waits in the current one, and those of them that are not alone in their layer, and no
others, were handed to the spawner, in the same order. -/
theorem Session.Reachable.start_order {foreign : TaskHandle Ty → Prop} {s : Session Val} (hs : s.Reachable foreign)
    {it : IterOrder} {sp : Spawner Val} {m : Machine Val} (hm : m.Reachable s.dag it sp) :
    ∃ layers begun, s.dag.computeLayers it = some (.ok (.ok layers)) ∧ layers = begun ++ m.rest ∧
      started m.state.log ++ m.pending = begun.flatten ∧
      m.state.spawned ++ (if m.layer.length = 1 then [] else m.pending) = multiTask begun ∧
      (m.Stopped → m.state.firstError = none →
        started m.state.log = layers.flatten ∧ m.state.spawned = multiTask layers) := by
  obtain ⟨layers, hrun, begun, hlayers, hstarted, hmulti⟩ := hm.ordered (Reachable.wired hs)
  refine ⟨layers, begun, hrun, hlayers, hstarted, hmulti, fun hstop he => ?_⟩
  obtain ⟨⟨hpending, -, -⟩, hend⟩ := hstop
  have hrest : m.rest = [] := hend.resolve_left (by simp [he])
  rw [hrest, List.append_nil] at hlayers
  rw [hpending, List.append_nil] at hstarted
  rw [hpending, ite_self, List.append_nil] at hmulti
  rw [hlayers]
  exact ⟨hstarted, hmulti⟩

theorem Session.start_order_sample : ∃ m : Machine Sample.Value,
    m.Reachable (Sample.session (Sample.value 2)).dag ⟨.stored _, .stored _⟩ .identity ∧ m.Stopped ∧
      ∃ layers begun, (Sample.session (Sample.value 2)).dag.computeLayers ⟨.stored _, .stored _⟩ =
          some (.ok (.ok layers)) ∧ layers = begun ++ m.rest ∧ started m.state.log = begun.flatten := by
  obtain ⟨m, hm, hstop⟩ := Sample.exists_stopped (Sample.value 2) rfl rfl ⟨.stored _, .stored _⟩ .identity
  obtain ⟨layers, begun, hrun, hlayers, hstarted, -⟩ :=
    Session.Reachable.start_order (Sample.wellWired_session (Sample.value 2) rfl rfl).own hm
  rw [hstop.1.1, List.append_nil] at hstarted
  exact ⟨m, hm, hstop, layers, begun, hrun, hlayers, hstarted⟩

/-! ## The number of rounds -/

omit [DecidableEq Ty] in
/-- **No fewer rounds run the same tasks**, for every build history and iteration order: the layers `compute_layers`
returns have every dependency of a task in an earlier layer than the task. Whatever other rounds have this property and
have all the tasks of the layers, there are at least as many, and none has a task earlier than its layer. -/
theorem Session.Reachable.layers_least {foreign : TaskHandle Ty → Prop} {s : Session Val} (hs : s.Reachable foreign)
    (it : IterOrder) :
    ∃ layers, s.dag.computeLayers it = some (.ok (.ok layers)) ∧ Respects (fun n => s.dag.edges.lookup n) layers ∧
      ∀ rounds, Respects (fun n => s.dag.edges.lookup n) rounds → (∀ n ∈ layers.flatten, ∃ i, InRound rounds i n) →
        layers.length ≤ rounds.length ∧ ∀ i j n, InRound layers i n → InRound rounds j n → i ≤ j := by
  obtain ⟨layers, hrun, hlayers⟩ := (Reachable.wired hs).computeLayers it
  have hat : ∀ i n, InRound layers i n ↔ AtDepth s.dag.deps i n := by
    intro i n
    constructor
    · rintro ⟨layer, hlayer, hn⟩
      obtain ⟨-, -, hmem⟩ := hlayers.getElem hlayer
      rw [Nat.zero_add] at hmem
      exact (hmem n).mp hn
    · intro hat
      exact layer_of_atDepth hlayers hat
  refine ⟨layers, hrun, fun i n ds hn hds d hd => ?_, fun rounds hrounds hall => ?_⟩
  · obtain ⟨⟨ds', hds', hready⟩, -⟩ := (hat i n).mp hn
    have hsame := (deps_eq_some.mp hds').1
    have hds : s.dag.edges.lookup n = some ds := hds
    rw [hds] at hsame
    cases hsame
    obtain ⟨j, hlt, hatd⟩ := ready_iff_atDepth.mp (hready d hd)
    exact ⟨j, hlt, (hat j d).mpr hatd⟩
  · have hrespects : Respects s.dag.deps rounds := fun i n ds hn hds => hrounds i n ds hn (deps_eq_some.mp hds).1
    exact ⟨hlayers.length_le hrespects hall, fun i j n hi hj => ((hat i n).mp hi).le_of_inRound hrespects hj⟩

/-- The sample with one task a round: no fewer rounds than layers, and the doubled sum is no earlier. -/
theorem Session.layers_least_sample : ∃ layers,
    (Sample.session (Sample.value 2)).dag.computeLayers ⟨.stored _, .stored _⟩ = some (.ok (.ok layers)) ∧
      layers.length ≤ 5 ∧ ∀ i, InRound layers i (.ofLen 3) → i ≤ 4 := by
  have hown := (Sample.wellWired_session (Sample.value 2) rfl rfl).own
  obtain ⟨layers, hrun, -, hleast⟩ := Session.Reachable.layers_least hown ⟨.stored _, .stored _⟩
  have hcompute : (Sample.session (Sample.value 2)).dag.computeLayers ⟨.stored _, .stored _⟩ =
      some (.ok (.ok [[.ofLen 0, .ofLen 1], [.ofLen 2], [.ofLen 3, .ofLen 4]])) := by decide
  obtain rfl : [[.ofLen 0, .ofLen 1], [.ofLen 2], [.ofLen 3, .ofLen 4]] = layers := by simpa [hcompute] using hrun
  obtain ⟨hlen, hearlier⟩ := hleast [[.ofLen 1], [.ofLen 0], [.ofLen 2], [.ofLen 4], [.ofLen 3]] (by decide) fun n hn => by
    simp only [List.flatten_cons, List.flatten_nil, List.mem_append, List.mem_cons, List.not_mem_nil, or_false] at hn
    rcases hn with (rfl | rfl) | rfl | rfl | rfl
    · exact ⟨1, _, rfl, List.mem_cons_self⟩
    · exact ⟨0, _, rfl, List.mem_cons_self⟩
    · exact ⟨2, _, rfl, List.mem_cons_self⟩
    · exact ⟨4, _, rfl, List.mem_cons_self⟩
    · exact ⟨3, _, rfl, List.mem_cons_self⟩
  exact ⟨_, hrun, hlen, fun i hi => hearlier i 4 _ hi ⟨_, rfl, List.mem_cons_self⟩⟩

end Dagx
