import Dagx.Outcome

/-!
# Waiting for a layer

`run` awaits all tasks of a layer before it starts one of the next.

* `Machine.Suspended`, `Machine.Eager`: `run` awaits a future in flight with every result handled; every task whose
  dependencies have completed was started;
* `Inv.waiting_depth`: a ready task that was not started is in the next layer, so the current one is in flight as a whole;
* `Machine.exists_waiting`: a task that does not depend on some task of the layer before can be made to wait for it;
* `WellWired.ready_started`: a layered schedule is eager within its layers, and over all of the graph exactly when every
  task depends on all tasks of the layer before its own;
* `not_eager`: a task that waits for a task it does not depend on.
-/

namespace Dagx

open Layering DagRunner Relation

variable {Ty : Type} [Preorder Ty] {Val : Ty → Type}

namespace Machine

/-- `run` awaits a future in flight and has handled every result so far. -/
def Suspended (m : Machine Val) : Prop := m.pending = [] ∧ m.inFlight ≠ [] ∧ m.ready = []

def DepsCompleted (dag : DagRunner Val) (m : Machine Val) (n : NodeId) : Prop :=
  ∀ d ∈ dag.edgesOf n, d ∈ completed m.state.log

/-- Every task whose dependencies have all completed was started. -/
def Eager (dag : DagRunner Val) (m : Machine Val) : Prop :=
  ∀ n : NodeId, n.index < dag.nodes.length → m.DepsCompleted dag n → n ∈ started m.state.log

variable [DecidableEq Ty] {dag : DagRunner Val} {sp : Spawner Val} {k : Nat} {m : Machine Val}

theorem Inv.not_completed_of_inFlight (h : m.Inv dag k) {n : NodeId} (hn : n ∈ m.inFlight.map InFlight.id) :
    n ∉ completed m.state.log := by
  intro hmem
  exact ((h.run.mem_completed n).mp hmem).2.2 hn

/-- A task whose dependencies have completed, but was not started, is in the next layer. -/
theorem Inv.waiting_depth (h : m.Inv dag k) (hp : m.pending = []) {n : NodeId} {ds : List NodeId}
    (hds : dag.deps n = some ds) (hcompleted : ∀ d ∈ ds, d ∈ completed m.state.log)
    (hnot : n ∉ started m.state.log) : AtDepth dag.deps (k + 1) n := by
  refine ⟨⟨ds, hds, fun d hd => ?_⟩, fun hready => hnot ?_⟩
  · exact ((h.run.mem_completed d).mp (hcompleted d hd)).1
  · apply (h.run.mem_started n).mpr
    refine ⟨hready, ?_⟩
    rw [hp]
    exact List.not_mem_nil

/-! ## Reaching a layer -/

theorem exists_layer_start (hw : dag.Wired) (hsp : sp.PassesResults) (hno : ∀ n p, ¬ dag.Evals n (.error p))
    (it : IterOrder) (k : Nat) : ∀ n, AtDepth dag.deps k n → ∃ m : Machine Val, m.Reachable dag it sp ∧ m.Inv dag k ∧
      m.pending = m.layer ∧ m.inFlight = [] ∧ m.ready = [] := by
  induction k with
  | zero =>
    intro n _
    obtain ⟨layers, hrun, hlayers⟩ := hw.computeLayers it
    refine ⟨init dag layers, .of_init ⟨layers, hrun, rfl⟩, inv_init hlayers, ?_⟩
    cases layers with
    | nil => exact ⟨rfl, rfl, rfl⟩
    | cons layer rest => exact ⟨rfl, rfl, rfl⟩
  | succ k ih =>
    intro n hn
    obtain ⟨ds, hds, -, d, hd, hat⟩ := atDepth_succ_iff.mp hn
    obtain ⟨m, hreach, hinv, hp, hf, hr⟩ := ih d hat
    obtain ⟨s, -, hworks⟩ := hinv.runLayer hw hsp .reversed hp hf hr
    set m₁ : Machine Val := { m with state := s, pending := [], inFlight := [], ready := [] }
    have hinv₁ : m₁.Inv dag k := hinv.works hw hsp hworks
    have hidle : m₁.Idle := ⟨rfl, rfl, rfl⟩
    have hclean : m₁.Clean dag k := by
      by_contra hnot
      obtain ⟨a, p, -, hp⟩ := hinv₁.exists_panic hidle hnot
      exact hno a p hp
    obtain ⟨layer, rest, hrest⟩ : ∃ layer rest, m₁.rest = layer :: rest := by
      apply List.exists_cons_of_ne_nil
      intro hnil
      have hempty := (hinv₁.rest.mem_flatten n).mpr ⟨k + 1, Nat.le_refl _, hn⟩
      rw [hnil] at hempty
      cases hempty
    have hnext : Step dag.edges sp m₁ _ := .next m₁ layer rest hidle (hinv₁.no_error hclean) hrest
    obtain ⟨m₀, h₀, hsteps⟩ := hreach
    exact ⟨_, ⟨m₀, h₀, (hsteps.trans (steps_of_works hworks)).tail hnext⟩, hinv₁.next hidle hclean hrest, rfl, rfl, rfl⟩

/-- In a layer with another task, all tasks but `d` can complete and be handled while `d` stays in flight. -/
theorem exists_last (hw : dag.Wired) (hsp : sp.PassesResults) (h : m.Inv dag k) (hlayer : m.layer.length ≠ 1)
    (hp : m.pending = m.layer) (hf : m.inFlight = []) (hr : m.ready = []) {d : NodeId} (hd : AtDepth dag.deps k d) :
    ∃ m' : Machine Val, ReflTransGen (Work dag.edges sp) m m' ∧ m'.pending = [] ∧ m'.inFlight.map InFlight.id = [d] ∧
      m'.ready = [] := by
  obtain ⟨fs, s, -, hids, hspawn⟩ := h.spawnAll hw hsp m.layer m hlayer hp
  rw [hf, List.nil_append] at hspawn
  set m₁ : Machine Val := { m with state := s, pending := [], inFlight := fs }
  have hmem : d ∈ fs.map InFlight.id := by
    rw [hids, h.mem_layer]
    exact hd
  obtain ⟨f, hfmem, rfl⟩ := List.mem_map.mp hmem
  obtain ⟨l, r, hfs⟩ := List.append_of_mem hfmem
  have hperm : m₁.inFlight.Perm ((l ++ r) ++ [f]) := by
    show fs.Perm _
    rw [hfs]
    exact List.perm_middle.trans (List.perm_append_singleton f (l ++ r)).symm
  obtain ⟨inFlight, hrest, hdrain⟩ := drain_some dag sp (l ++ r) [f] m₁ hlayer rfl hr hperm
  refine ⟨_, hspawn.trans hdrain, rfl, ?_, rfl⟩
  show inFlight.map InFlight.id = [f.id]
  rw [List.perm_singleton.mp hrest]
  rfl

/-- A task that does not depend on some task of the layer before its own can be made to wait for it. -/
theorem exists_waiting (hw : dag.Wired) (hsp : sp.PassesResults) (hno : ∀ n p, ¬ dag.Evals n (.error p)) (it : IterOrder)
    {n d : NodeId} {ds : List NodeId} (hds : dag.deps n = some ds) (hn : AtDepth dag.deps (k + 1) n)
    (hd : AtDepth dag.deps k d) (hnot : d ∉ ds) :
    ∃ m : Machine Val, m.Reachable dag it sp ∧ m.Suspended ∧ (∀ e ∈ ds, e ∈ completed m.state.log) ∧
      n ∉ started m.state.log := by
  obtain ⟨m, hreach, hinv, hp, hf, hr⟩ := exists_layer_start hw hsp hno it k d hd
  -- the task has a dependency in the layer, another than `d`
  have hlayer : m.layer.length ≠ 1 := by
    obtain ⟨ds', hds', -, e, he, hat⟩ := atDepth_succ_iff.mp hn
    obtain rfl : ds = ds' := Option.some.inj (hds.symm.trans hds')
    apply (hinv.length_ne_one_iff hd).mpr
    exact ⟨k, e, hd, hat, fun hed => hnot (hed ▸ he)⟩
  obtain ⟨m', hworks, hp', hf', hr'⟩ := exists_last hw hsp hinv hlayer hp hf hr hd
  have hinv' : m'.Inv dag k := hinv.works hw hsp hworks
  obtain ⟨m₀, h₀, hsteps⟩ := hreach
  refine ⟨m', ⟨m₀, h₀, hsteps.trans (steps_of_works hworks)⟩, ⟨hp', ?_, hr'⟩, fun e he => ?_, fun hstarted => ?_⟩
  · intro hnil
    rw [hnil] at hf'
    cases hf'
  · apply (hinv'.run.mem_completed e).mpr
    refine ⟨hn.1.deps_ready hds e he, ?_, ?_⟩
    · rw [hp']
      exact List.not_mem_nil
    · rw [hf', List.mem_singleton]
      rintro rfl
      exact hnot he
  · exact hn.2 ((hinv'.run.mem_started n).mp hstarted).1

end Machine

namespace Session

variable [DecidableEq Ty] {s : Session Val} {sp : Spawner Val}

theorem WellWired.waiting_depth (hs : s.WellWired) (hsp : sp.Honest) {it : IterOrder} {m : Machine Val}
    (hm : m.Reachable s.dag it sp) (hsus : m.Suspended) {n : NodeId} (hn : n.index < s.dag.nodes.length)
    (hcompleted : m.DepsCompleted s.dag n) (hnot : n ∉ started m.state.log) :
    ∀ d ∈ m.inFlight.map InFlight.id, s.dag.depth n = s.dag.depth d + 1 ∧ d ∉ completed m.state.log ∧
      d.index < s.dag.nodes.length := by
  intro d hd
  obtain ⟨k, hinv, -⟩ := hm.inv (Reachable.inv hs.own hs.small).wired hsp
  have hwaiting := hinv.waiting_depth hsus.1 (hs.own.deps_edgesOf hs.small hn) hcompleted hnot
  have hflight := hinv.atDepth_of_busy (Machine.mem_busy.mpr (Or.inr (Or.inl hd)))
  obtain ⟨-, hdepth⟩ := (hs.own.atDepth_iff hs.small).mp hwaiting
  obtain ⟨hlt, hdepth'⟩ := (hs.own.atDepth_iff hs.small).mp hflight
  exact ⟨by omega, hinv.not_completed_of_inFlight hd, hlt⟩

/-- **The schedule is eager within its layers.** For a well-wired graph whose tasks do not panic, in every reachable state in which
`run` awaits a future in flight and has handled every result so far, each task whose dependencies have completed was
started, unless it is in the layer after that of the tasks in flight. So every task is started as soon as its
dependencies have completed exactly when every task depends on all tasks of the layer before its own. -/
theorem WellWired.ready_started (hs : s.WellWired)
    (hno : ∀ n p, ¬ s.dag.Evals n (.error p)) (hsp : sp.Honest) (it : IterOrder) :
    (∀ m : Machine Val, m.Reachable s.dag it sp → m.Suspended → ∀ n : NodeId, n.index < s.dag.nodes.length →
        m.DepsCompleted s.dag n → n ∈ started m.state.log ∨
          ∀ d ∈ m.inFlight.map InFlight.id, s.dag.depth n = s.dag.depth d + 1) ∧
      ((∀ m : Machine Val, m.Reachable s.dag it sp → m.Suspended → m.Eager s.dag) ↔
        ∀ n d : NodeId, n.index < s.dag.nodes.length → d.index < s.dag.nodes.length →
          s.dag.depth n = s.dag.depth d + 1 → d ∈ s.dag.edgesOf n) := by
  refine ⟨fun m hm hsus n hn hcompleted => ?_, ?_⟩
  · by_cases hstarted : n ∈ started m.state.log
    · exact Or.inl hstarted
    · exact Or.inr fun d hd => (hs.waiting_depth hsp hm hsus hn hcompleted hstarted d hd).1
  · constructor
    · intro heager n d hn hd hdepth
      by_contra hnot
      have hn' : AtDepth s.dag.deps (s.dag.depth d + 1) n := (hs.own.atDepth_iff hs.small).mpr ⟨hn, hdepth⟩
      have hd' : AtDepth s.dag.deps (s.dag.depth d) d := (hs.own.atDepth_iff hs.small).mpr ⟨hd, rfl⟩
      obtain ⟨m, hm, hsus, hcompleted, hwaits⟩ := Machine.exists_waiting (Reachable.inv hs.own hs.small).wired hsp.1
        hno it (hs.own.deps_edgesOf hs.small hn) hn' hd' hnot
      exact hwaits (heager m hm hsus n hn hcompleted)
    · intro hall m hm hsus n hn hcompleted
      by_contra hnot
      obtain ⟨f, hf⟩ := List.exists_mem_of_ne_nil _ hsus.2.1
      obtain ⟨hdepth, hflight, hlt⟩ :=
        hs.waiting_depth hsp hm hsus hn hcompleted hnot f.id (List.mem_map_of_mem hf)
      exact hflight (hcompleted f.id (hall n f.id hn hlt hdepth))

end Session

/-! ## A task that waits -/

namespace Sample

/-- Two sources and a consumer of the first. The layers are `[0, 1]` and `[2]`. -/
def uneven : Session Value :=
  ((sources (value 2)).addTask format).dependsOn ⟨.ofLen 2, [.i32], .string⟩ [.own ⟨.ofLen 0, .i32⟩]

theorem wellWired_sources : (sources (value 2)).WellWired ∧ (sources (value 2)).builder = none := by
  have hnew : (Session.new : Session Value).WellWired := Session.wellWired_new
  have h₀ := hnew.addSource rfl (by decide) (value 2) rfl
  exact h₀.1.addSource h₀.2 (by simp [Session.length_addTask, Session.new, DagRunner.new]) (value 3) rfl

theorem wellWired_uneven : uneven.WellWired :=
  (wellWired_sources.1.addWired wellWired_sources.2
    (by simp [sources, Session.length_addTask, Session.new, DagRunner.new]) format [.own ⟨.ofLen 0, .i32⟩] (by decide) rfl
    (Session.owns_of_mem (by simp [sources, Session.addTask, value, Session.new, DagRunner.new]))).1

theorem plain_uneven : uneven.Plain :=
  ((plain_sources (value 2) rfl).step (.addTask _ format rfl)).step (.dependsOn _ _ _ rfl rfl
    (by simp [sources, Session.addTask, value, format, Session.new, DagRunner.new]))

theorem nonPanicking_uneven (id : NodeId) (task : TypedNode Value) (h : uneven.dag.taskOf id = some task) :
    task.NonPanicking := by
  refine nonPanicking_of_nodes (n := 2) ?_ id task h
  show [some (value 2), some (value 3), some format] ⊆ _
  simp

theorem no_panics_uneven (n : NodeId) (p : Payload) : ¬ uneven.dag.Evals n (.error p) :=
  (plain_uneven.wellTyped wellWired_uneven).no_panics (Session.Reachable.wired wellWired_uneven.own) nonPanicking_uneven n p

theorem depth_session : (session (value 2)).dag.depth (.ofLen 0) = 0 ∧ (session (value 2)).dag.depth (.ofLen 1) = 0 ∧
    (session (value 2)).dag.depth (.ofLen 2) = 1 ∧ (session (value 2)).dag.depth (.ofLen 3) = 2 ∧
      (session (value 2)).dag.depth (.ofLen 4) = 2 := by
  have hs := wellWired_session (value 2) rfl rfl
  have hdepth : ∀ {n : NodeId} {k : Nat}, AtDepth (session (value 2)).dag.deps k n →
      (session (value 2)).dag.depth n = k := fun hat => ((hs.own.atDepth_iff hs.small).mp hat).2
  have hdeps : ∀ n : NodeId, n.index < 5 → (session (value 2)).dag.deps n = some ((session (value 2)).dag.edgesOf n) :=
    fun n hn => hs.own.deps_edgesOf hs.small hn
  have h₀ : AtDepth (session (value 2)).dag.deps 0 (.ofLen 0) := atDepth_zero_iff.mpr (hdeps _ (by decide))
  have h₁ : AtDepth (session (value 2)).dag.deps 0 (.ofLen 1) := atDepth_zero_iff.mpr (hdeps _ (by decide))
  have h₂ : AtDepth (session (value 2)).dag.deps 1 (.ofLen 2) := by
    refine atDepth_succ_iff.mpr ⟨_, hdeps _ (by decide), fun d hd => ?_, .ofLen 0, by decide, h₀⟩
    have hd : d ∈ [NodeId.ofLen 0, .ofLen 1] := hd
    rcases List.mem_pair.mp hd with rfl | rfl
    · exact h₀.1
    · exact h₁.1
  have h₃ : AtDepth (session (value 2)).dag.deps 2 (.ofLen 3) := by
    refine atDepth_succ_iff.mpr ⟨_, hdeps _ (by decide), fun d hd => ?_, .ofLen 2, by decide, h₂⟩
    have hd : d ∈ [NodeId.ofLen 2, .ofLen 2] := hd
    rcases List.mem_pair.mp hd with rfl | rfl
    · exact h₂.1
    · exact h₂.1
  have h₄ : AtDepth (session (value 2)).dag.deps 2 (.ofLen 4) := by
    refine atDepth_succ_iff.mpr ⟨_, hdeps _ (by decide), fun d hd => ?_, .ofLen 2, by decide, h₂⟩
    have hd : d ∈ [NodeId.ofLen 2] := hd
    obtain rfl := List.mem_singleton.mp hd
    exact h₂.1
  exact ⟨hdepth h₀, hdepth h₁, hdepth h₂, hdepth h₃, hdepth h₄⟩

end Sample

/-- The consumer waits for the second source. -/
theorem not_eager : Sample.uneven.WellWired ∧
    (∀ id task, Sample.uneven.dag.taskOf id = some task → task.NonPanicking) ∧
    ∃ m : Machine Sample.Value, m.Reachable Sample.uneven.dag ⟨.stored _, .stored _⟩ .identity ∧ m.Suspended ∧
      m.DepsCompleted Sample.uneven.dag (.ofLen 2) ∧ .ofLen 2 ∉ started m.state.log := by
  have hs := Sample.wellWired_uneven
  have hzero : ∀ n : NodeId, Sample.uneven.dag.deps n = some [] → AtDepth Sample.uneven.dag.deps 0 n := fun n =>
    atDepth_zero_iff.mpr
  have hdeps : Sample.uneven.dag.deps (.ofLen 2) = some [.ofLen 0] := hs.own.deps_edgesOf hs.small (by decide)
  have hn : AtDepth Sample.uneven.dag.deps 1 (.ofLen 2) := by
    refine atDepth_succ_iff.mpr ⟨_, hdeps, fun d hd => ?_, .ofLen 0, List.mem_singleton.mpr rfl, hzero _ rfl⟩
    rw [List.mem_singleton.mp hd]
    exact (hzero _ rfl).1
  obtain ⟨m, hm, hsus, hcompleted, hnot⟩ := Machine.exists_waiting (Session.Reachable.inv hs.own hs.small).wired
    Spawner.identity_passesThrough.honest.1 Sample.no_panics_uneven ⟨.stored _, .stored _⟩ hdeps hn
    (hzero (.ofLen 1) rfl) (by decide)
  exact ⟨hs, Sample.nonPanicking_uneven, m, hm, hsus, hcompleted, hnot⟩

theorem ready_started_sample : (Sample.session (Sample.value 2)).WellWired ∧ ∀ m : Machine Sample.Value,
    m.Reachable (Sample.session (Sample.value 2)).dag ⟨.stored _, .stored _⟩ .identity → m.Suspended →
      m.Eager (Sample.session (Sample.value 2)).dag := by
  have hs := Sample.wellWired_session (Sample.value 2) rfl rfl
  obtain ⟨-, hiff⟩ := Session.WellWired.ready_started hs Sample.no_panics
    Spawner.identity_passesThrough.honest ⟨.stored _, .stored _⟩
  refine ⟨hs, hiff.mpr fun n d hn hd hlayer => ?_⟩
  have hnode : ∀ n : NodeId, n.index < 5 →
      n = .ofLen 0 ∨ n = .ofLen 1 ∨ n = .ofLen 2 ∨ n = .ofLen 3 ∨ n = .ofLen 4 := by
    intro n hn
    simp only [← NodeId.index_inj, NodeId.index_ofLen]
    omega
  obtain ⟨h₀, h₁, h₂, h₃, h₄⟩ := Sample.depth_session
  rcases hnode n hn with rfl | rfl | rfl | rfl | rfl <;> rcases hnode d hd with rfl | rfl | rfl | rfl | rfl <;>
    simp only [h₀, h₁, h₂, h₃, h₄] at hlayer <;> first | omega | decide

end Dagx
