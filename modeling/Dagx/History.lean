import Dagx.Lib.System
import Dagx.Progress

/-!
# The history of the machine

What the history of a run says at every moment, under any interleaving:

* `Justified`: a task is started after everything below it completed and was stored; a result is handled after its task
  completed and every task of its layer was started;
* `Machine.Scheduled`: every entry of the history is justified; the tasks handed to the spawner are those started that are
  not alone at their depth; a panic of a task that was not handed to the spawner is reported under its id and message;
* `Scheduled.work`: kept by every step inside a layer, whatever the spawner does with panics.
-/

namespace Dagx

open Layering System

variable {Ty : Type} [Preorder Ty] {Val : Ty → Type}

/-- What holds of an entry of the history and the entries before it. -/
def Justified (dag : DagRunner Val) (pre : List (Event Val)) : Event Val → Prop
  | .start id _ => ∀ d j, Path dag.deps id (j + 1) d → ∃ a, .complete d (.ok (.ok a)) ∈ pre ∧ .consume d (.ok a) ∈ pre
  | .complete _ _ => True
  | .consume id _ => id ∈ completed pre ∧ ∀ k n, AtDepth dag.deps k id → AtDepth dag.deps k n → n ∈ started pre

theorem exists_ne_of_length_ne_one {l : List NodeId} (hnodup : l.Nodup) (hlen : l.length ≠ 1) {n : NodeId}
    (hn : n ∈ l) : ∃ d ∈ l, d ≠ n := by
  match l with
  | [] => simp at hn
  | [a] => exact absurd rfl hlen
  | a :: b :: l =>
    have hab : a ≠ b := by
      intro he
      rw [List.nodup_cons] at hnodup
      apply hnodup.1
      rw [he]
      exact List.mem_cons_self
    by_cases ha : a = n
    · exact ⟨b, by simp, fun hb => hab (ha.trans hb.symm)⟩
    · exact ⟨a, by simp, ha⟩

namespace Machine

/-- What the history and the record of the tasks handed to the spawner say. -/
structure Scheduled (dag : DagRunner Val) (m : Machine Val) : Prop where
  justified : Always (Justified dag) m.state.log
  spawned : ∀ n, n ∈ m.state.spawned ↔
    n ∈ started m.state.log ∧ ∃ j d, AtDepth dag.deps j n ∧ AtDepth dag.deps j d ∧ d ≠ n
  reported : ∀ n p, .complete n (.error p) ∈ m.state.log → n ∉ m.state.spawned → n ∈ m.ready.map InFlight.id ∨
    .consume n (.error (.TaskPanicked n.val (panicMessage p))) ∈ m.state.log ∧ m.state.firstError.isSome

theorem scheduled_init (dag : DagRunner Val) (layers : List (List NodeId)) : (init dag layers).Scheduled dag := by
  have hstate : (init dag layers).state = dag.initState := by cases layers <;> rfl
  refine ⟨?_, fun n => ?_, fun n p hm => ?_⟩
  · rw [hstate]
    exact always_nil _
  · rw [hstate]
    constructor
    · intro hn
      cases hn
    · rintro ⟨hn, -⟩
      cases hn
  · rw [hstate] at hm
    cases hm

theorem mem_spawned_handOver {layer : List NodeId} {id n : NodeId} {s : RunState Val} :
    n ∈ (handOver layer id s).spawned ↔ n ∈ s.spawned ∨ n = id ∧ layer.length ≠ 1 := by
  unfold handOver
  split_ifs with hone
  · simp [hone]
  · simp [hone]

variable [DecidableEq Ty]

variable {dag : DagRunner Val} {sp : Spawner Val} {k : Nat} {m m' : Machine Val}

theorem Inv.below_mem_log (h : m.Inv dag k) {n d : NodeId} {j : Nat} (hn : AtDepth dag.deps k n)
    (hp : Path dag.deps n (j + 1) d) :
    ∃ a, .complete d (.ok (.ok a)) ∈ m.state.log ∧ .consume d (.ok a) ∈ m.state.log := by
  have hready := hn.path_ready hp
  have hsettled := h.settled_of_ready hready
  obtain ⟨v, hv⟩ := h.below d hready
  have hcompleted := h.run.settled_sub hsettled
  exact ⟨⟨d, v⟩, h.run.complete_mem hcompleted hv, h.run.consumed d hsettled v hv⟩

theorem Inv.length_ne_one_iff (h : m.Inv dag k) {n : NodeId} (hn : AtDepth dag.deps k n) :
    m.layer.length ≠ 1 ↔ ∃ j d, AtDepth dag.deps j n ∧ AtDepth dag.deps j d ∧ d ≠ n := by
  have hmem := (h.mem_layer n).mpr hn
  constructor
  · intro hne
    obtain ⟨d, hd, hdn⟩ := exists_ne_of_length_ne_one h.layer_nodup hne hmem
    exact ⟨k, d, hn, (h.mem_layer d).mp hd, hdn⟩
  · rintro ⟨j, d, hj, hd, hdn⟩ hone
    obtain rfl := hj.unique hn
    obtain ⟨a, hlayer⟩ := List.length_eq_one_iff.mp hone
    have hd' := (h.mem_layer d).mpr hd
    rw [hlayer, List.mem_singleton] at hmem hd'
    exact hdn (hd'.trans hmem.symm)

theorem Scheduled.start (hw : dag.Wired) (h : m.Inv dag k) (hsch : m.Scheduled dag) {id : NodeId}
    {pending : List NodeId} {f : InFlight Val} {s : RunState Val} (hp : m.pending = id :: pending)
    (hs : m.state.start dag.edges id = .ok (some f, s)) :
    { m with state := handOver m.layer id s, pending := pending, inFlight := m.inFlight ++ [f] }.Scheduled dag := by
  obtain ⟨node, dependencies, s', hs', -, -, hlog, herr, hspawned⟩ := h.start_spec hw hp
  rw [hs'] at hs
  cases hs
  have hat := h.atDepth_of_busy (mem_busy.mpr (Or.inl (by simp [hp] : id ∈ m.pending)))
  have hlog' : (handOver m.layer id s).log = m.state.log ++ [.start id dependencies] := by rw [log_handOver, hlog]
  have hspawned' : ∀ n, n ∈ (handOver m.layer id s).spawned ↔ n ∈ m.state.spawned ∨ n = id ∧ m.layer.length ≠ 1 := by
    intro n
    rw [mem_spawned_handOver, hspawned]
  refine ⟨?_, fun n => ?_, fun n p hm hn => ?_⟩
  · show Always _ (handOver m.layer id s).log
    rw [hlog', always_append_singleton]
    refine ⟨hsch.justified, fun d j hpath => ?_⟩
    exact h.below_mem_log hat hpath
  · show n ∈ (handOver m.layer id s).spawned ↔ n ∈ started (handOver m.layer id s).log ∧ _
    rw [hspawned', hlog', started_append, started_start, List.mem_append, List.mem_singleton, hsch.spawned n,
      h.length_ne_one_iff hat]
    constructor
    · rintro (⟨hn, hother⟩ | ⟨rfl, hother⟩)
      · exact ⟨Or.inl hn, hother⟩
      · exact ⟨Or.inr rfl, hother⟩
    · rintro ⟨hn | rfl, hother⟩
      · exact Or.inl ⟨hn, hother⟩
      · exact Or.inr ⟨rfl, hother⟩
  · show n ∈ m.ready.map InFlight.id ∨ _ ∈ (handOver m.layer id s).log ∧ (handOver m.layer id s).firstError.isSome
    have hm : .complete n (.error p) ∈ (handOver m.layer id s).log := hm
    rw [hlog'] at hm ⊢
    rw [firstError_handOver, herr]
    rcases List.mem_append.mp hm with hm | hm
    · rcases hsch.reported n p hm (fun hin => hn ((hspawned' n).mpr (Or.inl hin))) with hready | ⟨hconsumed, hsome⟩
      · exact Or.inl hready
      · exact Or.inr ⟨List.mem_append_left _ hconsumed, hsome⟩
    · cases List.mem_singleton.mp hm

theorem Scheduled.complete (hsch : m.Scheduled dag) {l r : List (InFlight Val)} {f : InFlight Val} :
    { m with state := m.state.complete f, inFlight := l ++ r, ready := m.ready ++ [f] }.Scheduled dag := by
  refine ⟨?_, fun n => ?_, fun n p hm hn => ?_⟩
  · show Always _ (m.state.log ++ [.complete f.id f.outcome])
    rw [always_append_singleton]
    exact ⟨hsch.justified, trivial⟩
  · show n ∈ m.state.spawned ↔ n ∈ started (m.state.log ++ [.complete f.id f.outcome]) ∧ _
    rw [started_append, started_complete, List.append_nil]
    exact hsch.spawned n
  · show n ∈ (m.ready ++ [f]).map InFlight.id ∨ _ ∈ m.state.log ++ [.complete f.id f.outcome] ∧ _
    have hm : .complete n (.error p) ∈ m.state.log ++ [.complete f.id f.outcome] := hm
    rcases List.mem_append.mp hm with hm | hm
    · rcases hsch.reported n p hm hn with hready | ⟨hconsumed, hsome⟩
      · exact Or.inl (by rw [List.map_append]; exact List.mem_append_left _ hready)
      · exact Or.inr ⟨List.mem_append_left _ hconsumed, hsome⟩
    · obtain ⟨rfl, -⟩ := Event.complete.inj (List.mem_singleton.mp hm)
      exact Or.inl (by simp)

theorem Inv.result_of_not_spawned (sp : Spawner Val) (h : m.Inv dag k) (hsch : m.Scheduled dag)
    {l r : List (InFlight Val)} {f : InFlight Val} (hf : m.ready = l ++ f :: r) {p : Payload}
    (hm : .complete f.id (.error p) ∈ m.state.log) (hn : f.id ∉ m.state.spawned) :
    result sp m.layer f = .error (.TaskPanicked f.id.val (panicMessage p)) := by
  have hat : AtDepth dag.deps k f.id := h.atDepth_of_busy (mem_busy.mpr (Or.inr (Or.inr (by simp [hf]))))
  have hone : m.layer.length = 1 := by
    by_contra hne
    have hstarted := (h.run.mem_started f.id).mpr (h.run.completed_sub (h.completed_of_ready hf))
    exact hn ((hsch.spawned f.id).mpr ⟨hstarted, (h.length_ne_one_iff hat).mp hne⟩)
  have hout : f.outcome = .error p := by
    obtain ⟨res, hres, hp⟩ := h.run.complete_evals f.id _ hm
    rw [(h.ready_launched f (by simp [hf])).outcome hres, ← hp]
  rw [result, if_pos hone, inlineResult, hout]

theorem Scheduled.consume (h : m.Inv dag k) (hsch : m.Scheduled dag) {l r : List (InFlight Val)} {f : InFlight Val}
    (hp : m.pending = []) (hf : m.ready = l ++ f :: r) :
    { m with state := m.state.consume f.id (result sp m.layer f), ready := l ++ r }.Scheduled dag := by
  have hat : AtDepth dag.deps k f.id := h.atDepth_of_busy (mem_busy.mpr (Or.inr (Or.inr (by simp [hf]))))
  have hlog := m.state.log_consume f.id (result sp m.layer f)
  have hspawned : (m.state.consume f.id (result sp m.layer f)).spawned = m.state.spawned := by
    cases result sp m.layer f <;> rfl
  refine ⟨?_, fun n => ?_, fun n p hm hn => ?_⟩
  · show Always _ (m.state.consume f.id (result sp m.layer f)).log
    rw [hlog, always_append_singleton]
    refine ⟨hsch.justified, (h.run.mem_completed f.id).mpr (h.completed_of_ready hf), fun j n hj hn => ?_⟩
    -- nothing of the layer is left to be started
    rw [hj.unique hat] at hn
    apply (h.run.mem_started n).mpr
    refine ⟨hn.1, ?_⟩
    rw [hp]
    exact List.not_mem_nil
  · show n ∈ (m.state.consume f.id (result sp m.layer f)).spawned ↔
      n ∈ started (m.state.consume f.id (result sp m.layer f)).log ∧ _
    rw [hspawned, hlog, started_append, started_consume, List.append_nil]
    exact hsch.spawned n
  · have hm : .complete n (.error p) ∈ (m.state.consume f.id (result sp m.layer f)).log := hm
    have hn : n ∉ (m.state.consume f.id (result sp m.layer f)).spawned := hn
    show n ∈ (l ++ r).map InFlight.id ∨ _ ∈ (m.state.consume f.id (result sp m.layer f)).log ∧
      (m.state.consume f.id (result sp m.layer f)).firstError.isSome
    rw [hspawned] at hn
    rw [hlog] at hm ⊢
    rw [RunState.firstError_consume]
    have hm : .complete n (.error p) ∈ m.state.log := by
      rcases List.mem_append.mp hm with hm | hm
      · exact hm
      · cases List.mem_singleton.mp hm
    rcases hsch.reported n p hm hn with hready | ⟨hconsumed, hsome⟩
    · by_cases hnf : n = f.id
      · subst hnf
        rw [h.result_of_not_spawned sp hsch hf hm hn]
        exact Or.inr ⟨List.mem_append_right _ (List.mem_singleton.mpr rfl), by simp⟩
      · rw [hf] at hready
        refine Or.inl ?_
        simp only [List.map_append, List.map_cons, List.mem_append, List.mem_cons] at hready ⊢
        rcases hready with hl | he | hr
        · exact Or.inl hl
        · exact absurd he hnf
        · exact Or.inr hr
    · refine Or.inr ⟨List.mem_append_left _ hconsumed, ?_⟩
      obtain ⟨e, he⟩ := Option.isSome_iff_exists.mp hsome
      rw [he]
      rfl

/-- **Every step inside a layer keeps the history in order**, whatever the spawner does with panics. -/
theorem Scheduled.work (hw : dag.Wired) (h : m.Inv dag k) (hsch : m.Scheduled dag) (hs : Work dag.edges sp m m') :
    m'.Scheduled dag := by
  cases hs with
  | start id pending f s hp hs => exact hsch.start hw h hp hs
  | skip id pending s hp hs =>
    obtain ⟨_, _, _, hs', -⟩ := h.start_spec hw hp
    rw [hs'] at hs
    cases hs
  | complete l r f hf => exact hsch.complete
  | consume l r f hp hf => exact hsch.consume h hp hf

end Machine

end Dagx
