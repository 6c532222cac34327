import Dagx.Lib.Layering
import Dagx.Lib.System
import Mathlib.Algebra.GroupWithZero.Nat

/-!
# A scheduler that works layer by layer

The tasks of a dependency graph are started, complete in any order, and their results are handled in any order; a result
is good or not. The history of a run is a list of `Mark`s.

* `Permits deps`: what a dependency-driven executor may do next: start a task whose dependencies all have good results,
  unless a bad result was handled;
* `Rounds`: a scheduler that knows nothing of dependencies. It is given lists of tasks, starts all of one list, handles
  all of its results, and goes on to the next list if they are good;
* `Reachable.permitted`: given the layers of the graph, **it does only what the dependency-driven executor may do**;
* `Step.work`, `stopped_iff`: each step is one unit of `work`, and only a scheduler that `Stopped` has no step;
* `Reachable.handled`: one that stopped without a bad result has handled every task that is ever ready.
-/

open Layering System

/-- What happens to a task. -/
inductive Mark (α : Type*)
  | start (n : α)
  | complete (n : α)
  | handle (n : α) (good : Bool)

/-- What a dependency-driven executor may do next. -/
def Permits {α : Type*} (deps : α → Option (List α)) (pre : List (Mark α)) : Mark α → Prop
  | .start n =>
    .start n ∉ pre ∧ (∃ ds, deps n = some ds ∧ ∀ d ∈ ds, .handle d true ∈ pre) ∧ ∀ d, .handle d false ∉ pre
  | .complete n => .start n ∈ pre ∧ .complete n ∉ pre
  | .handle n _ => .complete n ∈ pre ∧ ∀ good, .handle n good ∉ pre

/-- A scheduler at work on a list of tasks. -/
structure Rounds (α : Type*) where
  /-- tasks of the list not yet started -/
  pending : List α
  /-- started, not completed -/
  inFlight : List α
  /-- completed, the result not yet handled -/
  ready : List α
  /-- the lists to come -/
  rest : List (List α)
  /-- whether a bad result was handled -/
  failed : Bool
  log : List (Mark α)

namespace Rounds

variable {α : Type*} {deps : α → Option (List α)} {layers : List (List α)} {k : Nat} {r r' : Rounds α}

def init : List (List α) → Rounds α
  | [] => ⟨[], [], [], [], false, []⟩
  | layer :: rest => ⟨layer, [], [], rest, false, []⟩

def Idle (r : Rounds α) : Prop := r.pending = [] ∧ r.inFlight = [] ∧ r.ready = []

def Stopped (r : Rounds α) : Prop := r.Idle ∧ (r.failed = true ∨ r.rest = [])

inductive Step : Rounds α → Rounds α → Prop
  | start (r : Rounds α) (n : α) (pending : List α) (hp : r.pending = n :: pending) :
      Step r { r with pending := pending, inFlight := r.inFlight ++ [n], log := r.log ++ [.start n] }
  | complete (r : Rounds α) (a b : List α) (n : α) (hf : r.inFlight = a ++ n :: b) :
      Step r { r with inFlight := a ++ b, ready := r.ready ++ [n], log := r.log ++ [.complete n] }
  | handle (r : Rounds α) (a b : List α) (n : α) (good : Bool) (hp : r.pending = []) (hf : r.ready = a ++ n :: b) :
      Step r { r with ready := a ++ b, failed := r.failed || !good, log := r.log ++ [.handle n good] }
  | next (r : Rounds α) (layer : List α) (rest : List (List α)) (hidle : r.Idle) (he : r.failed = false)
      (hr : r.rest = layer :: rest) : Step r { r with pending := layer, rest := rest }

def Reachable (layers : List (List α)) (r : Rounds α) : Prop := System.Reachable (· = init layers) Step r

/-! ## Work -/

/-- Three steps for every task not started, two for one in flight, one for a result; one more for every list. -/
def work (r : Rounds α) : Nat :=
  3 * r.pending.length + 2 * r.inFlight.length + r.ready.length + (r.rest.map fun l => 3 * l.length + 1).sum

/-- **Every step is one unit of work.** -/
theorem Step.work (h : Step r r') : r.work = r'.work + 1 := by
  cases h with
  | start n pending hp =>
    simp only [Rounds.work, hp, List.length_cons, List.length_append, List.length_nil]
    omega
  | complete a b n hf =>
    simp only [Rounds.work, hf, List.length_cons, List.length_append, List.length_nil]
    omega
  | handle a b n good hp hf =>
    simp only [Rounds.work, hf, List.length_cons, List.length_append]
    omega
  | next layer rest hidle he hr =>
    obtain ⟨hp, hf, hq⟩ := hidle
    simp only [Rounds.work, hp, hf, hq, hr, List.length_nil, List.map_cons, List.sum_cons]
    omega

theorem work_init (layers : List (List α)) : (init layers).work = 3 * layers.flatten.length + (layers.length - 1) := by
  have hsum : ∀ ls : List (List α), (ls.map fun l => 3 * l.length + 1).sum = 3 * ls.flatten.length + ls.length := by
    intro ls
    induction ls with
    | nil => rfl
    | cons l ls ih =>
      rw [List.map_cons, List.sum_cons, ih, List.flatten_cons, List.length_append, List.length_cons]
      omega
  cases layers with
  | nil => rfl
  | cons layer rest =>
    simp only [work, init, hsum, List.length_nil, List.flatten_cons, List.length_append, List.length_cons]
    omega

/-- **Only a scheduler that stopped has no step.** -/
theorem stopped_iff : r.Stopped ↔ ∀ r', ¬ Step r r' := by
  constructor
  · rintro ⟨⟨hp, hf, hq⟩, hend⟩ r' hs
    cases hs with
    | start n pending hp' => simp [hp] at hp'
    | complete a b n hf' => simp [hf] at hf'
    | handle a b n good _ hq' => simp [hq] at hq'
    | next layer rest _ he hr => simp [he, hr] at hend
  · intro hno
    have hp : r.pending = [] := by
      by_contra hne
      obtain ⟨n, pending, hp⟩ := List.exists_cons_of_ne_nil hne
      exact hno _ (.start r n pending hp)
    have hf : r.inFlight = [] := by
      by_contra hne
      obtain ⟨n, b, hf⟩ := List.exists_cons_of_ne_nil hne
      exact hno _ (.complete r [] b n hf)
    have hq : r.ready = [] := by
      by_contra hne
      obtain ⟨n, b, hq⟩ := List.exists_cons_of_ne_nil hne
      exact hno _ (.handle r [] b n true hp hq)
    refine ⟨⟨hp, hf, hq⟩, ?_⟩
    by_contra hend
    rw [not_or, Bool.not_eq_true] at hend
    obtain ⟨layer, rest, hr⟩ := List.exists_cons_of_ne_nil hend.2
    exact hno _ (.next r layer rest ⟨hp, hf, hq⟩ hend.1 hr)

/-! ## The invariant -/

def busy (r : Rounds α) : List α := r.pending ++ r.inFlight ++ r.ready

theorem mem_busy {n : α} : n ∈ r.busy ↔ n ∈ r.pending ∨ n ∈ r.inFlight ∨ n ∈ r.ready := by
  rw [busy, List.mem_append, List.mem_append, or_assoc]

/-- The current list is the layer at depth `k`, and the history is as far as its tasks are. -/
structure Inv (deps : α → Option (List α)) (k : Nat) (r : Rounds α) : Prop where
  busy_nodup : r.busy.Nodup
  atDepth : ∀ n ∈ r.busy, AtDepth deps k n
  rest : Layered deps (k + 1) r.rest
  start_mem : ∀ n, .start n ∈ r.log ↔ Ready deps (k + 1) n ∧ n ∉ r.pending
  complete_mem : ∀ n, .complete n ∈ r.log ↔ Ready deps (k + 1) n ∧ n ∉ r.pending ∧ n ∉ r.inFlight
  handle_mem : ∀ n, (∃ good, .handle n good ∈ r.log) ↔ Ready deps (k + 1) n ∧ n ∉ r.busy
  below : ∀ n, Ready deps k n → .handle n true ∈ r.log
  /-- while a task waits to be started no bad result has been handled -/
  waiting : r.pending ≠ [] → r.failed = false
  failed : r.failed = true ↔ ∃ n, .handle n false ∈ r.log
  permitted : Always (Permits deps) r.log

theorem Inv.not_failed (h : r.Inv deps k) (he : r.failed = false) (n : α) : .handle n false ∉ r.log := by
  intro hm
  have := h.failed.mpr ⟨n, hm⟩
  rw [he] at this
  cases this

theorem inv_init (h : Layered deps 0 layers) : (init layers).Inv deps 0 := by
  have hmem : (∀ n, n ∈ (init layers).pending ↔ AtDepth deps 0 n) ∧ (init layers).pending.Nodup ∧
      Layered deps 1 (init layers).rest := by
    cases h with
    | nil hnone =>
      refine ⟨fun n => ⟨fun hn => ?_, fun hat => absurd hat (hnone n)⟩, List.nodup_nil,
        .nil (not_atDepth_of_le hnone (Nat.le_succ 0))⟩
      simp [init] at hn
    | cons hne hnodup hmem htail => exact ⟨hmem, hnodup, htail⟩
  have hfields : (init layers).inFlight = [] ∧ (init layers).ready = [] ∧ (init layers).log = [] ∧
      (init layers).failed = false := by
    cases layers <;> exact ⟨rfl, rfl, rfl, rfl⟩
  obtain ⟨hf, hq, hlog, he⟩ := hfields
  have hbusy : (init layers).busy = (init layers).pending := by rw [busy, hf, hq, List.append_nil, List.append_nil]
  have hpending : ∀ n, Ready deps (0 + 1) n → n ∈ (init layers).pending := fun n hn => (hmem.1 n).mpr ⟨hn, id⟩
  refine ⟨by rw [hbusy]; exact hmem.2.1, fun n hn => (hmem.1 n).mp (by rwa [hbusy] at hn), hmem.2.2, fun n => ?_,
    fun n => ?_, fun n => ?_, fun n hn => hn.elim, fun _ => he, ?_, by rw [hlog]; exact always_nil _⟩
  · rw [hlog, iff_false_left List.not_mem_nil]
    exact fun hn => hn.2 (hpending n hn.1)
  · rw [hlog, iff_false_left List.not_mem_nil]
    exact fun hn => hn.2.1 (hpending n hn.1)
  · rw [hlog, hbusy, iff_false_left (fun ⟨_, hn⟩ => List.not_mem_nil hn)]
    exact fun hn => hn.2 (hpending n hn.1)
  · simp [he, hlog]

theorem Inv.start (h : r.Inv deps k) {n : α} {pending : List α} (hp : r.pending = n :: pending) :
    { r with pending := pending, inFlight := r.inFlight ++ [n], log := r.log ++ [Mark.start n] }.Inv deps k := by
  set r' : Rounds α := { r with pending := pending, inFlight := r.inFlight ++ [n], log := r.log ++ [Mark.start n] } with hr'
  have hperm : r.busy.Perm r'.busy := by
    classical
    rw [List.perm_iff_count]
    intro m
    simp only [busy, hr', hp, List.count_append, List.count_cons, List.count_nil]
    omega
  have hat : AtDepth deps k n := h.atDepth n (mem_busy.mpr (Or.inl (by simp [hp])))
  have hnot : n ∉ pending := by
    have := h.busy_nodup
    rw [busy, hp, List.append_assoc, List.cons_append, List.nodup_cons, List.mem_append, not_or] at this
    exact this.1.1
  have he : r.failed = false := h.waiting (by simp [hp])
  refine ⟨hperm.nodup_iff.mp h.busy_nodup, fun m hm => h.atDepth m (hperm.mem_iff.mpr hm), h.rest, fun m => ?_,
    fun m => ?_, fun m => ?_, fun m hm => List.mem_append_left _ (h.below m hm), fun _ => he, ?_, ?_⟩
  · by_cases hm : m = n
    · subst hm
      simp [hr', hat.1, hnot]
    · simp [hr', h.start_mem, hp, hm]
  · simp [hr', h.complete_mem, hp]
    tauto
  · rw [← hperm.mem_iff]
    simp [hr', h.handle_mem]
  · simp [hr', h.failed]
  · refine always_append_singleton.mpr ⟨h.permitted, fun hs => ?_, ?_, h.not_failed he⟩
    · exact ((h.start_mem n).mp hs).2 (by simp [hp])
    · obtain ⟨⟨ds, hds, hready⟩, -⟩ := hat
      exact ⟨ds, hds, fun d hd => h.below d (hready d hd)⟩

theorem Inv.complete (h : r.Inv deps k) {a b : List α} {n : α} (hf : r.inFlight = a ++ n :: b) :
    { r with inFlight := a ++ b, ready := r.ready ++ [n], log := r.log ++ [Mark.complete n] }.Inv deps k := by
  set r' : Rounds α := { r with inFlight := a ++ b, ready := r.ready ++ [n], log := r.log ++ [Mark.complete n] } with hr'
  have hfront : r.busy.Perm (n :: (r.pending ++ (a ++ b) ++ r.ready)) := by
    classical
    rw [List.perm_iff_count]
    intro m
    simp only [busy, hf, List.count_append, List.count_cons]
    omega
  have hperm : r.busy.Perm r'.busy := by
    refine hfront.trans ?_
    show (n :: _).Perm (r.pending ++ (a ++ b) ++ (r.ready ++ [n]))
    rw [← List.append_assoc _ r.ready]
    exact (List.perm_append_singleton n _).symm
  have hat : AtDepth deps k n := h.atDepth n (hfront.mem_iff.mpr List.mem_cons_self)
  have hnot := h.busy_nodup
  rw [hfront.nodup_iff, List.nodup_cons, List.mem_append, List.mem_append, not_or, not_or] at hnot
  refine ⟨hperm.nodup_iff.mp h.busy_nodup, fun m hm => h.atDepth m (hperm.mem_iff.mpr hm), h.rest, fun m => ?_,
    fun m => ?_, fun m => ?_, fun m hm => List.mem_append_left _ (h.below m hm), h.waiting, ?_, ?_⟩
  · simp [hr', h.start_mem]
  · by_cases hm : m = n
    · subst hm
      simp only [hr', List.mem_append, List.mem_singleton, or_true, true_iff]
      exact ⟨hat.1, hnot.1.1.1, by rw [← List.mem_append]; exact hnot.1.1.2⟩
    · simp [hr', h.complete_mem, hf, hm]
  · rw [← hperm.mem_iff]
    simp [hr', h.handle_mem]
  · simp [hr', h.failed]
  · refine always_append_singleton.mpr ⟨h.permitted, ?_, fun hc => ?_⟩
    · exact (h.start_mem n).mpr ⟨hat.1, hnot.1.1.1⟩
    · exact ((h.complete_mem n).mp hc).2.2 (by simp [hf])

theorem Inv.handle (h : r.Inv deps k) {a b : List α} {n : α} (good : Bool) (hp : r.pending = [])
    (hf : r.ready = a ++ n :: b) :
    { r with ready := a ++ b, failed := r.failed || !good, log := r.log ++ [Mark.handle n good] }.Inv deps k := by
  set r' : Rounds α :=
    { r with ready := a ++ b, failed := r.failed || !good, log := r.log ++ [Mark.handle n good] } with hr'
  have hperm : r.busy.Perm (n :: r'.busy) := by
    classical
    rw [List.perm_iff_count]
    intro m
    simp only [busy, hr', hf, List.count_append, List.count_cons]
    omega
  have hnodup := h.busy_nodup
  rw [hperm.nodup_iff, List.nodup_cons] at hnodup
  have hat : AtDepth deps k n := h.atDepth n (hperm.mem_iff.mpr List.mem_cons_self)
  have hmem : ∀ m, m ∈ r.busy ↔ m = n ∨ m ∈ r'.busy := fun m => by rw [hperm.mem_iff, List.mem_cons]
  have hflight : n ∉ r.pending ∧ n ∉ r.inFlight := by
    have := hnodup.1
    rw [mem_busy, not_or, not_or] at this
    exact ⟨this.1, this.2.1⟩
  refine ⟨hnodup.2, fun m hm => h.atDepth m ((hmem m).mpr (Or.inr hm)), h.rest, fun m => ?_, fun m => ?_, fun m => ?_,
    fun m hm => List.mem_append_left _ (h.below m hm), fun hne => absurd hp hne, ?_, ?_⟩
  · simp [hr', h.start_mem]
  · simp [hr', h.complete_mem]
  · have hlog : (∃ g, .handle m g ∈ r'.log) ↔ (∃ g, .handle m g ∈ r.log) ∨ m = n := by
      simp only [hr', List.mem_append, List.mem_singleton, Mark.handle.injEq]
      constructor
      · rintro ⟨g, hg | ⟨rfl, -⟩⟩
        · exact Or.inl ⟨g, hg⟩
        · exact Or.inr rfl
      · rintro (⟨g, hg⟩ | rfl)
        · exact ⟨g, Or.inl hg⟩
        · exact ⟨good, Or.inr ⟨rfl, rfl⟩⟩
    rw [hlog, h.handle_mem, hmem]
    by_cases hm : m = n
    · subst hm
      simp [hat.1, hnodup.1]
    · simp [hm]
  · cases good with
    | true => simp [hr', h.failed]
    | false =>
      simp only [hr', Bool.not_false, Bool.or_true, true_iff]
      exact ⟨n, List.mem_append_right _ (List.mem_singleton.mpr rfl)⟩
  · refine always_append_singleton.mpr ⟨h.permitted, ?_, fun g hg => ?_⟩
    · exact (h.complete_mem n).mpr ⟨hat.1, hflight⟩
    · exact ((h.handle_mem n).mp ⟨g, hg⟩).2 (hperm.mem_iff.mpr List.mem_cons_self)

theorem Inv.good_of_idle (h : r.Inv deps k) (hidle : r.Idle) (he : r.failed = false) {n : α}
    (hn : Ready deps (k + 1) n) : .handle n true ∈ r.log := by
  obtain ⟨hp, hf, hq⟩ := hidle
  have hbusy : n ∉ r.busy := by
    rw [mem_busy, hp, hf, hq]
    simp
  obtain ⟨good, hgood⟩ := (h.handle_mem n).mpr ⟨hn, hbusy⟩
  cases good with
  | true => exact hgood
  | false => exact absurd hgood (h.not_failed he n)

theorem Inv.next (h : r.Inv deps k) (hidle : r.Idle) (he : r.failed = false) {layer : List α} {rest : List (List α)}
    (hr : r.rest = layer :: rest) : { r with pending := layer, rest := rest }.Inv deps (k + 1) := by
  have hgood := fun n (hn : Ready deps (k + 1) n) => h.good_of_idle hidle he hn
  obtain ⟨hp, hf, hq⟩ := hidle
  have hrest := h.rest
  rw [hr] at hrest
  cases hrest with
  | cons hne hnodup hmem htail =>
    set r' : Rounds α := { r with pending := layer, rest := rest } with hr'
    have hbusy' : r'.busy = layer := by simp [busy, hr', hf, hq]
    have hbusy : r.busy = [] := by simp [busy, hp, hf, hq]
    -- what is ready one round later and not in the layer was ready before
    have hiff : ∀ n, Ready deps (k + 1 + 1) n ∧ n ∉ layer ↔ Ready deps (k + 1) n := by
      intro n
      rw [hmem]
      constructor
      · rintro ⟨hn, hnot⟩
        by_contra hno
        exact hnot ⟨hn, hno⟩
      · intro hn
        exact ⟨hn.succ, fun hat => hat.2 hn⟩
    refine ⟨by rwa [hbusy'], fun n hn => (hmem n).mp (by rwa [hbusy'] at hn), htail, fun n => ?_, fun n => ?_,
      fun n => ?_, hgood, fun _ => he, h.failed, h.permitted⟩
    · rw [hiff]
      simp [hr', h.start_mem, hp]
    · show .complete n ∈ r.log ↔ Ready deps (k + 1 + 1) n ∧ n ∉ layer ∧ n ∉ r.inFlight
      rw [← and_assoc, hiff]
      simp [h.complete_mem, hp, hf]
    · rw [hbusy', hiff]
      simp [hr', h.handle_mem, hbusy]

theorem Inv.step (h : ∃ k, r.Inv deps k) (hs : Step r r') : ∃ k, r'.Inv deps k := by
  obtain ⟨k, hinv⟩ := h
  cases hs with
  | start n pending hp => exact ⟨k, hinv.start hp⟩
  | complete a b n hf => exact ⟨k, hinv.complete hf⟩
  | handle a b n good hp hf => exact ⟨k, hinv.handle good hp hf⟩
  | next layer rest hidle he hr => exact ⟨k + 1, hinv.next hidle he hr⟩

/-! ## Every reachable state -/

theorem Reachable.inv (hl : Layered deps 0 layers) (h : r.Reachable layers) : ∃ k, r.Inv deps k := by
  refine System.Reachable.invariant (I := fun r => ∃ k, r.Inv deps k) ?_ (fun _ _ ih hs => Inv.step ih hs) h
  rintro r rfl
  exact ⟨0, inv_init hl⟩

/-- **The scheduler does only what a dependency-driven executor may do.** -/
theorem Reachable.permitted (hl : Layered deps 0 layers) (h : r.Reachable layers) : Always (Permits deps) r.log := by
  obtain ⟨k, hinv⟩ := h.inv hl
  exact hinv.permitted

theorem Reachable.handled (hl : Layered deps 0 layers) (h : r.Reachable layers) (hstop : r.Stopped)
    (he : r.failed = false) {n : α} {j : Nat} (hn : Ready deps j n) : .handle n true ∈ r.log := by
  obtain ⟨k, hinv⟩ := h.inv hl
  obtain ⟨hidle, hend⟩ := hstop
  have hrest := hinv.rest
  rw [hend.resolve_left (by simp [he])] at hrest
  exact hinv.good_of_idle hidle he (hrest.ready hn)

end Rounds
