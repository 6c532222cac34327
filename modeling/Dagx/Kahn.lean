import Dagx.Layers
import Dagx.Wiring
import Dagx.Lib.Layering
import Mathlib.Data.Finset.Card

/-!
# `compute_layers` computes the layers of the graph

`DagRunner.deps` is the graph the scheduler sees: a node with an edge to a later id is blocked, since that id's entry
never mentions it. The loop invariant `LayerState.Inv` counts, for every node, the edges not yet released by a visited
node; a node is visited or queued exactly when none is left.

* `releaseDependents_spec`, `visit_spec`, `drainLayer_spec`: one spec lemma for each loop;
* `drainQueue_spec`: from the nodes below round `k`, the `while` loop produces the layers from round `k` on;
* `DagRunner.Wired.computeLayers`: for every iteration order, layer `k` lists the nodes at depth `k`, each once.
-/

namespace Dagx

open Layering

variable {Ty : Type} [Preorder Ty] {Val : Ty → Type}

/-- The dependencies of a node as the scheduler sees them; a node with an edge to a later id is blocked. -/
def DagRunner.deps (dag : DagRunner Val) (n : NodeId) : Option (List NodeId) :=
  (dag.edges.lookup n).filter fun ds => ∀ d ∈ ds, dag.addedAt d ≤ dag.addedAt n

theorem DagRunner.deps_eq_some {dag : DagRunner Val} {n : NodeId} {ds : List NodeId} :
    dag.deps n = some ds ↔ dag.edges.lookup n = some ds ∧ ∀ d ∈ ds, dag.addedAt d ≤ dag.addedAt n := by
  rw [DagRunner.deps, Option.filter_eq_some_iff, decide_eq_true_iff]

/-! ## `for &dependent in deps` -/

theorem releaseDependent_spec {s : LayerState} {x : NodeId} (hx : s.inDegree.lookup x ≠ some 0) :
    ∃ s', releaseDependent s x = .ok s' ∧
      s'.queue = s.queue ++ (if s.inDegree.lookup x = some 1 then [x] else []) ∧ s'.visited = s.visited ∧
      s'.currentLayer = s.currentLayer ∧
      ∀ n, s'.inDegree.lookup n = (s.inDegree.lookup n).map (· - if x = n then 1 else 0) := by
  unfold releaseDependent
  cases hk : s.inDegree.lookup x with
  | none =>
    refine ⟨s, rfl, by simp, rfl, rfl, fun n => ?_⟩
    split_ifs with hn
    · rw [← hn, hk]
      rfl
    · simp
  | some k =>
    cases k with
    | zero => exact absurd hk hx
    | succ degree =>
      refine ⟨_, rfl, ?_, rfl, rfl, fun n => ?_⟩
      · by_cases hzero : degree = 0 <;> simp [hzero]
      · by_cases hn : x = n
        · subst hn
          simp [hk, AList.lookup_insert]
        · simp [hn, AList.lookup_insert_ne (Ne.symm hn)]

theorem releaseDependents_spec (deps : List NodeId) : ∀ s : LayerState,
    (∀ n k, s.inDegree.lookup n = some k → deps.count n ≤ k) →
    ∃ s' pushed, releaseDependents deps s = .ok s' ∧ s'.queue = s.queue ++ pushed ∧ s'.visited = s.visited ∧
      s'.currentLayer = s.currentLayer ∧
      (∀ n, s'.inDegree.lookup n = (s.inDegree.lookup n).map (· - deps.count n)) ∧ pushed.Nodup ∧
      ∀ n, n ∈ pushed ↔ 0 < deps.count n ∧ s.inDegree.lookup n = some (deps.count n) := by
  induction deps with
  | nil =>
    intro s _
    exact ⟨s, [], rfl, by simp, rfl, rfl, fun n => by simp, List.nodup_nil, fun n => by simp⟩
  | cons x deps ih =>
    intro s hcount
    have hcons : ∀ n, (x :: deps).count n = deps.count n + if x = n then 1 else 0 := by
      intro n
      rw [List.count_cons]
      simp
    have hle : ∀ n k, s.inDegree.lookup n = some k → deps.count n + (if x = n then 1 else 0) ≤ k := by
      intro n k hk
      rw [← hcons]
      exact hcount n k hk
    have hself : ∀ k, s.inDegree.lookup x = some k → deps.count x + 1 ≤ k := by
      intro k hk
      have := hle x k hk
      rwa [if_pos rfl] at this
    obtain ⟨s₁, hrun₁, hq₁, hv₁, hl₁, hdeg₁⟩ := releaseDependent_spec fun h => absurd (hself 0 h) (by omega)
    obtain ⟨s', pushed, hrun, hq, hv, hl, hdeg, hnd, hmem⟩ := ih s₁ fun n k hn => by
      rw [hdeg₁, Option.map_eq_some_iff] at hn
      obtain ⟨k', hk', rfl⟩ := hn
      have := hle n k' hk'
      omega
    refine ⟨s', (if s.inDegree.lookup x = some 1 then [x] else []) ++ pushed, ?_, ?_, hv.trans hv₁, hl.trans hl₁,
      fun n => ?_, ?_, fun n => ?_⟩
    · rw [releaseDependents, hrun₁]
      exact hrun
    · rw [hq, hq₁, List.append_assoc]
    · rw [hdeg, hdeg₁, Option.map_map, hcons]
      congr 1
      funext k
      simp only [Function.comp_apply]
      omega
    · split_ifs with hlast
      · -- the last edge of `x`: it is queued now, and never again
        refine List.nodup_cons.mpr ⟨fun hin => ?_, hnd⟩
        have hpos := ((hmem x).mp hin).1
        have := hself 1 hlast
        omega
      · exact hnd
    · rw [List.mem_append, hmem, hdeg₁, hcons]
      by_cases hn : x = n
      · subst hn
        cases hk : s.inDegree.lookup x with
        | none => simp
        | some k =>
          have := hself k hk
          by_cases hone : k = 1
          · simp [hone]
            omega
          · simp [hone, -List.count_pos_iff]
            omega
      · have hnot : n ∉ if s.inDegree.lookup x = some 1 then [x] else [] := by
          split_ifs <;> simp [Ne.symm hn]
        simp [hnot, hn]

/-! ## The loop invariant -/

/-- The edges of `n` not yet released by a visited node. -/
def DagRunner.unreleased (dag : DagRunner Val) (visited : Finset NodeId) (n : NodeId) (es : List NodeId) : Nat :=
  es.countP fun d => ¬ (d ∈ visited ∧ dag.addedAt d ≤ dag.addedAt n)

theorem unreleased_insert (dag : DagRunner Val) {visited : Finset NodeId} {x : NodeId} (hx : x ∉ visited) (n : NodeId)
    (es : List NodeId) :
    dag.unreleased visited n es =
      dag.unreleased (insert x visited) n es + if dag.addedAt x ≤ dag.addedAt n then es.count x else 0 := by
  unfold DagRunner.unreleased
  induction es with
  | nil => simp
  | cons e es ih =>
    rw [List.countP_cons, List.countP_cons, List.count_cons, ih]
    by_cases he : e = x
    · subst he
      by_cases hle : dag.addedAt e ≤ dag.addedAt n
      · simp [hx, hle]
        omega
      · simp [hle]
    · have hmem : e ∈ insert x visited ↔ e ∈ visited := by simp [he]
      simp only [hmem, beq_iff_eq, he, if_false, Nat.add_zero]
      omega

theorem unreleased_eq_zero {dag : DagRunner Val} {visited : Finset NodeId} {n : NodeId} {es : List NodeId} :
    dag.unreleased visited n es = 0 ↔ ∀ d ∈ es, d ∈ visited ∧ dag.addedAt d ≤ dag.addedAt n := by
  simp [DagRunner.unreleased, List.countP_eq_zero]

/-- The invariant of all loops of `compute_layers`. -/
structure LayerState.Inv (dag : DagRunner Val) (s : LayerState) : Prop where
  degree : ∀ n, s.inDegree.lookup n = (dag.edges.lookup n).map (dag.unreleased s.visited n)
  zero : ∀ n, n ∈ s.visited ∨ n ∈ s.queue ↔ s.inDegree.lookup n = some 0
  nodup : s.queue.Nodup
  fresh : ∀ n ∈ s.queue, n ∉ s.visited

theorem LayerState.Inv.mem_iff {dag : DagRunner Val} {s : LayerState} (h : s.Inv dag) (n : NodeId) :
    n ∈ s.visited ∨ n ∈ s.queue ↔ ∃ ds, dag.deps n = some ds ∧ ∀ d ∈ ds, d ∈ s.visited := by
  rw [h.zero, h.degree, Option.map_eq_some_iff]
  constructor
  · rintro ⟨ds, hl, hz⟩
    rw [unreleased_eq_zero] at hz
    exact ⟨ds, DagRunner.deps_eq_some.mpr ⟨hl, fun d hd => (hz d hd).2⟩, fun d hd => (hz d hd).1⟩
  · rintro ⟨ds, hds, hv⟩
    obtain ⟨hl, hle⟩ := DagRunner.deps_eq_some.mp hds
    exact ⟨ds, hl, unreleased_eq_zero.mpr fun d hd => ⟨hv d hd, hle d hd⟩⟩

theorem degree_eq {dag : DagRunner Val} (hw : dag.Wired) {s : LayerState} (h : s.Inv dag) {x : NodeId}
    (hx : x ∉ s.visited) {n : NodeId} {k : Nat} (hk : s.inDegree.lookup n = some k) :
    k = dag.unreleased (insert x s.visited) n (dag.edgesOf n) + (dag.dependentsOf x).count n := by
  rw [h.degree] at hk
  obtain ⟨es, hl, rfl⟩ := Option.map_eq_some_iff.mp hk
  have hes : dag.edgesOf n = es := by rw [DagRunner.edgesOf, hl]; rfl
  rw [hw.count, hes, ← unreleased_insert dag hx]

theorem LayerState.Inv.degree_visit {dag : DagRunner Val} (hw : dag.Wired) {s : LayerState} (h : s.Inv dag) {x : NodeId}
    (hx : x ∉ s.visited) (n : NodeId) :
    (s.inDegree.lookup n).map (· - (dag.dependentsOf x).count n) =
      (dag.edges.lookup n).map (dag.unreleased (insert x s.visited) n) := by
  cases hk : s.inDegree.lookup n with
  | none =>
    have hnone := h.degree n
    rw [hk] at hnone
    rw [Option.map_eq_none_iff.mp hnone.symm]
    rfl
  | some k =>
    have hsplit := degree_eq hw h hx hk
    rw [h.degree] at hk
    obtain ⟨es, hes, -⟩ := Option.map_eq_some_iff.mp hk
    have hedges : dag.edgesOf n = es := by rw [DagRunner.edgesOf, hes]; rfl
    rw [hedges] at hsplit
    rw [hes, Option.map_some, Option.map_some, Option.some.injEq]
    omega

theorem LayerState.Inv.fresh_of_degree {dag : DagRunner Val} {s : LayerState} (h : s.Inv dag) {n : NodeId} {k : Nat}
    (hpos : 0 < k) (hk : s.inDegree.lookup n = some k) : n ∉ s.visited ∧ n ∉ s.queue := by
  rw [← not_or, h.zero, hk]
  intro hzero
  have := Option.some.inj hzero
  omega

theorem visit_spec {dag : DagRunner Val} (hw : dag.Wired) {s : LayerState} {node : NodeId} {queue : List NodeId}
    (h : s.Inv dag) (hq : s.queue = node :: queue) :
    ∃ s' pushed, dag.visit { s with queue := queue } node = .ok s' ∧ s'.queue = queue ++ pushed ∧
      s'.visited = insert node s.visited ∧ s'.currentLayer = s.currentLayer ++ [node] ∧ s'.Inv dag := by
  have hnode : node ∉ s.visited := h.fresh node (by simp [hq])
  have hvisit : dag.visit { s with queue := queue } node = releaseDependents (dag.dependentsOf node)
      { s with queue := queue, currentLayer := s.currentLayer ++ [node], visited := insert node s.visited } := by
    unfold DagRunner.visit DagRunner.dependentsOf
    cases dag.dependents.lookup node <;> rfl
  have hsplit := fun n k => degree_eq hw h hnode (n := n) (k := k)
  obtain ⟨s', pushed, hrun, hq', hv, hl, hdeg, hnd, hmem⟩ := releaseDependents_spec (dag.dependentsOf node)
    { s with queue := queue, currentLayer := s.currentLayer ++ [node], visited := insert node s.visited }
    fun n k hk => by have := hsplit n k hk; omega
  have hv : s'.visited = insert node s.visited := hv
  have hnodup := h.nodup
  rw [hq, List.nodup_cons] at hnodup
  have hpushed : ∀ n ∈ pushed, n ∉ s.visited ∧ n ∉ s.queue := by
    intro n hn
    obtain ⟨hpos, hdegn⟩ := (hmem n).mp hn
    exact h.fresh_of_degree hpos hdegn
  refine ⟨s', pushed, hvisit.trans hrun, hq', hv, hl, fun n => ?_, fun n => ?_, ?_, ?_⟩
  · rw [hdeg n, hv]
    exact h.degree_visit hw hnode n
  · rw [hdeg n, hv, hq', Finset.mem_insert, List.mem_append, hmem n]
    have hzero := h.zero n
    rw [hq, List.mem_cons] at hzero
    show _ ↔ (s.inDegree.lookup n).map _ = some 0
    have hmem' : 0 < (dag.dependentsOf node).count n ∧ s.inDegree.lookup n = some ((dag.dependentsOf node).count n) ∨
        s.inDegree.lookup n = some 0 ↔ (s.inDegree.lookup n).map (· - (dag.dependentsOf node).count n) = some 0 := by
      cases hk : s.inDegree.lookup n with
      | none => simp
      | some k =>
        have := hsplit n k hk
        simp only [Option.some.injEq, Option.map_some]
        omega
    rw [← hmem', ← hzero]
    constructor
    · rintro ((rfl | hv) | hin | hp)
      · exact Or.inr (Or.inr (Or.inl rfl))
      · exact Or.inr (Or.inl hv)
      · exact Or.inr (Or.inr (Or.inr hin))
      · exact Or.inl hp
    · rintro (hp | hv | rfl | hin)
      · exact Or.inr (Or.inr hp)
      · exact Or.inl (Or.inr hv)
      · exact Or.inl (Or.inl rfl)
      · exact Or.inr (Or.inl hin)
  · rw [hq', List.nodup_append]
    refine ⟨hnodup.2, hnd, fun a ha b hb hab => ?_⟩
    subst hab
    exact (hpushed a hb).2 (by simp [hq, ha])
  · intro n hn
    rw [hv, Finset.mem_insert, not_or]
    rw [hq', List.mem_append] at hn
    rcases hn with hn | hn
    · exact ⟨fun he => hnodup.1 (he ▸ hn), h.fresh n (by simp [hq, hn])⟩
    · exact ⟨fun he => (hpushed n hn).2 (by simp [hq, he]), (hpushed n hn).1⟩

/-! ## One layer -/

theorem drainLayer_succ {dag : DagRunner Val} {s s₁ : LayerState} {node : NodeId} {queue : List NodeId}
    (hq : s.queue = node :: queue) (hnode : node ∉ s.visited)
    (hvisit : dag.visit { s with queue := queue } node = .ok s₁) (layerSize : Nat) :
    dag.drainLayer (layerSize + 1) s = dag.drainLayer layerSize s₁ := by
  simp [DagRunner.drainLayer, hq, hnode, hvisit]

theorem drainLayer_spec {dag : DagRunner Val} (hw : dag.Wired) (batch : List NodeId) : ∀ (rest : List NodeId)
    (s : LayerState), s.Inv dag → s.queue = batch ++ rest →
    ∃ s', dag.drainLayer batch.length s = .ok s' ∧ (∀ n, n ∈ s'.visited ↔ n ∈ s.visited ∨ n ∈ batch) ∧
      s'.visited.card = s.visited.card + batch.length ∧ s'.currentLayer = s.currentLayer ++ batch ∧ s'.Inv dag := by
  induction batch with
  | nil =>
    intro rest s h hq
    exact ⟨s, rfl, fun n => by simp, rfl, by simp, h⟩
  | cons node batch ih =>
    intro rest s h hq
    rw [List.cons_append] at hq
    have hnode : node ∉ s.visited := h.fresh node (by simp [hq])
    obtain ⟨s₁, pushed, hrun₁, hq₁, hv₁, hl₁, hinv₁⟩ := visit_spec hw h hq
    obtain ⟨s', hrun, hv, hcard, hl, hinv⟩ := ih (rest ++ pushed) s₁ hinv₁ (by rw [hq₁, List.append_assoc])
    refine ⟨s', ?_, fun n => ?_, ?_, ?_, hinv⟩
    · rw [List.length_cons, drainLayer_succ hq hnode hrun₁, hrun]
    · rw [hv, hv₁, Finset.mem_insert, List.mem_cons]
      constructor
      · rintro ((rfl | hn) | hn)
        · exact Or.inr (Or.inl rfl)
        · exact Or.inl hn
        · exact Or.inr (Or.inr hn)
      · rintro (hn | rfl | hn)
        · exact Or.inl (Or.inr hn)
        · exact Or.inl (Or.inl rfl)
        · exact Or.inr hn
    · rw [hcard, hv₁, Finset.card_insert_of_notMem hnode, List.length_cons]
      omega
    · rw [hl, hl₁, List.append_assoc, List.singleton_append]

/-! ## All layers -/

theorem LayerState.Inv.card_le {dag : DagRunner Val} {s : LayerState} (h : s.Inv dag) :
    s.visited.card + s.queue.length ≤ dag.edges.keys.length := by
  have hdisj : Disjoint s.visited s.queue.toFinset := by
    rw [Finset.disjoint_right]
    intro n hn
    exact h.fresh n (List.mem_toFinset.mp hn)
  have hsub : s.visited ∪ s.queue.toFinset ⊆ dag.edges.keys.toFinset := by
    intro n hn
    rw [Finset.mem_union, List.mem_toFinset, h.mem_iff] at hn
    obtain ⟨ds, hds, -⟩ := hn
    have hmem : n ∈ dag.edges := AList.lookup_isSome.mp (by rw [(DagRunner.deps_eq_some.mp hds).1]; rfl)
    exact List.mem_toFinset.mpr (AList.mem_keys.mp hmem)
  have hcard := Finset.card_le_card hsub
  rw [Finset.card_union_of_disjoint hdisj, List.toFinset_card_of_nodup h.nodup] at hcard
  exact hcard.trans (List.toFinset_card_le _)

theorem drainQueue_succ {dag : DagRunner Val} {s s₁ : LayerState} (hq : s.queue ≠ [])
    (hdrain : dag.drainLayer s.queue.length { s with currentLayer := [] } = .ok s₁) (hne : s₁.currentLayer ≠ [])
    (fuel : Nat) (layers : List (List NodeId)) :
    dag.drainQueue (fuel + 1) layers s = dag.drainQueue fuel (layers ++ [s₁.currentLayer]) s₁ := by
  obtain ⟨node, queue, hcons⟩ := List.exists_cons_of_ne_nil hq
  rw [hcons, List.length_cons] at hdrain
  simp [DagRunner.drainQueue, hcons, hdrain, hne]

/-- From the nodes ready within `k` rounds, the `while` loop adds the layers from round `k` on. -/
theorem drainQueue_spec {dag : DagRunner Val} (hw : dag.Wired) (fuel : Nat) : ∀ (k : Nat) (layers : List (List NodeId))
    (s : LayerState), s.Inv dag → (∀ n, n ∈ s.visited ↔ Ready dag.deps k n) →
    dag.edges.keys.length < fuel + s.visited.card →
    ∃ rest s', dag.drainQueue fuel layers s = some (.ok (layers ++ rest, s')) ∧ Layered dag.deps k rest ∧
      s'.visited.card = s.visited.card + rest.flatten.length := by
  induction fuel with
  | zero =>
    intro k layers s h hready hfuel
    have := h.card_le
    omega
  | succ fuel ih =>
    intro k layers s h hready hfuel
    have hround : ∀ n, n ∈ s.queue ↔ AtDepth dag.deps k n := by
      intro n
      have hmem := h.mem_iff n
      constructor
      · intro hn
        obtain ⟨ds, hds, hall⟩ := hmem.mp (Or.inr hn)
        exact ⟨⟨ds, hds, fun d hd => (hready d).mp (hall d hd)⟩, fun hb => h.fresh n hn ((hready n).mpr hb)⟩
      · rintro ⟨⟨ds, hds, hall⟩, hnot⟩
        rcases hmem.mpr ⟨ds, hds, fun d hd => (hready d).mpr (hall d hd)⟩ with hv | hq
        · exact absurd ((hready n).mp hv) hnot
        · exact hq
    cases hq : s.queue with
    | nil =>
      refine ⟨[], s, ?_, .nil fun n hn => ?_, by simp⟩
      · rw [DagRunner.drainQueue, hq, List.append_nil]
      · have := (hround n).mpr hn
        rw [hq] at this
        simp at this
    | cons node queue =>
      obtain ⟨s₁, hrun₁, hv₁, hcard₁, hl₁, hinv₁⟩ :=
        drainLayer_spec hw s.queue [] { s with currentLayer := [] } ⟨h.degree, h.zero, h.nodup, h.fresh⟩ (by simp)
      have hlayer : s₁.currentLayer = s.queue := hl₁
      have hready₁ : ∀ n, n ∈ s₁.visited ↔ Ready dag.deps (k + 1) n := by
        intro n
        rw [hv₁, hready, hround]
        constructor
        · rintro (hb | hat)
          · exact hb.succ
          · exact hat.1
        · intro hb
          by_cases hn : Ready dag.deps k n
          · exact Or.inl hn
          · exact Or.inr ⟨hb, hn⟩
      have hcard₁ : s₁.visited.card = s.visited.card + s.queue.length := hcard₁
      have hpos : s.queue.length = queue.length + 1 := by rw [hq, List.length_cons]
      obtain ⟨rest, s', hrun, hrest, hcard⟩ := ih (k + 1) (layers ++ [s.queue]) s₁ hinv₁ hready₁ (by omega)
      refine ⟨s.queue :: rest, s', ?_, .cons (by simp [hq]) h.nodup hround hrest, ?_⟩
      · have hne : s₁.currentLayer ≠ [] := by rw [hlayer, hq]; exact List.cons_ne_nil _ _
        rw [drainQueue_succ (by rw [hq]; exact List.cons_ne_nil _ _) hrun₁ hne, hlayer, hrun, List.append_assoc,
          List.singleton_append]
      · rw [hcard, hcard₁, List.flatten_cons, List.length_append]
        omega

/-! ## Before the first layer -/

theorem inDegrees_spec (entries : List (Σ _ : NodeId, List NodeId)) : ∀ inDegree : PassThroughHashMap Nat,
    (entries.map Sigma.fst).Nodup →
    (∀ n es, ⟨n, es⟩ ∈ entries →
      (entries.foldl (fun inDegree e => inDegree.insert e.1 e.2.length) inDegree).lookup n = some es.length) ∧
    ∀ n, n ∉ entries.map Sigma.fst →
      (entries.foldl (fun inDegree e => inDegree.insert e.1 e.2.length) inDegree).lookup n = inDegree.lookup n := by
  induction entries with
  | nil =>
    intro inDegree _
    exact ⟨fun n es h => by simp at h, fun n _ => rfl⟩
  | cons e entries ih =>
    intro inDegree hnodup
    rw [List.map_cons, List.nodup_cons] at hnodup
    obtain ⟨hin, hout⟩ := ih (inDegree.insert e.1 e.2.length) hnodup.2
    refine ⟨fun n es h => ?_, fun n h => ?_⟩
    · rcases List.mem_cons.mp h with rfl | h
      · rw [List.foldl_cons, hout n hnodup.1, AList.lookup_insert]
      · exact hin n es h
    · rw [List.map_cons, List.mem_cons, not_or] at h
      rw [List.foldl_cons, hout n h.2, AList.lookup_insert_ne h.1]

theorem lookup_inDegrees (it : IterOrder) (edges : PassThroughHashMap (List NodeId)) (n : NodeId) :
    (inDegrees (it.edges.entries edges)).lookup n = (edges.lookup n).map List.length := by
  obtain ⟨hin, hout⟩ := inDegrees_spec (it.edges.entries edges) ∅ (it.edges.nodup_keys edges)
  cases hl : edges.lookup n with
  | none =>
    have hnot : n ∉ (it.edges.entries edges).map Sigma.fst := by
      intro hn
      obtain ⟨e, he, rfl⟩ := List.mem_map.mp hn
      rw [(it.edges.mem_entries edges e.1 e.2).mp he] at hl
      cases hl
    exact hout n hnot
  | some es => exact hin n es ((it.edges.mem_entries edges n es).mpr hl)

theorem inv_init (dag : DagRunner Val) (it : IterOrder) :
    LayerState.Inv dag ⟨inDegrees (it.edges.entries dag.edges),
      sources (it.inDegree.entries (inDegrees (it.edges.entries dag.edges))), ∅, []⟩ where
  degree n := by
    have hall : dag.unreleased ∅ n = List.length := by
      funext es
      simp [DagRunner.unreleased]
    rw [lookup_inDegrees, hall]
  zero n := by
    show n ∈ (∅ : Finset NodeId) ∨ n ∈ sources _ ↔ _
    rw [or_iff_right (Finset.notMem_empty n), sources, List.mem_map, ← it.inDegree.mem_entries]
    constructor
    · rintro ⟨⟨m, k⟩, he, rfl⟩
      obtain ⟨he, hk⟩ := List.mem_filter.mp he
      obtain rfl : k = 0 := by simpa using hk
      exact he
    · intro he
      exact ⟨⟨n, 0⟩, List.mem_filter.mpr ⟨he, by simp⟩, rfl⟩
  nodup := (it.inDegree.nodup_keys _).sublist (List.filter_sublist.map Sigma.fst)
  fresh n _ := Finset.notMem_empty n

/-- **`compute_layers` returns the layers of the graph**, for every iteration order. -/
theorem DagRunner.Wired.computeLayers {dag : DagRunner Val} (hw : dag.Wired) (it : IterOrder) :
    ∃ layers, dag.computeLayers it = some (.ok (.ok layers)) ∧ Layered dag.deps 0 layers := by
  obtain ⟨layers, s, hrun, hlayers, hcard⟩ := drainQueue_spec hw (dag.edges.keys.length + 1) 0 [] _ (inv_init dag it)
    (fun n => by simp [Ready]) (by simp)
  refine ⟨layers, ?_, hlayers⟩
  have hassert : s.visited ≠ ∅ ∨ layers.isEmpty := by
    cases hlayers with
    | nil _ => exact Or.inr rfl
    | cons hne _ _ _ =>
      refine Or.inl fun hv => ?_
      rw [hv, List.flatten_cons, List.length_append, Finset.card_empty] at hcard
      have := List.length_pos_iff.mpr hne
      omega
  rw [DagRunner.computeLayers, hrun]
  exact if_pos hassert

end Dagx
