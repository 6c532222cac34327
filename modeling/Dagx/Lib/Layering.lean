import Mathlib.Order.Lattice.Nat

/-!
# Layers of a dependency graph

A graph is a function `deps : α → Option (List α)`; a node with `deps n = none` is blocked for good. Nodes become
ready in rounds: a node is ready one round after its last dependency.

* `Ready deps k n`: `n` is ready within `k` rounds (`Ready.mono`);
* `AtDepth deps k n`: round `k` is its first (`AtDepth.unique`, `atDepth_zero_iff`, `atDepth_succ_iff`);
* `Path deps n k m`: a dependency path of `k` edges from `n` down to `m`;
* `exists_ready_iff_path`: with only the edges that do not point up, what gets ready is what reaches edges that point
  down alone;
* `depth deps n`: the length of the longest path from `n` to a node without dependencies (`AtDepth.depth_eq`);
* `Layered deps k layers`: the lists of `layers` are the rounds from `k` on, up to the last that has a node
  (`Layered.mem_flatten`, `Layered.nodup_flatten`, `Layered.getElem`);
* `Respects deps rounds`: dependencies are in earlier rounds; then no node is before its first round, and there are no
  fewer rounds than layers (`AtDepth.le_of_inRound`, `Layered.length_le`).
-/

namespace Layering

variable {α : Type*} {deps : α → Option (List α)}

/-- `n` is ready within `k` rounds: it is not blocked and its dependencies are ready within `k - 1` rounds. -/
def Ready (deps : α → Option (List α)) : Nat → α → Prop
  | 0, _ => False
  | k + 1, n => ∃ ds, deps n = some ds ∧ ∀ d ∈ ds, Ready deps k d

theorem Ready.deps_ready {k : Nat} {n : α} {ds : List α} (h : Ready deps (k + 1) n) (hd : deps n = some ds) :
    ∀ d ∈ ds, Ready deps k d := by
  obtain ⟨ds', hd', hall⟩ := h
  rw [hd] at hd'
  cases hd'
  exact hall

theorem Ready.succ {k : Nat} {n : α} (h : Ready deps k n) : Ready deps (k + 1) n := by
  induction k generalizing n with
  | zero => exact h.elim
  | succ k ih =>
    obtain ⟨ds, hd, hall⟩ := h
    exact ⟨ds, hd, fun d hmem => ih (hall d hmem)⟩

theorem Ready.mono {k l : Nat} (hkl : k ≤ l) {n : α} (h : Ready deps k n) : Ready deps l n := by
  induction hkl with
  | refl => exact h
  | step _ ih => exact ih.succ

/-! ## The first round of a node -/

/-- Round `k` is the first in which `n` is ready. -/
def AtDepth (deps : α → Option (List α)) (k : Nat) (n : α) : Prop := Ready deps (k + 1) n ∧ ¬ Ready deps k n

theorem AtDepth.unique {j k : Nat} {n : α} (hj : AtDepth deps j n) (hk : AtDepth deps k n) : j = k := by
  rcases Nat.lt_trichotomy j k with h | h | h
  · exact absurd (hj.1.mono h) hk.2
  · exact h
  · exact absurd (hk.1.mono h) hj.2

theorem AtDepth.ready {j k : Nat} {n : α} (h : AtDepth deps j n) (hjk : j < k) : Ready deps k n := h.1.mono hjk

theorem ready_iff_atDepth {k : Nat} {n : α} : Ready deps k n ↔ ∃ j < k, AtDepth deps j n := by
  constructor
  · intro h
    induction k with
    | zero => exact h.elim
    | succ k ih =>
      by_cases hk : Ready deps k n
      · obtain ⟨j, hj, hat⟩ := ih hk
        exact ⟨j, by omega, hat⟩
      · exact ⟨k, by omega, h, hk⟩
  · rintro ⟨j, hj, hat⟩
    exact hat.ready hj

theorem AtDepth.lt_of_ready {j k : Nat} {n : α} (h : AtDepth deps j n) (hb : Ready deps k n) : j < k := by
  by_contra hle
  exact h.2 (hb.mono (by omega))

theorem atDepth_zero_iff {n : α} : AtDepth deps 0 n ↔ deps n = some [] := by
  constructor
  · rintro ⟨⟨ds, hd, hall⟩, -⟩
    cases ds with
    | nil => exact hd
    | cons d ds => exact (hall d List.mem_cons_self).elim
  · intro h
    exact ⟨⟨[], h, by simp⟩, id⟩

theorem atDepth_succ_iff {k : Nat} {n : α} :
    AtDepth deps (k + 1) n ↔
      ∃ ds, deps n = some ds ∧ (∀ d ∈ ds, Ready deps (k + 1) d) ∧ ∃ d ∈ ds, AtDepth deps k d := by
  constructor
  · rintro ⟨⟨ds, hd, hall⟩, hnot⟩
    have hex : ∃ d ∈ ds, ¬ Ready deps k d := by
      by_contra h
      push Not at h
      exact hnot ⟨ds, hd, h⟩
    obtain ⟨d, hmem, hd'⟩ := hex
    exact ⟨ds, hd, hall, d, hmem, hall d hmem, hd'⟩
  · rintro ⟨ds, hd, hall, d, hmem, hat⟩
    exact ⟨⟨ds, hd, hall⟩, fun h => hat.2 (h.deps_ready hd d hmem)⟩

/-! ## Paths -/

/-- A dependency path of `k` edges from `n` down to `m`. -/
inductive Path (deps : α → Option (List α)) : α → Nat → α → Prop
  | nil (n : α) : Path deps n 0 n
  | cons {n d m : α} {ds : List α} {k : Nat} (hd : deps n = some ds) (hmem : d ∈ ds) (hp : Path deps d k m) :
      Path deps n (k + 1) m

theorem Path.ready {k l : Nat} {n m : α} (hp : Path deps n k m) (h : Ready deps (l + k) n) : Ready deps l m := by
  induction hp with
  | nil n => exact h
  | cons hd hmem _ ih => exact ih (h.deps_ready hd _ hmem)

theorem AtDepth.path_ready {j k : Nat} {n m : α} (h : AtDepth deps k n) (hp : Path deps n (j + 1) m) :
    Ready deps k m := by
  cases hp with
  | cons hd hmem hp =>
    have hb := h.1.deps_ready hd _ hmem
    exact hp.ready (hb.mono (by omega))

theorem AtDepth.exists_path {k : Nat} {n : α} (h : AtDepth deps k n) :
    ∃ m, Path deps n k m ∧ deps m = some [] := by
  induction k generalizing n with
  | zero => exact ⟨n, .nil n, atDepth_zero_iff.mp h⟩
  | succ k ih =>
    obtain ⟨ds, hd, -, d, hmem, hat⟩ := atDepth_succ_iff.mp h
    obtain ⟨m, hp, hm⟩ := ih hat
    exact ⟨m, .cons hd hmem hp, hm⟩

theorem Ready.path_lt {k j : Nat} {n m : α} (h : Ready deps k n) (hp : Path deps n j m) : j < k := by
  by_contra hle
  have hb : Ready deps (0 + j) n := h.mono (by omega)
  exact (hp.ready hb).elim

theorem Ready.notMem {k : Nat} {n : α} {ds : List α} (h : Ready deps k n) (hd : deps n = some ds) : n ∉ ds := by
  intro hmem
  obtain ⟨j, -, hat⟩ := ready_iff_atDepth.mp h
  have hp : Path deps n (0 + 1) n := .cons hd hmem (.nil n)
  exact hat.2 (hat.path_ready hp)

/-- Nodes with an edge that points up are blocked: then exactly those nodes get ready from which every path leads to
edges that point down. -/
theorem exists_ready_iff_path {edges : α → Option (List α)} {μ : α → Nat} (hμ : ∀ a b, μ a = μ b → a = b)
    (hdeps : ∀ n ds, deps n = some ds ↔ edges n = some ds ∧ ∀ d ∈ ds, μ d ≤ μ n) {n : α} :
    (∃ k, Ready deps k n) ↔ ∀ j m, Path edges n j m → ∃ ds, edges m = some ds ∧ ∀ d ∈ ds, μ d < μ m := by
  constructor
  · rintro ⟨k, hk⟩ j m hp
    induction hp generalizing k with
    | nil n =>
      obtain ⟨i, -, hat⟩ := ready_iff_atDepth.mp hk
      obtain ⟨ds, hd, -⟩ := hat.1
      obtain ⟨hedges, hle⟩ := (hdeps n ds).mp hd
      refine ⟨ds, hedges, fun d hmem => lt_of_le_of_ne (hle d hmem) fun heq => ?_⟩
      obtain rfl := hμ d n heq
      exact hk.notMem hd hmem
    | @cons n d m ds j hedges hmem _ ih =>
      cases k with
      | zero => exact hk.elim
      | succ k =>
        obtain ⟨ds', hd, hready⟩ := hk
        have hsame := ((hdeps n ds').mp hd).1
        rw [hedges] at hsame
        cases hsame
        exact ih k (hready d hmem)
  · intro hpath
    refine ⟨μ n + 1, ?_⟩
    induction hk : μ n using Nat.strong_induction_on generalizing n with
    | h k ih =>
      subst hk
      obtain ⟨ds, hedges, hlt⟩ := hpath 0 n (.nil n)
      have hd : deps n = some ds := (hdeps n ds).mpr ⟨hedges, fun d hmem => (hlt d hmem).le⟩
      refine ⟨ds, hd, fun d hmem => ?_⟩
      have hready := ih (μ d) (hlt d hmem) (fun j m hp => hpath (j + 1) m (.cons hedges hmem hp)) rfl
      exact hready.mono (hlt d hmem)

/-- The length of the longest path from `n` to a node without dependencies. -/
noncomputable def depth (deps : α → Option (List α)) (n : α) : Nat :=
  sSup {k | ∃ m, Path deps n k m ∧ deps m = some []}

/-- The first round of a node is the length of its longest path to a node without dependencies. -/
theorem AtDepth.isGreatest {k : Nat} {n : α} (h : AtDepth deps k n) :
    IsGreatest {k | ∃ m, Path deps n k m ∧ deps m = some []} k := by
  refine ⟨h.exists_path, ?_⟩
  rintro j ⟨m, hp, -⟩
  exact Nat.le_of_lt_succ (h.1.path_lt hp)

theorem AtDepth.depth_eq {k : Nat} {n : α} (h : AtDepth deps k n) : depth deps n = k := h.isGreatest.csSup_eq

theorem Ready.atDepth {k : Nat} {n : α} (h : Ready deps k n) : AtDepth deps (depth deps n) n := by
  obtain ⟨j, -, hat⟩ := ready_iff_atDepth.mp h
  rw [hat.depth_eq]
  exact hat

/-! ## Lists of layers -/

/-- `layers` lists the nodes of round `k`, those of round `k + 1` and so on, up to the last round that has any. -/
inductive Layered (deps : α → Option (List α)) : Nat → List (List α) → Prop
  | nil {k : Nat} (hnone : ∀ n, ¬ AtDepth deps k n) : Layered deps k []
  | cons {k : Nat} {layer : List α} {layers : List (List α)} (hne : layer ≠ []) (hnodup : layer.Nodup)
      (hmem : ∀ n, n ∈ layer ↔ AtDepth deps k n) (htail : Layered deps (k + 1) layers) :
      Layered deps k (layer :: layers)

theorem not_atDepth_of_le {j k : Nat} (hnone : ∀ n, ¬ AtDepth deps k n) (hkj : k ≤ j) : ∀ n, ¬ AtDepth deps j n := by
  induction hkj with
  | refl => exact hnone
  | step _ ih =>
    intro n hat
    obtain ⟨_, _, _, d, _, hd⟩ := atDepth_succ_iff.mp hat
    exact ih d hd

theorem Layered.mem_flatten {k : Nat} {layers : List (List α)} (h : Layered deps k layers) (n : α) :
    n ∈ layers.flatten ↔ ∃ j, k ≤ j ∧ AtDepth deps j n := by
  induction h with
  | nil hnone =>
    refine ⟨fun hn => absurd hn (by simp), ?_⟩
    rintro ⟨j, hj, hat⟩
    exact absurd hat (not_atDepth_of_le hnone hj n)
  | @cons k layer layers _ _ hmem _ ih =>
    rw [List.flatten_cons, List.mem_append, hmem, ih]
    constructor
    · rintro (hat | ⟨j, hj, hat⟩)
      · exact ⟨k, le_refl k, hat⟩
      · exact ⟨j, by omega, hat⟩
    · rintro ⟨j, hj, hat⟩
      rcases Nat.eq_or_lt_of_le hj with rfl | hlt
      · exact Or.inl hat
      · exact Or.inr ⟨j, hlt, hat⟩

theorem Layered.nodup_flatten {k : Nat} {layers : List (List α)} (h : Layered deps k layers) : layers.flatten.Nodup := by
  induction h with
  | nil _ => exact List.nodup_nil
  | cons _ hnodup hmem htail ih =>
    rw [List.flatten_cons, List.nodup_append]
    refine ⟨hnodup, ih, ?_⟩
    rintro a ha b hb rfl
    obtain ⟨j, hj, hat⟩ := (htail.mem_flatten a).mp hb
    have := hat.unique ((hmem a).mp ha)
    omega

theorem Layered.getElem {k i : Nat} {layers : List (List α)} {layer : List α} (h : Layered deps k layers)
    (hi : layers[i]? = some layer) : layer ≠ [] ∧ layer.Nodup ∧ ∀ n, n ∈ layer ↔ AtDepth deps (k + i) n := by
  induction h generalizing i with
  | nil _ => simp at hi
  | @cons k head layers hne hnodup hmem _ ih =>
    cases i with
    | zero =>
      obtain rfl : head = layer := by simpa using hi
      exact ⟨hne, hnodup, hmem⟩
    | succ i =>
      rw [show k + (i + 1) = k + 1 + i by omega]
      exact ih (by simpa using hi)

def InRound (rounds : List (List α)) (i : Nat) (n : α) : Prop := ∃ round, rounds[i]? = some round ∧ n ∈ round

/-- Every dependency of a node is in an earlier round than the node. -/
def Respects (deps : α → Option (List α)) (rounds : List (List α)) : Prop :=
  ∀ i n ds, InRound rounds i n → deps n = some ds → ∀ d ∈ ds, ∃ j < i, InRound rounds j d

theorem inRound_iff {rounds : List (List α)} {i : Nat} {n : α} : InRound rounds i n ↔ n ∈ (rounds[i]?).getD [] := by
  unfold InRound
  cases rounds[i]? <;> simp

theorem respects_iff {rounds : List (List α)} : Respects deps rounds ↔
    ∀ i < rounds.length, ∀ n ∈ (rounds[i]?).getD [], ∀ d ∈ (deps n).getD [], ∃ j < i, d ∈ (rounds[j]?).getD [] := by
  unfold Respects
  simp only [inRound_iff]
  constructor
  · intro h i _ n hn d hd
    cases hdeps : deps n with
    | none =>
      rw [hdeps] at hd
      cases hd
    | some ds =>
      rw [hdeps] at hd
      exact h i n ds hn hdeps d hd
  · intro h i n ds hn hds d hd
    have hi : i < rounds.length := by
      by_contra hge
      rw [List.getElem?_eq_none (by omega)] at hn
      cases hn
    exact h i hi n hn d (by rw [hds]; exact hd)

instance [DecidableEq α] (rounds : List (List α)) : Decidable (Respects deps rounds) :=
  decidable_of_iff _ respects_iff.symm

theorem AtDepth.le_of_inRound {rounds : List (List α)} (hrounds : Respects deps rounds) {k i : Nat} {n : α}
    (h : AtDepth deps k n) (hn : InRound rounds i n) : k ≤ i := by
  induction k generalizing n i with
  | zero => exact Nat.zero_le i
  | succ k ih =>
    obtain ⟨ds, hd, -, d, hmem, hat⟩ := atDepth_succ_iff.mp h
    obtain ⟨j, hlt, hround⟩ := hrounds i n ds hn hd d hmem
    have := ih hat hround
    omega

theorem Layered.length_le {layers rounds : List (List α)} (h : Layered deps 0 layers) (hrounds : Respects deps rounds)
    (hall : ∀ n ∈ layers.flatten, ∃ i, InRound rounds i n) : layers.length ≤ rounds.length := by
  cases hlength : layers.length with
  | zero => exact Nat.zero_le _
  | succ k =>
    -- a node of the last layer is in no round before it
    obtain ⟨layer, hlayer⟩ : ∃ layer, layers[k]? = some layer := ⟨_, List.getElem?_eq_getElem (by omega)⟩
    obtain ⟨hne, -, hmem⟩ := h.getElem hlayer
    obtain ⟨n, hn⟩ := List.exists_mem_of_ne_nil layer hne
    obtain ⟨i, hi⟩ := hall n (List.mem_flatten_of_mem (List.mem_of_getElem? hlayer) hn)
    have hat := (hmem n).mp hn
    rw [Nat.zero_add] at hat
    have hle := hat.le_of_inRound hrounds hi
    obtain ⟨round, hround, -⟩ := hi
    have hlt := (List.getElem?_eq_some_iff.mp hround).1
    omega

theorem Layered.ready {k l : Nat} {layers : List (List α)} (h : Layered deps k layers) {n : α} (hn : Ready deps l n) :
    Ready deps (k + layers.length) n := by
  induction h with
  | @nil k hnone =>
    obtain ⟨j, -, hat⟩ := ready_iff_atDepth.mp hn
    refine hat.ready ?_
    by_contra hle
    exact not_atDepth_of_le hnone (by simpa using hle) n hat
  | cons _ _ _ _ ih =>
    rw [List.length_cons]
    convert ih using 1
    omega

end Layering
