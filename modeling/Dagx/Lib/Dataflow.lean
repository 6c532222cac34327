import Dagx.Lib.Layering
import Mathlib.Data.List.Forall2

/-!
# Dataflow networks

A network gives every node its dependencies and a function that fires on their values, in order, and either returns
a value or fails. `Evals D n r`: all dependencies of `n` have values and `n` fired on them with result `r`.

* `Evals.unique`: a node has at most one result;
* `evals_iff`: the recursion equation;
* `Evals.ready`: a node with a result is ready after finitely many rounds;
* `ok_of_ready`: a node that is ready has a value, unless one fails in an earlier round or it fails itself;
* `Morphism D D' P f`: `f` maps the nodes in `P` to nodes of another network that are wired and fire alike;
  `Morphism.evals_iff`: they have the same results.
-/

/-- Nodes with their dependencies and the functions that fire on them. -/
structure Dataflow (α β ε : Type*) where
  deps : α → Option (List α)
  fire : α → List β → Except ε β

namespace Dataflow

open Layering

variable {α β ε : Type*} {D : Dataflow α β ε}

/-- All dependencies of `n` have values, and `n` fired on them with the given result. -/
inductive Evals (D : Dataflow α β ε) : α → Except ε β → Prop
  | fire {n : α} {ds : List α} {vs : List β} (hd : D.deps n = some ds) (hlen : ds.length = vs.length)
      (hvs : ∀ d v, (d, v) ∈ ds.zip vs → Evals D d (.ok v)) : Evals D n (D.fire n vs)

theorem evals_iff {n : α} {r : Except ε β} :
    D.Evals n r ↔
      ∃ ds vs, D.deps n = some ds ∧ List.Forall₂ (fun d v => D.Evals d (.ok v)) ds vs ∧ r = D.fire n vs := by
  constructor
  · rintro ⟨hd, hlen, hvs⟩
    exact ⟨_, _, hd, List.forall₂_iff_zip.mpr ⟨hlen, fun {d v} h => hvs d v h⟩, rfl⟩
  · rintro ⟨ds, vs, hd, hall, rfl⟩
    obtain ⟨hlen, hvs⟩ := List.forall₂_iff_zip.mp hall
    exact .fire hd hlen fun d v h => hvs h

theorem forall₂_unique {R : α → β → Prop} {ds : List α} {vs ws : List β} (hv : List.Forall₂ R ds vs)
    (hw : List.Forall₂ R ds ws) (huniq : ∀ d v w, (d, v) ∈ ds.zip vs → R d w → v = w) : vs = ws := by
  induction hv generalizing ws with
  | nil =>
    cases hw
    rfl
  | cons _ _ ih =>
    cases hw with
    | cons hdw hw =>
      rw [huniq _ _ _ List.mem_cons_self hdw, ih hw fun d v w hz => huniq d v w (List.mem_cons_of_mem _ hz)]

theorem Evals.unique {n : α} {r r' : Except ε β} (h : D.Evals n r) (h' : D.Evals n r') : r = r' := by
  induction h generalizing r' with
  | fire hd hlen hvs ih =>
    obtain ⟨ds', ws, hd', hws, rfl⟩ := evals_iff.mp h'
    rw [hd] at hd'
    cases hd'
    have hall := List.forall₂_iff_zip.mpr ⟨hlen, fun {d v} hz => hvs d v hz⟩
    rw [forall₂_unique hall hws fun d v w hz hw => Except.ok.inj (ih d v hz hw)]

theorem exists_ready_all {k : α → Nat → Prop} (hmono : ∀ a i j, i ≤ j → k a i → k a j) {ds : List α}
    (h : ∀ d ∈ ds, ∃ i, k d i) : ∃ i, ∀ d ∈ ds, k d i := by
  induction ds with
  | nil => exact ⟨0, by simp⟩
  | cons d ds ih =>
    obtain ⟨i, hi⟩ := h d List.mem_cons_self
    obtain ⟨j, hj⟩ := ih fun a ha => h a (List.mem_cons_of_mem d ha)
    refine ⟨max i j, fun a ha => ?_⟩
    rcases List.mem_cons.mp ha with rfl | ha
    · exact hmono a i _ (le_max_left i j) hi
    · exact hmono a j _ (le_max_right i j) (hj a ha)

theorem mem_zip_of_mem_left {ds : List α} {vs : List β} (hlen : ds.length = vs.length) {d : α} (hd : d ∈ ds) :
    ∃ v, (d, v) ∈ ds.zip vs := by
  obtain ⟨i, hi, rfl⟩ := List.getElem_of_mem hd
  exact ⟨vs.get ⟨i, by omega⟩, List.mem_iff_getElem.mpr ⟨i, by simp; omega, by simp⟩⟩

theorem Evals.ready {n : α} {r : Except ε β} (h : D.Evals n r) : ∃ k, Ready D.deps k n := by
  induction h with
  | fire hd hlen _ ih =>
    obtain ⟨k, hk⟩ := exists_ready_all (k := fun d i => Ready D.deps i d) (fun _ _ _ hij hb => hb.mono hij)
      fun d hmem => (mem_zip_of_mem_left hlen hmem).elim fun v hz => ih d v hz
    exact ⟨k + 1, _, hd, hk⟩

theorem exists_forall₂ {R : α → β → Prop} {ds : List α} (h : ∀ d ∈ ds, ∃ v, R d v) : ∃ vs, List.Forall₂ R ds vs := by
  induction ds with
  | nil => exact ⟨[], .nil⟩
  | cons d ds ih =>
    obtain ⟨v, hv⟩ := h d List.mem_cons_self
    obtain ⟨vs, hvs⟩ := ih fun a ha => h a (List.mem_cons_of_mem d ha)
    exact ⟨v :: vs, .cons hv hvs⟩

theorem ok_of_ready {k : Nat} (hfail : ∀ n e, Ready D.deps k n → ¬ D.Evals n (.error e)) {n : α}
    (hn : Ready D.deps k n) : ∃ v, D.Evals n (.ok v) := by
  induction k generalizing n with
  | zero => exact hn.elim
  | succ k ih =>
    obtain ⟨ds, hd, hready⟩ := id hn
    obtain ⟨vs, hvs⟩ := exists_forall₂ fun d hmem => ih (fun m e hm => hfail m e hm.succ) (hready d hmem)
    cases hr : D.fire n vs with
    | ok v => exact ⟨v, evals_iff.mpr ⟨ds, vs, hd, hvs, hr.symm⟩⟩
    | error e => exact absurd (evals_iff.mpr ⟨ds, vs, hd, hvs, hr.symm⟩) (hfail n e hn)

/-! ## Morphisms -/

variable {γ : Type*} {D' : Dataflow γ β ε} {P : α → Prop} {f : α → γ}

/-- `f` maps the nodes in `P`, with their dependencies and functions, into another network. -/
structure Morphism (D : Dataflow α β ε) (D' : Dataflow γ β ε) (P : α → Prop) (f : α → γ) : Prop where
  closed : ∀ n ds, P n → D.deps n = some ds → ∀ d ∈ ds, P d
  deps : ∀ n, P n → D'.deps (f n) = (D.deps n).map (List.map f)
  fire : ∀ n, P n → D'.fire (f n) = D.fire n

theorem Morphism.evals_map (h : Morphism D D' P f) {n : α} {r : Except ε β} (hn : P n) (hr : D.Evals n r) :
    D'.Evals (f n) r := by
  induction hr with
  | @fire n ds vs hd hlen hvs ih =>
    have hclosed := h.closed n ds hn hd
    refine evals_iff.mpr ⟨ds.map f, vs, by rw [h.deps n hn, hd]; rfl, ?_, by rw [h.fire n hn]⟩
    rw [List.forall₂_map_left_iff]
    exact List.forall₂_iff_zip.mpr ⟨hlen, fun {d v} hz => ih d v hz (hclosed d (List.of_mem_zip hz).1)⟩

theorem Morphism.evals_of_map (h : Morphism D D' P f) {n' : γ} {r : Except ε β} (hr : D'.Evals n' r) :
    ∀ n, P n → f n = n' → D.Evals n r := by
  induction hr with
  | @fire n' ds' vs hd' hlen hvs ih =>
    rintro n hn rfl
    rw [h.deps n hn, Option.map_eq_some_iff] at hd'
    obtain ⟨ds, hd, rfl⟩ := hd'
    have hclosed := h.closed n ds hn hd
    refine evals_iff.mpr ⟨ds, vs, hd, ?_, by rw [h.fire n hn]⟩
    refine List.forall₂_iff_zip.mpr ⟨by rw [← hlen, List.length_map], fun {d v} hz => ?_⟩
    have hz' : (f d, v) ∈ (ds.map f).zip vs := by
      rw [List.zip_map_left]
      exact List.mem_map.mpr ⟨(d, v), hz, rfl⟩
    exact ih (f d) v hz' d (hclosed d (List.of_mem_zip hz).1) rfl

/-- **A morphism keeps the results.** -/
theorem Morphism.evals_iff (h : Morphism D D' P f) {n : α} {r : Except ε β} (hn : P n) :
    D'.Evals (f n) r ↔ D.Evals n r :=
  ⟨fun hr => h.evals_of_map hr n hn rfl, h.evals_map hn⟩

end Dataflow
