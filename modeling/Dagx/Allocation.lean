import Dagx.Graph

/-!
# Ids over a run of API calls

An id is the number of tasks cast to a `u32`.

* `Allocation.Fresh`: what a call of `add_task` should do: an id not issued before, the index of the node pushed, and no
  entry of an earlier task touched; `Allocation.fresh_iff_lt`: the cast must not wrap;
* `Ledger`: a session with the ids it has issued, in handles and in builders, and the calls of `add_task` made on it;
* `Ledger.Reachable.mem_issued`: the ids issued are those below the number of tasks;
* `Ledger.Reachable.fresh_iff`: a run of any length allocates fresh ids as long as there are at most `2 ^ 32` tasks;
* `ids_collide`: `2 ^ 32 + 1` calls.
-/

namespace Dagx

open DagRunner

variable {Ty : Type} [Preorder Ty] {Val : Ty → Type}

/-- A call of `add_task`: the runner it is made on, the ids of the handles and builders issued before, the task. -/
structure Allocation (Val : Ty → Type) where
  dag : DagRunner Val
  issued : List NodeId
  task : TypedNode Val

namespace Allocation

def id (a : Allocation Val) : NodeId := (a.dag.addTask a.task).1

def result (a : Allocation Val) : DagRunner Val := (a.dag.addTask a.task).2

/-- The id was not issued before, it is the index of the node just pushed, and the entries of the tasks with the ids
issued before are left as they were. -/
structure Fresh (a : Allocation Val) : Prop where
  unused : a.id ∉ a.issued
  last : a.id.index + 1 = a.result.nodes.length
  node : a.result.nodes[a.id.index]? = some (some a.task)
  edges : ∀ n ∈ a.issued, a.result.edges.lookup n = a.dag.edges.lookup n
  dependents : ∀ n ∈ a.issued, a.result.dependents.lookup n = a.dag.dependents.lookup n

theorem length_result (a : Allocation Val) : a.result.nodes.length = a.dag.nodes.length + 1 := by
  unfold result
  rw [nodes_addTask, List.length_append, List.length_singleton]

theorem index_id (a : Allocation Val) : a.id.index = a.dag.nodes.length % 2 ^ 32 := NodeId.index_ofLen _

/-- When the ids issued are those below the number of tasks, the next is fresh exactly if the cast does not wrap. -/
theorem fresh_iff_lt {a : Allocation Val} (hissued : ∀ n, n ∈ a.issued ↔ n.index < a.dag.nodes.length) :
    a.Fresh ↔ a.dag.nodes.length < 2 ^ 32 := by
  have hindex := a.index_id
  constructor
  · intro h
    have hlast := h.last
    have hlt := a.id.index_lt
    rw [length_result] at hlast
    omega
  · intro hlen
    have hunused : a.id ∉ a.issued := by
      rw [hissued]
      omega
    have hne : ∀ n ∈ a.issued, n ≠ .ofLen a.dag.nodes.length := by
      intro n hn he
      apply hunused
      rw [he] at hn
      exact hn
    refine ⟨hunused, ?_, ?_, fun n hn => ?_, fun n hn => ?_⟩
    · rw [length_result]
      omega
    · have hid : a.id.index = a.dag.nodes.length := by omega
      rw [hid]
      unfold result
      rw [nodes_addTask]
      exact List.getElem?_concat_length
    · exact AList.lookup_insert_ne (hne n hn)
    · exact AList.lookup_insert_ne (hne n hn)

end Allocation

/-! ## Runs -/

/-- A session, the ids of the handles and builders issued so far, and the calls of `add_task` made so far. -/
structure Ledger (Val : Ty → Type) where
  session : Session Val
  issued : List NodeId
  allocations : List (Allocation Val)

namespace Ledger

def new : Ledger Val := ⟨.new, [], []⟩

def addTask (l : Ledger Val) (task : TypedNode Val) : Ledger Val :=
  let a : Allocation Val := ⟨l.session.dag, l.issued, task⟩
  { session := l.session.addTask task, issued := l.issued ++ [a.id], allocations := l.allocations ++ [a] }

/-- `depends_on` issues a handle with the id of the builder it consumes. -/
def dependsOn (l : Ledger Val) (b : TaskBuilder Ty) (args : List (Arg Ty)) : Ledger Val :=
  { l with session := l.session.dependsOn b args, issued := l.issued ++ [b.id] }

def coerceBuilder (l : Ledger Val) (b : TaskBuilder Ty) : Ledger Val := { l with session := l.session.coerceBuilder b }

def dropBuilder (l : Ledger Val) : Ledger Val := { l with session := l.session.dropBuilder }

inductive Step (foreign : TaskHandle Ty → Prop) : Ledger Val → Ledger Val → Prop
  | addTask (l : Ledger Val) (task : TypedNode Val) (hb : l.session.builder = none) : Step foreign l (l.addTask task)
  | coerceBuilder (l : Ledger Val) (b b' : TaskBuilder Ty) (hb : l.session.builder = some b) (hle : b ≤ b') :
      Step foreign l (l.coerceBuilder b')
  | dependsOn (l : Ledger Val) (b : TaskBuilder Ty) (args : List (Arg Ty)) (hb : l.session.builder = some b)
      (hty : args.map (fun a => a.handle.ty) = b.Input) (hargs : ∀ a ∈ args, l.session.Owns foreign a) :
      Step foreign l (l.dependsOn b args)
  | dropBuilder (l : Ledger Val) (b : TaskBuilder Ty) (hb : l.session.builder = some b) : Step foreign l l.dropBuilder

def Reachable (foreign : TaskHandle Ty → Prop) (l : Ledger Val) : Prop :=
  System.Reachable (· = .new) (Step foreign) l

structure Inv (foreign : TaskHandle Ty → Prop) (l : Ledger Val) : Prop where
  reachable : l.session.Reachable foreign
  mem_issued : ∀ n, n ∈ l.issued ↔ n.index < l.session.dag.nodes.length
  allocated : ∀ a ∈ l.allocations, ∀ n, n ∈ a.issued ↔ n.index < a.dag.nodes.length
  lengths : l.allocations.map (fun a => a.dag.nodes.length) = List.range l.session.dag.nodes.length

variable {foreign : TaskHandle Ty → Prop} {l : Ledger Val}

theorem inv_new : (new : Ledger Val).Inv foreign where
  reachable := .of_init rfl
  mem_issued n := by simp [new, Session.new, DagRunner.new]
  allocated a ha := by simp [new] at ha
  lengths := rfl

theorem Inv.addTask (h : l.Inv foreign) (hb : l.session.builder = none) (task : TypedNode Val) :
    (l.addTask task).Inv foreign := by
  have hlen : (l.addTask task).session.dag.nodes.length = l.session.dag.nodes.length + 1 := Session.length_addTask _ _
  refine ⟨h.reachable.step (.addTask _ task hb), fun n => ?_, fun a ha => ?_, ?_⟩
  · rw [hlen, ← NodeId.eq_ofLen_or_lt_iff, ← h.mem_issued, or_comm]
    unfold Ledger.addTask
    rw [List.mem_append, List.mem_singleton]
    rfl
  · rcases List.mem_append.mp ha with ha | ha
    · exact h.allocated a ha
    · obtain rfl := List.mem_singleton.mp ha
      exact h.mem_issued
  · rw [hlen, List.range_succ, ← h.lengths]
    exact List.map_append

theorem Inv.dependsOn (h : l.Inv foreign) {b : TaskBuilder Ty} {args : List (Arg Ty)}
    (hstep : Session.Step foreign l.session (l.session.dependsOn b args)) (hb : l.session.builder = some b) :
    (l.dependsOn b args).Inv foreign := by
  have hlen : (l.dependsOn b args).session.dag.nodes.length = l.session.dag.nodes.length :=
    Session.length_dependsOn _ _ _
  refine ⟨h.reachable.step hstep, fun n => ?_, h.allocated, ?_⟩
  · rw [hlen, ← h.mem_issued]
    unfold Ledger.dependsOn
    rw [List.mem_append, List.mem_singleton]
    -- the id of the builder was issued with it
    have hissued : b.id ∈ l.issued := by
      obtain ⟨len, hlast, hid⟩ := (Session.Reachable.linked h.reachable).builder_last b hb
      rw [h.mem_issued, hid, NodeId.index_ofLen]
      omega
    constructor
    · rintro (hn | rfl)
      · exact hn
      · exact hissued
    · exact Or.inl
  · rw [hlen, ← h.lengths]
    rfl

theorem Reachable.inv (h : l.Reachable foreign) : l.Inv foreign := by
  refine System.Reachable.invariant (I := Inv foreign) ?_ ?_ h
  · rintro l rfl
    exact inv_new
  · intro l l' ih hstep
    cases hstep with
    | addTask task hb => exact ih.addTask hb task
    | coerceBuilder b b' hb hle =>
      exact ⟨ih.reachable.step (.coerceBuilder _ b b' hb hle), ih.mem_issued, ih.allocated, ih.lengths⟩
    | dependsOn b args hb hty hargs => exact ih.dependsOn (.dependsOn _ b args hb hty hargs) hb
    | dropBuilder b hb => exact ⟨ih.reachable.step (.dropBuilder _ b hb), ih.mem_issued, ih.allocated, ih.lengths⟩

theorem Inv.allocations_lt_iff (h : l.Inv foreign) (bound : Nat) :
    (∀ a ∈ l.allocations, a.dag.nodes.length < bound) ↔ l.session.dag.nodes.length ≤ bound := by
  have hmem : ∀ i, i < l.session.dag.nodes.length ↔ ∃ a ∈ l.allocations, a.dag.nodes.length = i := by
    intro i
    rw [← List.mem_range, ← h.lengths, List.mem_map]
  constructor
  · intro hall
    by_contra hlt
    obtain ⟨a, ha, hlen⟩ := (hmem bound).mp (by omega)
    have := hall a ha
    omega
  · intro hle a ha
    have := (hmem _).mpr ⟨a, ha, rfl⟩
    omega

/-- **When ids are fresh**: in every run of any length, a call of `add_task` allocates a fresh id exactly when fewer than
`2 ^ 32` tasks were added before; all calls of a run do exactly when it adds at most `2 ^ 32` tasks. -/
theorem Reachable.fresh_iff (h : l.Reachable foreign) :
    (∀ a ∈ l.allocations, a.Fresh ↔ a.dag.nodes.length < 2 ^ 32) ∧
      ((∀ a ∈ l.allocations, a.Fresh) ↔ l.session.dag.nodes.length ≤ 2 ^ 32) := by
  have hinv := h.inv
  have heach : ∀ a ∈ l.allocations, a.Fresh ↔ a.dag.nodes.length < 2 ^ 32 := fun a ha =>
    Allocation.fresh_iff_lt (hinv.allocated a ha)
  refine ⟨heach, ?_⟩
  rw [← hinv.allocations_lt_iff]
  exact forall₂_congr heach

end Ledger

/-! ## Too many tasks -/

namespace Sample

def addMany : Nat → Ledger Value
  | 0 => .new
  | n + 1 => (addMany n).addTask (value 0)

theorem addMany_spec (n : Nat) : (addMany n).Reachable (fun _ => False) ∧ (addMany n).session.builder = none ∧
    (addMany n).session.dag.nodes.length = n := by
  induction n with
  | zero => exact ⟨.of_init rfl, rfl, rfl⟩
  | succ n ih =>
    obtain ⟨hreach, hb, hlen⟩ := ih
    refine ⟨hreach.step (.addTask _ (value 0) hb), hb, ?_⟩
    show ((addMany n).session.addTask (value 0)).dag.nodes.length = n + 1
    rw [Session.length_addTask, hlen]

theorem addMany_collides (n : Nat) (hn : 2 ^ 32 ≤ n) :
    ∃ a ∈ (addMany (n + 1)).allocations, a.id = .ofLen n ∧ a.id ∈ a.issued := by
  obtain ⟨hreach, -, hlen⟩ := addMany_spec n
  refine ⟨⟨(addMany n).session.dag, (addMany n).issued, value 0⟩, ?_, ?_, ?_⟩
  · exact List.mem_append_right _ (List.mem_singleton.mpr rfl)
  · exact congrArg NodeId.ofLen hlen
  · rw [hreach.inv.mem_issued, Allocation.index_id]
    dsimp only
    omega

end Sample

/-- The last of `2 ^ 32 + 1` calls returns the id of the first. -/
theorem ids_collide : (Sample.addMany (2 ^ 32 + 1)).Reachable (fun _ => False) ∧
    ∃ a ∈ (Sample.addMany (2 ^ 32 + 1)).allocations, a.id = .ofLen 0 ∧ ¬ a.Fresh := by
  obtain ⟨a, ha, hid, hissued⟩ := Sample.addMany_collides (2 ^ 32) (Nat.le_refl _)
  refine ⟨(Sample.addMany_spec _).1, a, ha, ?_, fun hfresh => hfresh.unused hissued⟩
  rw [hid, ← NodeId.index_inj, NodeId.index_ofLen, NodeId.index_ofLen]
  rfl

theorem fresh_sample : (Sample.addMany 3).Reachable (fun _ => False) ∧
    ∀ a ∈ (Sample.addMany 3).allocations, a.Fresh := by
  obtain ⟨hreach, -, hlen⟩ := Sample.addMany_spec 3
  exact ⟨hreach, (Ledger.Reachable.fresh_iff hreach).2.mpr (by rw [hlen]; decide)⟩

end Dagx
