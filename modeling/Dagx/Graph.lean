import Dagx.Kahn
import Mathlib.Order.WellFounded
import Mathlib.Order.Interval.Set.Defs

/-!
# Graphs built with handles of their own runner

* `OwnHandles.deps_eq`: no node is blocked, the scheduler's graph is `edges`;
* `OwnHandles.ready`: node `n` is ready within `n + 1` rounds;
* `wellWired_new`, `WellWired.addSource`, `WellWired.addWired`: the calls that build a well-wired graph;
* `Sample.session`: two sources, their sum, and two consumers of the sum, one of which takes it twice; `Sample.coerced`: a
  handle that is passed at a supertype;
* `OwnHandles.wiring`: acyclicity and the wiring invariant;
* `OwnHandles.layers`: `compute_layers` puts every node into the layer of its depth.
-/

namespace Dagx

open Layering DagRunner

variable {Ty : Type} [Preorder Ty] {Val : Ty → Type}

theorem filter_key_eq_singleton {β : Type} {l : List (NodeId × β)} {n : NodeId} {b : β}
    (hnodup : (l.map Prod.fst).Nodup) (hmem : (n, b) ∈ l) : l.filter (fun e => e.1 = n) = [(n, b)] := by
  induction l with
  | nil => simp at hmem
  | cons e l ih =>
    rw [List.map_cons, List.nodup_cons] at hnodup
    rcases List.mem_cons.mp hmem with rfl | hmem
    · rw [List.filter_cons_of_pos (by simp), List.cons_inj_right, List.filter_eq_nil_iff]
      intro e he hne
      exact hnodup.1 (List.mem_map.mpr ⟨e, he, by simpa using hne⟩)
    · have hne : e.1 ≠ n := fun he => hnodup.1 (List.mem_map.mpr ⟨(n, b), hmem, he.symm⟩)
      rw [List.filter_cons_of_neg (by simpa using hne)]
      exact ih hnodup.2 hmem

namespace Session

/-! ## The dependency graph -/

theorem OwnHandles.deps_eq {s : Session Val} (h : s.OwnHandles) (hlen : s.dag.nodes.length < 2 ^ 32) :
    s.dag.deps = fun n => s.dag.edges.lookup n := by
  funext n
  cases hl : s.dag.edges.lookup n with
  | none => rw [DagRunner.deps, hl, Option.filter_none]
  | some ds =>
    have hedges : s.dag.edgesOf n = ds := by rw [edgesOf, hl]; rfl
    refine deps_eq_some.mpr ⟨hl, fun d hd => ?_⟩
    rw [addedAt_eq_index _ hlen, addedAt_eq_index _ hlen]
    exact (h.lt hlen (hedges ▸ hd)).le

theorem OwnHandles.lookup_edges {s : Session Val} (h : s.OwnHandles) (hlen : s.dag.nodes.length < 2 ^ 32) {n : NodeId}
    (hn : n.index < s.dag.nodes.length) : s.dag.edges.lookup n = some (s.dag.edgesOf n) := by
  have hmem := ((Reachable.inv h hlen).wired.mem_edges n).mpr hn
  obtain ⟨ds, hds⟩ := Option.isSome_iff_exists.mp (AList.lookup_isSome.mpr hmem)
  rw [edgesOf, hds]
  rfl

theorem OwnHandles.deps_edgesOf {s : Session Val} (h : s.OwnHandles) (hlen : s.dag.nodes.length < 2 ^ 32) {n : NodeId}
    (hn : n.index < s.dag.nodes.length) : s.dag.deps n = some (s.dag.edgesOf n) := by
  rw [h.deps_eq hlen]
  exact h.lookup_edges hlen hn

theorem OwnHandles.ready {s : Session Val} (h : s.OwnHandles) (hlen : s.dag.nodes.length < 2 ^ 32) {n : NodeId}
    (hn : n.index < s.dag.nodes.length) : Ready s.dag.deps (n.index + 1) n := by
  induction hk : n.index using Nat.strong_induction_on generalizing n with
  | h k ih =>
    subst hk
    refine ⟨s.dag.edgesOf n, h.deps_edgesOf hlen hn, fun d hd => ?_⟩
    have hlt := h.lt hlen hd
    exact (ih d.index hlt (by omega) rfl).mono hlt

theorem OwnHandles.exists_ready_iff {s : Session Val} (h : s.OwnHandles) (hlen : s.dag.nodes.length < 2 ^ 32)
    (n : NodeId) : (∃ k, Ready s.dag.deps k n) ↔ n.index < s.dag.nodes.length := by
  constructor
  · rintro ⟨k, hk⟩
    cases k with
    | zero => exact hk.elim
    | succ k =>
      obtain ⟨ds, hds, -⟩ := hk
      exact (Reachable.inv h hlen).wired.index_lt (deps_eq_some.mp hds).1
  · intro hn
    exact ⟨_, h.ready hlen hn⟩

/-! ## Building a well-wired graph -/

theorem wellWired_new : (new : Session Val).WellWired where
  own := .of_init rfl
  small := by simp [new, DagRunner.new]
  wired id task h := by simp [new, DagRunner.new, taskOf] at h

theorem WellWired.addSource {s : Session Val} (h : s.WellWired) (hb : s.builder = none)
    (hlen : s.dag.nodes.length + 1 < 2 ^ 32) (task : TypedNode Val) (hin : task.Input = []) :
    (s.addTask task).WellWired ∧ (s.addTask task).builder = none := by
  have hadd : s.addTask task =
      { s with dag := (s.dag.addTask task).2, handles := s.handles ++ [⟨.ofLen s.dag.nodes.length, task.Output⟩] } := by
    rw [Session.addTask, hin]
    rfl
  refine ⟨⟨h.own.step (.addTask s task hb), ?_, fun id t ht hne => ?_⟩, by rw [hadd]; exact hb⟩
  · rw [length_addTask]
    exact hlen
  · rw [hadd] at ht ⊢
    rw [taskOf_addTask s.dag task id (by omega)] at ht
    split_ifs at ht with hid
    · cases ht
      exact absurd hin hne
    · exact h.wired id t ht hne

theorem WellWired.addWired {s : Session Val} (h : s.WellWired) (hb : s.builder = none)
    (hlen : s.dag.nodes.length + 1 < 2 ^ 32) (task : TypedNode Val) (args : List (Arg Ty)) (hin : task.Input ≠ [])
    (hty : args.map (fun a => a.handle.ty) = task.Input) (hargs : ∀ a ∈ args, s.Owns (fun _ => False) a) :
    ((s.addTask task).dependsOn ⟨.ofLen s.dag.nodes.length, task.Input, task.Output⟩ args).WellWired ∧
      ((s.addTask task).dependsOn ⟨.ofLen s.dag.nodes.length, task.Input, task.Output⟩ args).builder = none := by
  have hadd : s.addTask task = { s with
      dag := (s.dag.addTask task).2
      builder := some ⟨.ofLen s.dag.nodes.length, task.Input, task.Output⟩ } := by
    unfold Session.addTask
    cases hin' : task.Input with
    | nil => exact absurd hin' hin
    | cons T Input => rfl
  have hbuilder : (s.addTask task).builder = some ⟨.ofLen s.dag.nodes.length, task.Input, task.Output⟩ := by rw [hadd]
  have hown := h.own.step (.addTask s task hb)
  have howns : ∀ a ∈ args, (s.addTask task).Owns (fun _ => False) a := by
    rw [hadd]
    exact hargs
  refine ⟨⟨hown.step (.dependsOn _ _ args hbuilder hty howns), ?_, fun id t ht hne => ?_⟩, rfl⟩
  · rw [length_dependsOn, length_addTask]
    exact hlen
  · have htask : (s.addTask task).dag.taskOf id = some t := by rw [← ht]; exact (taskOf_dependsOn _ _ _ id).symm
    show ∃ args', (id, args') ∈ (s.addTask task).calls ++ [(_, args)]
    rw [hadd] at htask ⊢
    rw [taskOf_addTask s.dag task id (by omega)] at htask
    split_ifs at htask with hid
    · exact ⟨args, by simp [hid]⟩
    · obtain ⟨args', hargs'⟩ := h.wired id t htask hne
      exact ⟨args', List.mem_append_left _ hargs'⟩

end Session

/-! ## A small graph -/

namespace Sample

inductive Kind
  | i32
  | string
  /-- `for<'a> fn(&'a str) -> i32` -/
  | fnStr
  /-- `fn(&'static str) -> i32` -/
  | fnStaticStr
deriving DecidableEq

/-- A function of all strings can be used as one of the `'static` strings. -/
instance : Preorder Kind where
  le T U := T = U ∨ T = .fnStr ∧ U = .fnStaticStr
  le_refl T := Or.inl rfl
  le_trans T U V := by cases T <;> cases U <;> cases V <;> simp

abbrev Value : Kind → Type
  | .i32 => Int
  | .string => String
  | .fnStr => String → Int
  | .fnStaticStr => String → Int

def value (n : Int) : TypedNode Value := ⟨[], .i32, .ret n⟩

def boom : TypedNode Value := ⟨[], .i32, .panic (.str "boom")⟩

def add : TypedNode Value := ⟨[.i32, .i32], .i32, .next le_rfl fun a : Int => .next le_rfl fun b : Int => .ret (a + b)⟩

def format : TypedNode Value := ⟨[.i32], .string, .next le_rfl fun a : Int => .ret (toString a)⟩

def sources (task : TypedNode Value) : Session Value := (Session.new.addTask task).addTask (value 3)

def sum (task : TypedNode Value) : Session Value :=
  ((sources task).addTask add).dependsOn ⟨.ofLen 2, [.i32, .i32], .i32⟩ [.own ⟨.ofLen 0, .i32⟩, .own ⟨.ofLen 1, .i32⟩]

/-- The sum doubled, by a task that takes its handle twice. -/
def double (task : TypedNode Value) : Session Value :=
  ((sum task).addTask add).dependsOn ⟨.ofLen 3, [.i32, .i32], .i32⟩ [.own ⟨.ofLen 2, .i32⟩, .own ⟨.ofLen 2, .i32⟩]

/-- A second consumer of the sum. The layers are `[0, 1]`, `[2]` and `[3, 4]`. -/
def session (task : TypedNode Value) : Session Value :=
  ((double task).addTask format).dependsOn ⟨.ofLen 4, [.i32], .string⟩ [.own ⟨.ofLen 2, .i32⟩]

theorem wellWired_session (task : TypedNode Value) (hin : task.Input = []) (hout : task.Output = .i32) :
    (session task).WellWired := by
  obtain ⟨Input, Output, body⟩ := task
  subst hin hout
  have hnew : (Session.new : Session Value).WellWired := Session.wellWired_new
  have h₀ := hnew.addSource rfl (by decide) ⟨[], .i32, body⟩ rfl
  have h₁ := h₀.1.addSource h₀.2 (by simp [Session.length_addTask, Session.new, DagRunner.new]) (value 3) rfl
  have h₂ := h₁.1.addWired h₁.2 (by simp [Session.length_addTask, Session.new, DagRunner.new]) add
    [.own ⟨.ofLen 0, .i32⟩, .own ⟨.ofLen 1, .i32⟩] (by decide) rfl
    (Session.owns_of_mem (by simp [Session.addTask, value, Session.new, DagRunner.new]))
  have h₃ := h₂.1.addWired h₂.2
    (by simp [Session.length_addTask, Session.length_dependsOn, Session.new, DagRunner.new]) add
    [.own ⟨.ofLen 2, .i32⟩, .own ⟨.ofLen 2, .i32⟩] (by decide) rfl
    (Session.owns_of_mem (by simp [Session.addTask, Session.dependsOn, value, add, Session.new, DagRunner.new]))
  exact (h₃.1.addWired h₃.2
    (by simp [Session.length_addTask, Session.length_dependsOn, Session.new, DagRunner.new]) format
    [.own ⟨.ofLen 2, .i32⟩] (by decide) rfl
    (Session.owns_of_mem (by simp [Session.addTask, Session.dependsOn, value, add, Session.new, DagRunner.new]))).1

theorem plain_sources (task : TypedNode Value) (hin : task.Input = []) : (sources task).Plain := by
  obtain ⟨Input, Output, body⟩ := task
  subst hin
  have hnew : (Session.new : Session Value).Plain := .of_init rfl
  exact (hnew.step (.addTask _ _ rfl)).step (.addTask _ _ rfl)

theorem plain_sum (task : TypedNode Value) (hin : task.Input = []) (hout : task.Output = .i32) : (sum task).Plain := by
  have hsources := plain_sources task hin
  obtain ⟨Input, Output, body⟩ := task
  subst hin hout
  exact (hsources.step (.addTask _ add rfl)).step (.dependsOn _ _ _ rfl rfl
    (by simp [sources, Session.addTask, value, add, Session.new, DagRunner.new]))

theorem steps_session (task : TypedNode Value) (hin : task.Input = []) (hout : task.Output = .i32) :
    Relation.ReflTransGen Session.PlainStep (sum task) (session task) := by
  obtain ⟨Input, Output, body⟩ := task
  subst hin hout
  have hdouble : Relation.ReflTransGen Session.PlainStep (sum ⟨[], .i32, body⟩) (double ⟨[], .i32, body⟩) :=
    (Relation.ReflTransGen.single (.addTask _ add rfl)).tail (.dependsOn _ _ _ rfl rfl
      (by simp [sum, sources, Session.addTask, Session.dependsOn, value, add, Session.new, DagRunner.new]))
  exact (hdouble.tail (.addTask _ format rfl)).tail (.dependsOn _ _ _ rfl rfl
    (by simp [double, sum, sources, Session.addTask, Session.dependsOn, value, add, format, Session.new, DagRunner.new]))

theorem plain_session (task : TypedNode Value) (hin : task.Input = []) (hout : task.Output = .i32) :
    (session task).Plain := by
  obtain ⟨s₀, h₀, hr⟩ := plain_sum task hin hout
  exact ⟨s₀, h₀, hr.trans (steps_session task hin hout)⟩

def measure : TypedNode Value := ⟨[], .fnStr, .ret fun s : String => (s.length : Int)⟩

def call : TypedNode Value := ⟨[.fnStaticStr], .i32, .next le_rfl fun f : String → Int => .ret (f "dag")⟩

/-- The handle of the source is passed to the call at a supertype. -/
def coerced : Session Value :=
  ((Session.new.addTask measure).addTask call).dependsOn ⟨.ofLen 1, [.fnStaticStr], .i32⟩ [.own ⟨.ofLen 0, .fnStaticStr⟩]

theorem wellWired_coerced : coerced.WellWired := by
  have hnew : (Session.new : Session Value).WellWired := Session.wellWired_new
  have h₀ := hnew.addSource rfl (by decide) measure rfl
  refine (h₀.1.addWired h₀.2 (by simp [Session.length_addTask, Session.new, DagRunner.new]) call
    [.own ⟨.ofLen 0, .fnStaticStr⟩] (by decide) rfl fun a ha => ?_).1
  obtain rfl := List.mem_singleton.mp ha
  exact ⟨⟨.ofLen 0, .fnStr⟩, List.mem_singleton.mpr rfl, rfl, Or.inr ⟨rfl, rfl⟩⟩

theorem nonPanicking_of_nodes {dag : DagRunner Value} {n : Int}
    (hnodes : dag.nodes ⊆ [some (value n), some (value 3), some add, some format, some measure, some call]) (id : NodeId)
    (task : TypedNode Value) (h : dag.taskOf id = some task) : task.NonPanicking := by
  have hmem := hnodes (taskOf_mem h)
  simp only [List.mem_cons, Option.some.injEq, List.not_mem_nil, or_false] at hmem
  rcases hmem with rfl | rfl | rfl | rfl | rfl | rfl
  · exact fun _ => ⟨_, rfl⟩
  · exact fun _ => ⟨_, rfl⟩
  · exact fun _ => ⟨_, rfl⟩
  · exact fun _ => ⟨_, rfl⟩
  · exact fun _ => ⟨_, rfl⟩
  · exact fun _ => ⟨_, rfl⟩

theorem nonPanicking_coerced (id : NodeId) (task : TypedNode Value) (h : coerced.dag.taskOf id = some task) :
    task.NonPanicking := by
  refine nonPanicking_of_nodes (n := 0) ?_ id task h
  show [some measure, some call] ⊆ _
  simp

theorem nonPanicking {n : Int} (id : NodeId) (task : TypedNode Value)
    (h : (session (value n)).dag.taskOf id = some task) : task.NonPanicking := by
  refine nonPanicking_of_nodes (n := n) ?_ id task h
  show [some (value n), some (value 3), some add, some add, some format] ⊆ _
  simp

end Sample

namespace Session

/-! ## The wiring invariant -/

/-- **Acyclicity and the wiring invariant**: both maps have the ids `0, …, nodes.len() - 1` as keys and are exact
inverses of each other, with multiplicities; dependencies are earlier tasks; the dependencies of a task are those of
the one `depends_on` call made for it, in order. -/
theorem OwnHandles.wiring {s : Session Val} (h : s.OwnHandles) (hlen : s.dag.nodes.length < 2 ^ 32) :
    NodeId.index '' {id | id ∈ s.dag.edges} = Set.Iio s.dag.nodes.length ∧
      NodeId.index '' {id | id ∈ s.dag.dependents} = Set.Iio s.dag.nodes.length ∧
      (∀ n d, (s.dag.edgesOf n).count d = (s.dag.dependentsOf d).count n) ∧
      (∀ n, ∀ d ∈ s.dag.edgesOf n, d.index < n.index) ∧ WellFounded (fun d n => d ∈ s.dag.edgesOf n) ∧
      ∀ n, (∀ call ∈ s.calls, call.1 ≠ n) ∧ s.dag.edgesOf n = [] ∨
        ∃ args, s.calls.filter (fun call => call.1 = n) = [(n, args)] ∧ s.dag.edgesOf n = toNodeIds args := by
  have hinv := Reachable.inv h hlen
  have hkeys : ∀ K : NodeId → Prop, (∀ id, K id ↔ id.index < s.dag.nodes.length) →
      NodeId.index '' {id | K id} = Set.Iio s.dag.nodes.length := by
    intro K hK
    ext i
    constructor
    · rintro ⟨id, hid, rfl⟩
      exact (hK id).mp hid
    · intro hi
      have hlt : i < s.dag.nodes.length := hi
      have hidx : (NodeId.ofLen i).index = i := NodeId.index_ofLen_of_lt (by omega)
      exact ⟨.ofLen i, (hK _).mpr (by rw [hidx]; exact hi), hidx⟩
  have hlt : ∀ n, ∀ d ∈ s.dag.edgesOf n, d.index < n.index := fun n d hd => h.lt hlen hd
  refine ⟨hkeys _ hinv.wired.mem_edges, hkeys _ hinv.wired.mem_dependents, fun n d => ?_, hlt, ?_, fun n => ?_⟩
  · rw [hinv.wired.count, addedAt_eq_index _ hlen, addedAt_eq_index _ hlen]
    split_ifs with hle
    · rfl
    · exact List.count_eq_zero.mpr fun hd => hle (hlt n d hd).le
  · exact Subrelation.wf (fun {d n} hd => hlt n d hd) (measure NodeId.index).wf
  · by_cases hcall : ∀ call ∈ s.calls, call.1 ≠ n
    · refine Or.inl ⟨hcall, ?_⟩
      rw [hinv.edges, argsOf_of_notMem hcall]
      rfl
    · push Not at hcall
      obtain ⟨⟨m, args⟩, hc, rfl⟩ := hcall
      refine Or.inr ⟨args, ?_, by rw [hinv.edges, argsOf_of_mem hinv.calls_nodup hc]⟩
      exact filter_key_eq_singleton hinv.calls_nodup hc

theorem wiring_sample :
    ((Sample.session (Sample.value 2)).dag.dependentsOf (.ofLen 2)).count (.ofLen 3) = 2 ∧
      WellFounded (fun d n => d ∈ (Sample.session (Sample.value 2)).dag.edgesOf n) := by
  have hs := Sample.wellWired_session (Sample.value 2) rfl rfl
  obtain ⟨-, -, hcount, -, hwf, -⟩ := OwnHandles.wiring hs.own hs.small
  refine ⟨?_, hwf⟩
  rw [← hcount]
  decide

/-! ## The layers -/

theorem layer_of_atDepth {deps : NodeId → Option (List NodeId)} {layers : List (List NodeId)}
    (h : Layered deps 0 layers) {n : NodeId} {k : Nat} (hn : AtDepth deps k n) :
    ∃ layer, layers[k]? = some layer ∧ n ∈ layer := by
  obtain ⟨layer, hlayer, hmem⟩ := List.mem_flatten.mp ((h.mem_flatten n).mpr ⟨k, Nat.zero_le k, hn⟩)
  obtain ⟨i, hi⟩ := List.mem_iff_getElem?.mp hlayer
  have hat := ((h.getElem hi).2.2 n).mp hmem
  rw [Nat.zero_add] at hat
  obtain rfl := hat.unique hn
  exact ⟨layer, hi, hmem⟩

/-- **`compute_layers` is exact**: for every iteration order, every node occurs once, no layer is empty, and the layer
of a node is the length of its longest dependency path, that is `0` without dependencies and else one more than the
largest layer among its dependencies. -/
theorem OwnHandles.layers {s : Session Val} (h : s.OwnHandles) (hlen : s.dag.nodes.length < 2 ^ 32) (it : IterOrder) :
    ∃ layers, s.dag.computeLayers it = some (.ok (.ok layers)) ∧
      (∀ n, layers.flatten.count n = if n.index < s.dag.nodes.length then 1 else 0) ∧ (∀ layer ∈ layers, layer ≠ []) ∧
      ∀ i layer, layers[i]? = some layer → ∀ n ∈ layer,
        IsGreatest {k | ∃ m, Path (fun n => s.dag.edges.lookup n) n k m ∧ s.dag.edges.lookup m = some []} i ∧
        (s.dag.edgesOf n = [] → i = 0) ∧
        (s.dag.edgesOf n ≠ [] →
          ∃ j, i = j + 1 ∧ IsGreatest {j | ∃ d ∈ s.dag.edgesOf n, ∃ l, layers[j]? = some l ∧ d ∈ l} j) := by
  have hdeps := h.deps_eq hlen
  obtain ⟨layers, hrun, hlayers⟩ := (Reachable.inv h hlen).wired.computeLayers it
  refine ⟨layers, hrun, fun n => ?_, fun layer hl => ?_, fun i layer hi n hn => ?_⟩
  · have hmem : n ∈ layers.flatten ↔ n.index < s.dag.nodes.length := by
      rw [hlayers.mem_flatten, ← h.exists_ready_iff hlen]
      constructor
      · rintro ⟨j, -, hat⟩
        exact ⟨j + 1, hat.1⟩
      · rintro ⟨k, hk⟩
        exact ⟨_, Nat.zero_le _, hk.atDepth⟩
    split_ifs with hlt
    · exact List.count_eq_one_of_mem hlayers.nodup_flatten (hmem.mpr hlt)
    · exact List.count_eq_zero.mpr fun hin => hlt (hmem.mp hin)
  · obtain ⟨i, hi⟩ := List.mem_iff_getElem?.mp hl
    exact (hlayers.getElem hi).1
  · have hat := ((hlayers.getElem hi).2.2 n).mp hn
    rw [Nat.zero_add] at hat
    have hlookup : ∀ ds, s.dag.deps n = some ds → s.dag.edgesOf n = ds := by
      intro ds hds
      rw [edgesOf, (deps_eq_some.mp hds).1]
      rfl
    refine ⟨by simpa only [hdeps] using hat.isGreatest, fun hnil => ?_, fun hne => ?_⟩
    · have hzero : AtDepth s.dag.deps 0 n := by
        obtain ⟨ds, hds, -⟩ := hat.1
        rw [atDepth_zero_iff, hds, ← hlookup ds hds, hnil]
      exact hat.unique hzero
    · cases i with
      | zero => exact absurd (hlookup [] (atDepth_zero_iff.mp hat)) hne
      | succ j =>
        obtain ⟨ds, hds, hready, d, hd, hatd⟩ := atDepth_succ_iff.mp hat
        obtain ⟨l, hl, hdl⟩ := layer_of_atDepth hlayers hatd
        rw [hlookup ds hds]
        refine ⟨j, rfl, ⟨d, hd, l, hl, hdl⟩, ?_⟩
        rintro k ⟨e, he, l', hl', hel⟩
        have hate := ((hlayers.getElem hl').2.2 e).mp hel
        rw [Nat.zero_add] at hate
        exact Nat.le_of_lt_succ (hate.lt_of_ready (hready e he))

theorem layers_sample : ∃ layers, (Sample.session (Sample.value 2)).dag.computeLayers ⟨.stored _, .stored _⟩ =
    some (.ok (.ok layers)) ∧ layers.flatten.count (.ofLen 3) = 1 := by
  have hs := Sample.wellWired_session (Sample.value 2) rfl rfl
  obtain ⟨layers, hrun, hcount, -, -⟩ := OwnHandles.layers hs.own hs.small ⟨.stored _, .stored _⟩
  exact ⟨layers, hrun, by rw [hcount]; decide⟩

example : (Sample.session (Sample.value 2)).dag.computeLayers ⟨.stored _, .stored _⟩ =
    some (.ok (.ok [[.ofLen 0, .ofLen 1], [.ofLen 2], [.ofLen 3, .ofLen 4]])) := by
  decide

end Session

end Dagx
