import Dagx.Program

/-!
# The build histories of programs

* `Program.append`: one program after another (`build_append`);
* `Session.Names ids`: the handles in scope are those issued (`Names.exists_deps`: a tuple of these is one of variables);
* `Session.Written`: the calls so far are those of a program, but for a builder that is alive (`Written.step`);
* `plain_iff_exists_program`: the histories of programs are those without such a builder that use every handle and builder
  at its own type.
-/

namespace Dagx

open System

variable {Ty : Type} [Preorder Ty] {Val : Ty → Type}

namespace Program

def append : {Γ Δ Θ : List Ty} → Program Val Γ Δ → Program Val Δ Θ → Program Val Γ Θ
  | _, _, _, .done, q => q
  | _, _, _, .source task rest, q => .source task (rest.append q)
  | _, _, _, .node task deps rest, q => .node task deps (rest.append q)
  | _, _, _, .drop task rest, q => .drop task (rest.append q)

theorem build_append {Γ Δ Θ : List Ty} (p : Program Val Γ Δ) (q : Program Val Δ Θ) (ids : Inputs (fun _ => NodeId) Γ)
    (s : Session Val) : (p.append q).build ids s = q.build (p.build ids s).2 (p.build ids s).1 := by
  induction p generalizing s with
  | done => rfl
  | source task rest ih => exact ih q _ _
  | node task deps rest ih => exact ih q _ _
  | drop task rest ih => exact ih q _ _

theorem builder_build {Γ Δ : List Ty} (p : Program Val Γ Δ) (ids : Inputs (fun _ => NodeId) Γ) {s : Session Val}
    (hb : s.builder = none) : (p.build ids s).1.builder = none := by
  induction p generalizing s with
  | done => exact hb
  | source task rest ih => exact ih _ hb
  | node task deps rest ih => exact ih _ rfl
  | drop task rest ih => exact ih _ rfl

end Program

namespace Session

variable {s s' : Session Val} {Γ : List Ty} {ids : Inputs (fun _ => NodeId) Γ}

/-- The handles in scope are those issued. -/
def Names (s : Session Val) (ids : Inputs (fun _ => NodeId) Γ) : Prop :=
  ∀ h, h ∈ s.handles ↔ ∃ x : Var Γ h.ty, x.get ids = h.id

theorem Names.cons (h : s.Names ids) {id : NodeId} {R : Ty} (hs' : s'.handles = s.handles ++ [⟨id, R⟩]) :
    s'.Names (Γ := R :: Γ) (id, ids) := by
  rintro ⟨n, T⟩
  rw [hs', List.mem_append, h, List.mem_singleton]
  constructor
  · rintro (⟨x, hx⟩ | heq)
    · exact ⟨.tail x, hx⟩
    · cases heq
      exact ⟨.head, rfl⟩
  · rintro ⟨x, hx⟩
    cases x with
    | head =>
      have hx : id = n := hx
      exact Or.inr (by rw [hx])
    | tail x => exact Or.inl ⟨x, hx⟩

theorem Names.exists_deps (h : s.Names ids) (args : List (Arg Ty)) {I : List Ty}
    (hty : args.map (fun a => a.handle.ty) = I) (hargs : ∀ a ∈ args, ∃ x ∈ s.handles, a = .own x) :
    ∃ deps : Deps Γ I, deps.args ids = args := by
  subst hty
  induction args with
  | nil => exact ⟨.nil, rfl⟩
  | cons a args ih =>
    obtain ⟨deps, hdeps⟩ := ih fun b hb => hargs b (List.mem_cons_of_mem a hb)
    obtain ⟨⟨n, T⟩, hmem, rfl⟩ := hargs a List.mem_cons_self
    obtain ⟨x, hx⟩ := (h ⟨n, T⟩).mp hmem
    have hx : x.get ids = n := hx
    refine ⟨.cons x deps, ?_⟩
    show .own ⟨x.get ids, T⟩ :: deps.args ids = _
    rw [hx, hdeps]

/-- The calls so far are those of a program, and maybe an `add_task` whose builder is alive. -/
def Written (s : Session Val) : Prop :=
  ∃ (Δ : List Ty) (p : Program Val [] Δ) (t : Session Val) (ids : Inputs (fun _ => NodeId) Δ),
    p.build () .new = (t, ids) ∧ t.builder = none ∧ t.Names ids ∧
      (s = t ∨ ∃ (R T : Ty) (I : List Ty) (task : TaskBody Val R (T :: I)), s = t.addTask ⟨T :: I, R, task⟩)

theorem written_new : (new : Session Val).Written := by
  refine ⟨[], .done, .new, (), rfl, rfl, fun h => ⟨fun hh => ?_, ?_⟩, Or.inl rfl⟩
  · cases hh
  · rintro ⟨x, -⟩
    cases x

theorem written_append {Δ Θ : List Ty} {p : Program Val [] Δ} {t : Session Val} {ids : Inputs (fun _ => NodeId) Δ}
    (hbuild : p.build () .new = (t, ids)) (q : Program Val Δ Θ) (hb : (q.build ids t).1.builder = none)
    (hnames : (q.build ids t).1.Names (q.build ids t).2) : (q.build ids t).1.Written := by
  refine ⟨Θ, p.append q, _, _, ?_, hb, hnames, Or.inl rfl⟩
  have happend := p.build_append q () .new
  exact happend.trans (by rw [hbuild])

/-- **Every call is one of a program.** -/
theorem Written.step (h : s.Written) (hs : PlainStep s s') : s'.Written := by
  obtain ⟨Δ, p, t, ids, hbuild, hb, hnames, rfl | ⟨R, T, I, task, rfl⟩⟩ := h
  · -- no builder is alive: the call can only be an `add_task`
    cases hs with
    | addTask node hb' =>
      obtain ⟨Input, R, task⟩ := node
      cases Input with
      | nil => exact written_append hbuild (.source task .done) hb (hnames.cons rfl)
      | cons T I => exact ⟨Δ, p, s, ids, hbuild, hb, hnames, Or.inr ⟨R, T, I, task, rfl⟩⟩
    | dependsOn b args hb' _ _ =>
      rw [hb] at hb'
      cases hb'
    | dropBuilder b hb' =>
      rw [hb] at hb'
      cases hb'
  · -- the builder of the last task is alive
    cases hs with
    | addTask node hb' => cases hb'
    | dependsOn b args hb' hty hargs =>
      cases hb'
      obtain ⟨deps, rfl⟩ := hnames.exists_deps args hty hargs
      exact written_append hbuild (.node task deps .done) rfl (hnames.cons rfl)
    | dropBuilder b hb' => exact written_append hbuild (.drop task .done) rfl hnames

theorem Plain.written (hs : s.Plain) : s.Written := by
  refine System.Reachable.invariant (I := Written) ?_ (fun _ _ h hstep => h.step hstep) hs
  rintro s rfl
  exact written_new

/-- **The build histories of programs**: the calls made on a runner are those of a typed program with as many tasks, whose
variables in scope at its end are the handles issued, with their types, exactly when they use the runner's own handles,
every handle and builder at the type it was issued at, and no builder is alive. -/
theorem plain_iff_exists_program : s.Plain ∧ s.builder = none ↔
    ∃ (Δ : List Ty) (p : Program Val [] Δ), (p.build () .new).1 = s ∧ p.tasks = s.dag.nodes.length ∧
      ∀ h, h ∈ s.handles ↔ ∃ x : Var Δ h.ty, x.get (p.build () .new).2 = h.id := by
  have hscope : (new : Session Val).InScope (Γ := []) () := fun _ x => nomatch x
  constructor
  · rintro ⟨hs, hb⟩
    obtain ⟨Δ, p, t, ids, hbuild, -, hnames, rfl | ⟨R, T, I, task, rfl⟩⟩ := hs.written
    · obtain ⟨-, hlen⟩ := p.build_steps hscope rfl
      refine ⟨Δ, p, by rw [hbuild], ?_, by rw [hbuild]; exact hnames⟩
      rw [hbuild] at hlen
      rw [hlen]
      simp [new, DagRunner.new]
    · cases hb
  · rintro ⟨Δ, p, rfl, -, -⟩
    exact ⟨⟨.new, rfl, (p.build_steps hscope rfl).1⟩, p.builder_build () rfl⟩

theorem plain_iff_exists_program_sample : ∃ (Δ : List Sample.Kind) (p : Program Sample.Value [] Δ),
    (p.build () .new).1 = Sample.session (Sample.value 2) ∧ p.tasks = 5 := by
  obtain ⟨Δ, p, hbuild, htasks, -⟩ := plain_iff_exists_program.mp
    ⟨Sample.plain_session (Sample.value 2) rfl rfl, (rfl : (Sample.session (Sample.value 2)).builder = none)⟩
  exact ⟨Δ, p, hbuild, htasks⟩

end Session

end Dagx
