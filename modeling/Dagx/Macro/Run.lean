import Dagx.Adequacy
import Dagx.Extract
import Dagx.Macro.Routing

/-!
# Tasks written with `#[task]` in a run

* `TaskImpl.Computes`: the `run` emitted by the macro does the same as a given task body, on every `TaskInput`;
* `evalLets_starved`: without an input of the right type, one of its `let`s panics;
* `ItemImpl.computes_task_fn`: a closure that calls `run_impl` is such a body;
* `ItemImpl.run_wired`: in a run, `run_impl` is called on the outputs of the handles given to `depends_on`, in order.
-/

namespace Dagx

open DagRunner

/-- What a well-wired task did in a run: it ran on as many inputs as it has, the outputs of the handles it was given. -/
theorem Session.WellWired.value_run {Ty : Type} [DecidableEq Ty] [Preorder Ty] {Val : Ty → Type} {s : Session Val}
    (hs : s.WellWired) {n : NodeId} {task : TypedNode Val} (ht : s.dag.taskOf n = some task) {sp : Spawner Val}
    (hsp : sp.Honest) {it : IterOrder} {co : CompletionOrder Val} {out : DagOutput Val}
    (hrun : s.dag.run it sp co = some (.ok (.ok out))) :
    ∃ (values : List (AnyVal Val)) (v : Val task.Output),
      (s.argsOf n).map (fun a => out.value a.handle.id) = values.map some ∧ values.length = task.Input.length ∧
        task.task.run values = .ok v ∧ out.value n = some ⟨task.Output, v⟩ := by
  have hinv := Reachable.inv hs.own hs.small
  obtain ⟨r, hr, hok, -⟩ := hinv.wired.run_spec hsp it co
  rw [hrun] at hr
  cases hr
  obtain ⟨hpanic, hlookup, -⟩ := hok out rfl
  have hvalue : ∀ d v, s.dag.Evals d (.ok v) → out.value d = some v := by
    intro d v hv
    rw [DagOutput.value, (hlookup d ⟨d, v⟩).mpr ⟨rfl, hv⟩]
    rfl
  obtain ⟨v, hv⟩ := Dataflow.ok_of_ready (D := s.dag.dataflow) (fun m p _ => hpanic m p)
    (hs.own.ready hs.small (index_lt_of_taskOf ht))
  obtain ⟨values, hvs, hcall⟩ := call_of_evals ht hv
  rw [hinv.edges] at hvs
  have hcount : values.length = task.Input.length := by
    rw [← hvs.length_eq, toNodeIds, List.length_map, hs.length_argsOf ht]
  unfold TypedNode.call at hcall
  cases hout : task.task.run values with
  | error p =>
    rw [hout] at hcall
    cases hcall
  | ok w =>
    rw [hout] at hcall
    cases hcall
    exact ⟨values, w, map_value_eq hvs hvalue, hcount, hout, hvalue n _ hv⟩

namespace Macro

variable {Ty : Type} [DecidableEq Ty] {Val : Ty → Type} {U : Xid} {Tok Obj : Type}

/-- The `run` emitted does the same as the given one, whatever inputs it gets: the same unwrap fails, or it returns or
panics as `run_impl` does on its arguments. -/
def TaskImpl.Computes (impl : TaskImpl U Tok) (meaning : Typ Tok → Ty) {Out : Ty}
    (runImpl : Called Obj Val → Outcome (Val Out)) (obj : Obj) (run : List (AnyVal Val) → Outcome (Val Out)) : Prop :=
  ∀ inputs, (impl.evalRun meaning obj inputs).map (fun r => r.bind fun called => runImpl called.1) = some (run inputs)

theorem evalLets_starved {refs : List (Ident U)} (hinput : inputIdent ∉ refs) {types : List Ty}
    {inputs : List (AnyVal Val)} (hlength : refs.length = types.length) {scope : Locals U Obj Val}
    (hget : scope.get inputIdent = some (.input types inputs)) {payload : Payload}
    (hfail : TaskInput.nexts types inputs = .error payload) :
    evalLets (refs.map fun ident => ⟨ident, inputIdent, inputIdent⟩) scope = some (.error payload) := by
  induction refs generalizing types inputs scope with
  | nil =>
    obtain rfl : types = [] := List.eq_nil_of_length_eq_zero hlength.symm
    cases hfail
  | cons x refs ih =>
    cases types with
    | nil => cases hlength
    | cons T types =>
      have hx : x ≠ inputIdent := fun h => hinput (h ▸ List.mem_cons_self)
      obtain ⟨v, inputs, rfl⟩ | hnext := TaskInput.next_cases T inputs
      · have hfirst : LetNext.eval ⟨x, inputIdent, inputIdent⟩ scope =
            some (.ok ((scope.bind x (.ref ⟨T, v⟩)).bind inputIdent (.input types inputs))) :=
          LetNext.eval_of_input hx hget
        rw [List.map_cons, evalLets, hfirst]
        refine ih (fun h => hinput (List.mem_cons_of_mem x h)) (Nat.succ.inj hlength) (Scope.get_bind_self _ _ _) ?_
        rw [TaskInput.nexts_cons] at hfail
        cases hrest : TaskInput.nexts types inputs with
        | error p =>
          rw [hrest] at hfail
          cases hfail
          rfl
        | ok r =>
          rw [hrest] at hfail
          cases hfail
      · rw [TaskInput.nexts, hnext] at hfail
        cases hfail
        rw [List.map_cons, evalLets, LetNext.eval, if_neg hx, hget]
        simp only [hnext]

variable [Preorder Ty]

theorem computes_expansion (implBlock : ItemImpl U Tok) {runMethod : ImplItemFn U Tok} {receiver : Option Tok}
    {params : List (Param U Tok)} (htakes : runMethod.sig.Takes receiver params) {refs : List (Ident U)}
    (hlength : refs.length = params.length) (hnodup : refs.Nodup) (hinput : inputIdent ∉ refs) (hself : selfIdent ∉ refs)
    {meaning : Typ Tok → Ty} {Out : Ty} {runImpl : Called Obj Val → Outcome (Val Out)} {obj : Obj}
    {f : Inputs Val ((params.map Param.elem).map meaning) → Outcome (Val Out)}
    (hf : ∀ vs, f vs = runImpl ⟨receiver.map fun _ => obj, vs.erase, runMethod.sig.asyncness⟩) :
    (expansion implBlock runMethod (params.map Param.elem) refs).taskImpl.Computes meaning runImpl obj
      (TaskBody.ofInputs _ f).run := by
  intro inputs
  rw [TaskBody.run_ofInputs]
  obtain ⟨vs, rest, rfl⟩ | hfail := TaskInput.nexts_cases ((params.map Param.elem).map meaning) inputs
  · obtain ⟨scope, heval, -⟩ := evalRun_expansion implBlock htakes hlength hnodup hinput hself (Inputs.map_ty_erase vs)
      obj rest
    rw [heval, TaskInput.nexts_erase_append]
    show some (runImpl _) = some (f vs)
    rw [hf]
  · have hlets := evalLets_starved hinput (by simpa using hlength)
      (Scope.get_bind_self (Scope.empty.bind selfIdent (Local.self obj)) inputIdent
        (Local.input ((params.map Param.elem).map meaning) inputs)) hfail
    rw [hfail]
    unfold TaskImpl.evalRun Wrapper.eval
    simp only [expansion, wrapper]
    rw [hlets]
    rfl

/-- **`#[task]` and `task_fn` agree**: for a `run()` with plain parameters the task emitted and the closure that calls
`run_impl` do the same on every `TaskInput`, well-typed or not: on inputs that do not begin with values of the types of the
parameters both panic in `next`, otherwise both do what `run_impl` does on these values. -/
theorem ItemImpl.computes_task_fn (implBlock : ItemImpl U Tok) {runMethod : ImplItemFn U Tok}
    (hrun : implBlock.runMethod = some runMethod) {receiver : Option Tok} {params : List (Param U Tok)}
    (htakes : runMethod.sig.Takes receiver params) (hraw : ∀ p ∈ params, p.ident.raw = false)
    (hnames : (params.map fun p => p.ident.name).Nodup) :
    ∃ e, task implBlock = .ok (.ok e) ∧ ∀ (meaning : Typ Tok → Ty) (obj : Obj)
      (runImpl : Called Obj Val → Outcome (Val (meaning e.taskImpl.output)))
      (closure : TaskFn Val (e.taskImpl.input.map meaning) (meaning e.taskImpl.output)),
      (∀ vs, closure.f vs = runImpl ⟨receiver.map fun _ => obj, vs.erase, runMethod.sig.asyncness⟩) →
      e.taskImpl.Computes meaning runImpl obj closure.run := by
  obtain ⟨refs, htask, hlength, hnodup, hinput, hself⟩ := exists_expansion hrun htakes hraw hnames
  refine ⟨_, htask, fun meaning obj runImpl closure hf inputs => ?_⟩
  rw [TaskFn.run_eq]
  exact computes_expansion implBlock htakes hlength hnodup hinput hself hf inputs

/-- **Arguments in a run**: take a `run()` with plain parameters, and a well-wired graph with a task that does what the
impl emitted does; such a task there is. In a run that returns `Ok`, `run_impl` was called for it on the outputs of the
handles its `depends_on` was given, in this order, of the types of the parameters; what it returned is the task's output. -/
theorem ItemImpl.run_wired (implBlock : ItemImpl U Tok) {runMethod : ImplItemFn U Tok}
    (hrun : implBlock.runMethod = some runMethod) {receiver : Option Tok} {params : List (Param U Tok)}
    (htakes : runMethod.sig.Takes receiver params) (hraw : ∀ p ∈ params, p.ident.raw = false)
    (hnames : (params.map fun p => p.ident.name).Nodup) :
    ∃ e, task implBlock = .ok (.ok e) ∧ e.taskImpl.input = params.map Param.elem ∧
      ∀ (meaning : Typ Tok → Ty) (obj : Obj) (runImpl : Called Obj Val → Outcome (Val (meaning e.taskImpl.output))),
        (∃ body : TaskBody Val (meaning e.taskImpl.output) (e.taskImpl.input.map meaning),
          e.taskImpl.Computes meaning runImpl obj body.run) ∧
        ∀ body : TaskBody Val (meaning e.taskImpl.output) (e.taskImpl.input.map meaning),
          e.taskImpl.Computes meaning runImpl obj body.run →
          ∀ {s : Session Val}, s.WellWired → ∀ {n : NodeId}, s.dag.taskOf n = some ⟨_, _, body⟩ →
            ∀ {sp : Spawner Val}, sp.Honest → ∀ {it : IterOrder} {co : CompletionOrder Val} {out : DagOutput Val},
              s.dag.run it sp co = some (.ok (.ok out)) →
                ∃ (values : List (AnyVal Val)) (v : Val (meaning e.taskImpl.output)),
                  (s.argsOf n).map (fun a => out.value a.handle.id) = values.map some ∧
                  values.map AnyVal.ty = e.taskImpl.input.map meaning ∧
                  runImpl ⟨receiver.map fun _ => obj, values, runMethod.sig.asyncness⟩ = .ok v ∧
                  out.value n = some ⟨_, v⟩ := by
  obtain ⟨refs, htask, hlength, hnodup, hinput, hself⟩ := exists_expansion hrun htakes hraw hnames
  refine ⟨_, htask, rfl, fun meaning obj runImpl => ⟨?_, fun body hbody s hs n ht sp hsp it co out hok => ?_⟩⟩
  · exact ⟨_, computes_expansion implBlock htakes hlength hnodup hinput hself fun _ => rfl⟩
  · obtain ⟨values, v, hvalues, hcount, hv, hout⟩ := hs.value_run ht hsp hok
    -- the body does on these inputs what the one that takes them all does
    have htakesAll : (expansion implBlock runMethod (params.map Param.elem) refs).taskImpl.Computes meaning runImpl obj
        (TaskBody.ofInputs _ fun vs => runImpl ⟨receiver.map fun _ => obj, vs.erase, runMethod.sig.asyncness⟩).run :=
      computes_expansion implBlock htakes hlength hnodup hinput hself fun _ => rfl
    have hcomputes := htakesAll values
    rw [hbody values, TaskBody.run_ofInputs, hv] at hcomputes
    obtain ⟨vs, rest, rfl⟩ | hfail := TaskInput.nexts_cases ((params.map Param.elem).map meaning) values
    · have hlen := congrArg List.length (Inputs.map_ty_erase vs)
      rw [List.length_map] at hlen
      rw [List.length_append, hlen] at hcount
      obtain rfl : rest = [] := List.eq_nil_of_length_eq_zero (by
        have hcount : _ + rest.length = ((params.map Param.elem).map meaning).length := hcount
        omega)
      rw [TaskInput.nexts_erase_append] at hcomputes
      rw [List.append_nil] at hvalues
      exact ⟨vs.erase, v, hvalues, Inputs.map_ty_erase vs, (Option.some.inj hcomputes).symm, hout⟩
    · rw [hfail] at hcomputes
      cases hcomputes

/-! ## On a small graph -/

namespace Sample

/-- `impl Foo { async fn run(&mut self, _input: &i32, __dagx_extract__input: &i32) -> i32 { .. } }`: its method. -/
def weigh : ImplItemFn Xid.ascii String :=
  let m := run (.receiver "&mut self" :: clashing.map Param.arg)
  { m with sig := { m.sig with output := some (.other "i32") } }

theorem takes_weigh : weigh.sig.Takes (some "&mut self") clashing := rfl

def weighBlock : ItemImpl Xid.ascii String := block [.method weigh]

theorem weighBlock_run : weighBlock.runMethod = some weigh := rfl

/-- No type of the sample has a supertype but itself. -/
instance : Preorder (Typ String) where
  le := Eq
  le_refl := Eq.refl
  le_trans _ _ _ := Eq.trans

/-- Every type is modelled by numbers. -/
def Number (_ : Typ String) : Type := Nat

/-- Its `run_impl`: twice the first and the second. -/
def weighImpl (called : Called String Number) : Outcome (Number (.other "i32")) :=
  match called.args with
  | [⟨_, (a : Nat)⟩, ⟨_, (b : Nat)⟩] => .ok (2 * a + b)
  | _ => .error unwrapNone

def weighFn : TaskFn Number [.other "i32", .other "i32"] (.other "i32") where
  f vs := weighImpl ⟨some "foo", vs.erase, true⟩

def weighNode : TypedNode Number := ⟨[.other "i32", .other "i32"], .other "i32", .ofInputs _ weighFn.f⟩

def source (n : Nat) : TypedNode Number := ⟨[], .other "i32", .ret n⟩

def weighed : Session Number :=
  let s := ((Session.new.addTask (source 1)).addTask (source 2)).addTask weighNode
  s.dependsOn ⟨.ofLen 2, weighNode.Input, weighNode.Output⟩
    [.own ⟨.ofLen 1, .other "i32"⟩, .own ⟨.ofLen 0, .other "i32"⟩]

theorem wellWired_weighed : weighed.WellWired := by
  obtain ⟨hone, hb⟩ := Session.wellWired_new.addSource rfl (by decide) (source 1) rfl
  obtain ⟨htwo, hb⟩ := hone.addSource hb (by decide) (source 2) rfl
  refine (htwo.addWired hb (by decide) weighNode
    [.own ⟨.ofLen 1, .other "i32"⟩, .own ⟨.ofLen 0, .other "i32"⟩] (by simp [weighNode]) rfl
    (Session.owns_of_mem fun a ha => ?_)).1
  rcases List.mem_pair.mp ha with rfl | rfl
  · exact ⟨_, List.mem_cons_of_mem _ List.mem_cons_self, rfl⟩
  · exact ⟨_, List.mem_cons_self, rfl⟩

end Sample

theorem computes_task_fn_sample : ∃ (e : Expansion Xid.ascii String) (inputs : List (AnyVal Sample.Number)),
    task Sample.weighBlock = .ok (.ok e) ∧
      (e.taskImpl.evalRun id "foo" inputs).map (fun r => r.bind fun called => Sample.weighImpl called.1) =
        some (Sample.weighFn.run inputs) ∧
      Sample.weighFn.run inputs = .error unwrapNone := by
  obtain ⟨refs, hrefs, -⟩ := exists_expansion Sample.weighBlock_run Sample.takes_weigh (by decide) (by decide)
  obtain ⟨e, htask, hcomputes⟩ := @ItemImpl.computes_task_fn (Typ String) _ Sample.Number _ _ String _
    Sample.weighBlock _ Sample.weighBlock_run _ _ Sample.takes_weigh (by decide) (by decide)
  rw [hrefs] at htask
  cases htask
  exact ⟨_, [⟨.other "i32", (1 : Nat)⟩, ⟨.unit, (2 : Nat)⟩], hrefs,
    hcomputes id "foo" Sample.weighImpl Sample.weighFn (fun _ => rfl) _, rfl⟩

/-- In the run, `run_impl` gets the second source and the first. -/
theorem run_wired_sample : ∃ (out : DagOutput Sample.Number) (values : List (AnyVal Sample.Number))
    (v : Sample.Number (.other "i32")),
    Sample.weighed.dag.run ⟨.stored _, .stored _⟩ .identity .reversed = some (.ok (.ok out)) ∧
      [out.value (.ofLen 1), out.value (.ofLen 0)] = values.map some ∧
      Sample.weighImpl ⟨some "foo", values, true⟩ = .ok v ∧ out.value (.ofLen 2) = some ⟨.other "i32", v⟩ := by
  have hsp : (Spawner.identity : Spawner Sample.Number).Honest := Spawner.identity_passesThrough.honest
  obtain ⟨refs, hrefs, hlength, hnodup, hinput, hself⟩ :=
    exists_expansion Sample.weighBlock_run Sample.takes_weigh (by decide) (by decide)
  obtain ⟨e, htask, -, hcalls⟩ := @ItemImpl.run_wired (Typ String) _ Sample.Number _ _ String _
    Sample.weighBlock _ Sample.weighBlock_run _ _ Sample.takes_weigh (by decide) (by decide)
  rw [hrefs] at htask
  cases htask
  obtain ⟨-, hwired⟩ := hcalls id "foo" Sample.weighImpl
  have hcomputes : (expansion Sample.weighBlock Sample.weigh (Sample.clashing.map Param.elem) refs).taskImpl.Computes id
      Sample.weighImpl "foo" Sample.weighNode.task.run :=
    computes_expansion Sample.weighBlock Sample.takes_weigh hlength hnodup hinput hself fun _ => rfl
  have hrun : ∃ out, Sample.weighed.dag.run ⟨.stored _, .stored _⟩ .identity .reversed = some (.ok (.ok out)) :=
    ⟨_, rfl⟩
  obtain ⟨out, hrun⟩ := hrun
  have hnode : Sample.weighed.dag.taskOf (.ofLen 2) = some Sample.weighNode := rfl
  obtain ⟨values, v, hvalues, -, hv, hout⟩ := hwired _ hcomputes Sample.wellWired_weighed hnode hsp hrun
  exact ⟨out, values, v, hrun, hvalues, hv, hout⟩

end Macro

end Dagx
