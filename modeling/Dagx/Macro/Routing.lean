import Dagx.Lib.Scope
import Dagx.Macro.Expand
import Dagx.Task

/-!
# What the wrapper hands to `run_impl`

The body of the `run` emitted is evaluated with the scopes of Rust's `let`: each one binds both of its names in what
follows and shadows the earlier bindings of these names.

* `LetNext.eval`, `RunCall.eval`, `Wrapper.eval`: the body on a `TaskInput`;
* `evalLets_spec`: the `let`s take the inputs in order, each under its own name;
* `ItemImpl.routes`: the call gets the values of the parameters in the order of declaration.
-/

namespace Dagx.Macro

variable {Ty : Type} {Val : Ty → Type} {U : Xid} {Tok Obj : Type}

/-! ## Evaluation -/

/-- What a local variable holds: the task, a `TaskInput` of the given types, a reference to an input. -/
inductive Local (Obj : Type) (Val : Ty → Type)
  | self (obj : Obj)
  | input (types : List Ty) (inputs : List (AnyVal Val))
  | ref (value : AnyVal Val)

def Local.ref? : Local Obj Val → Option (AnyVal Val)
  | .ref value => some value
  | _ => none

def Local.self? : Local Obj Val → Option Obj
  | .self obj => some obj
  | _ => none

abbrev Locals (U : Xid) (Obj : Type) (Val : Ty → Type) := Scope (Ident U) (Local Obj Val)

/-- `let (fst, snd) = scrutinee.next();`. It does not compile if a name is bound twice, or without a `next`. (In the source
there is no `next` for a tuple of more than eight types either.) -/
def LetNext.eval [DecidableEq Ty] (l : LetNext U) (scope : Locals U Obj Val) : Option (Outcome (Locals U Obj Val)) :=
  if l.fst = l.snd then none
  else
    match scope.get l.scrutinee with
    | some (.input (T :: types) inputs) =>
      match TaskInput.next T inputs with
      | .ok (v, inputs) => some (.ok ((scope.bind l.fst (.ref ⟨T, v⟩)).bind l.snd (.input types inputs)))
      | .error payload => some (.error payload)
    | _ => none

def evalLets [DecidableEq Ty] : List (LetNext U) → Locals U Obj Val → Option (Outcome (Locals U Obj Val))
  | [], scope => some (.ok scope)
  | l :: lets, scope =>
    match l.eval scope with
    | some (.ok scope) => evalLets lets scope
    | r => r

/-- A call of `run_impl`: on which object, with which references, awaited or not. -/
structure Called (Obj : Type) (Val : Ty → Type) where
  receiver : Option Obj
  args : List (AnyVal Val)
  await : Bool

def RunCall.eval (call : RunCall U) (scope : Locals U Obj Val) : Option (Called Obj Val) := do
  let args ← scope.gets Local.ref? call.args
  match call.receiver with
  | none => return ⟨none, args, call.await⟩
  | some receiver =>
    let obj ← (scope.get receiver).bind Local.self?
    return ⟨some obj, args, call.await⟩

/-- The body on a task and a `TaskInput`: the call it makes, and the local variables at that point. -/
def Wrapper.eval [DecidableEq Ty] (w : Wrapper U) (obj : Obj) (types : List Ty) (inputs : List (AnyVal Val)) :
    Option (Outcome (Called Obj Val × Locals U Obj Val)) :=
  match evalLets w.lets ((Scope.empty.bind w.self (.self obj)).bind w.input (.input types inputs)) with
  | some (.ok scope) => (w.call.eval scope).map fun called => .ok (called, scope)
  | some (.error payload) => some (.error payload)
  | none => none

/-- `Task::run` of the impl emitted, under a meaning of the types. -/
def TaskImpl.evalRun [DecidableEq Ty] (impl : TaskImpl U Tok) (meaning : Typ Tok → Ty) (obj : Obj)
    (inputs : List (AnyVal Val)) : Option (Outcome (Called Obj Val × Locals U Obj Val)) :=
  impl.run.eval obj (impl.input.map meaning) inputs

/-! ## The bindings -/

section Lets

variable [DecidableEq Ty]

theorem LetNext.eval_of_input {l : LetNext U} {scope : Locals U Obj Val} {types : List Ty} {value : AnyVal Val}
    {inputs : List (AnyVal Val)} (hne : l.fst ≠ l.snd)
    (hget : scope.get l.scrutinee = some (.input (value.ty :: types) (value :: inputs))) :
    l.eval scope = some (.ok ((scope.bind l.fst (.ref value)).bind l.snd (.input types inputs))) := by
  obtain ⟨T, v⟩ := value
  unfold LetNext.eval
  rw [if_neg hne, hget]
  simp only [TaskInput.next, AnyVal.downcastRef_self]

/-- The invariant of the `let`s: `_input` holds what is left, the names bound so far keep their references. -/
theorem evalLets_spec {refs : List (Ident U)} (hnodup : refs.Nodup) (hinput : inputIdent ∉ refs)
    {values rest : List (AnyVal Val)} (hlength : refs.length = values.length) {scope : Locals U Obj Val}
    (hget : scope.get inputIdent = some (.input (values.map AnyVal.ty) (values ++ rest))) :
    ∃ scope', evalLets (refs.map fun ident => ⟨ident, inputIdent, inputIdent⟩) scope = some (.ok scope') ∧
      scope'.get inputIdent = some (.input [] rest) ∧
      List.Forall₂ (fun ident value => scope'.get ident = some (.ref value)) refs values ∧
      ∀ ident, ident ≠ inputIdent → ident ∉ refs → scope'.get ident = scope.get ident := by
  induction refs generalizing values scope with
  | nil =>
    obtain rfl : values = [] := List.eq_nil_of_length_eq_zero hlength.symm
    exact ⟨scope, rfl, hget, .nil, fun _ _ _ => rfl⟩
  | cons x refs ih =>
    cases values with
    | nil => cases hlength
    | cons value values =>
      obtain ⟨hx, hnodup⟩ := List.nodup_cons.mp hnodup
      have hxinput : x ≠ inputIdent := fun h => hinput (h ▸ List.mem_cons_self)
      have hfirst := LetNext.eval_of_input (l := ⟨x, inputIdent, inputIdent⟩) hxinput hget
      have hnext := Scope.get_bind_self (scope.bind x (.ref value)) inputIdent
        (Local.input (values.map AnyVal.ty) (values ++ rest))
      obtain ⟨scope', heval, hrest, hrefs, hframe⟩ :=
        ih hnodup (fun h => hinput (List.mem_cons_of_mem x h)) (Nat.succ.inj hlength) hnext
      refine ⟨scope', ?_, hrest, List.Forall₂.cons ?_ hrefs, fun y hy hmem => ?_⟩
      · rw [List.map_cons, evalLets, hfirst]
        exact heval
      · rw [hframe x hxinput hx, Scope.get_bind_of_ne _ _ hxinput.symm, Scope.get_bind_self]
      · rw [List.mem_cons, not_or] at hmem
        rw [hframe y hy hmem.2, Scope.get_bind_of_ne _ _ (Ne.symm hy), Scope.get_bind_of_ne _ _ (Ne.symm hmem.1)]

/-- The wrapper on inputs of its types: the call it makes has them as arguments, in order. -/
theorem Wrapper.eval_spec (sig : Signature U Tok) {refs : List (Ident U)} (hnodup : refs.Nodup)
    (hinput : inputIdent ∉ refs) (hself : selfIdent ∉ refs) (obj : Obj) {values : List (AnyVal Val)}
    (hlength : refs.length = values.length) (rest : List (AnyVal Val)) :
    ∃ scope, (wrapper sig refs).eval obj (values.map AnyVal.ty) (values ++ rest) =
        some (.ok (⟨if sig.hasSelfReceiver then some obj else none, values, sig.asyncness⟩, scope)) ∧
      scope.get inputIdent = some (.input [] rest) := by
  obtain ⟨scope, hlets, hrest, hrefs, hframe⟩ := evalLets_spec hnodup hinput hlength
    (Scope.get_bind_self (Scope.empty.bind selfIdent (.self obj)) inputIdent
      (Local.input (values.map AnyVal.ty) (values ++ rest)))
  have hne : (inputIdent : Ident U) ≠ selfIdent := by
    intro h
    have hname : "_input" = "self" := congrArg Ident.name h
    revert hname
    decide
  have hobj : scope.get selfIdent = some (.self obj) := by
    rw [hframe selfIdent hne.symm hself, Scope.get_bind_of_ne _ _ hne, Scope.get_bind_self]
  have hargs : scope.gets Local.ref? refs = some values :=
    Scope.gets_eq_some (hrefs.imp fun ident value h => by rw [h]; rfl)
  refine ⟨scope, ?_, hrest⟩
  unfold Wrapper.eval
  simp only [wrapper]
  rw [hlets]
  dsimp only
  unfold RunCall.eval
  rw [hargs]
  cases sig.hasSelfReceiver with
  | true => simp [hobj, Local.self?]
  | false => rfl

end Lets

/-! ## Signatures with plain parameters -/

/-- A parameter `[mut] ident: &elem`. -/
structure Param (U : Xid) (Tok : Type) where
  attrs : List Tok
  mutability : Bool
  ident : Ident U
  lifetime : Option Tok
  elem : Typ Tok

def Param.arg (p : Param U Tok) : FnArg U Tok :=
  .typed p.attrs (.ident false p.mutability p.ident none) (.reference p.lifetime false p.elem)

/-- The inputs of a signature: maybe a receiver, then parameters. -/
def Signature.Takes (sig : Signature U Tok) (receiver : Option Tok) (params : List (Param U Tok)) : Prop :=
  sig.inputs = (receiver.map FnArg.receiver).toList ++ params.map Param.arg

namespace Signature.Takes

variable {sig : Signature U Tok} {receiver : Option Tok} {params : List (Param U Tok)}

theorem params_eq (h : sig.Takes receiver params) :
    sig.params = .ok (params.map fun p => (p.ident, p.elem)) := by
  have hreceiver : ((receiver.map FnArg.receiver).toList : List (FnArg U Tok)).filterMap FnArg.param = [] := by
    cases receiver <;> rfl
  have hparams : (params.map Param.arg).filterMap FnArg.param =
      (params.map fun p => (p.ident, p.elem)).map Except.ok := by
    rw [List.filterMap_map, List.map_map, ← List.filterMap_eq_map]
    rfl
  unfold Signature.params
  rw [h, List.filterMap_append, hreceiver, hparams]
  exact collect_map_ok _

theorem hasSelfReceiver_eq (h : sig.Takes receiver params) : sig.hasSelfReceiver = receiver.isSome := by
  unfold Signature.hasSelfReceiver
  rw [h, List.any_append, List.any_map]
  cases receiver with
  | none => simp [Param.arg]
  | some tokens => rfl

end Signature.Takes

/-- The names of the parameters in the wrapper are distinct, and none is a name that the macro itself writes there. -/
theorem extractIdents_routable (params : List (Ident U × Typ Tok)) (hraw : ∀ p ∈ params, p.1.raw = false)
    (hnames : (params.map fun p => p.1.name).Nodup) :
    ∃ refs, extractIdents params = .ok refs ∧ refs.length = params.length ∧ refs.Nodup ∧ inputIdent ∉ refs ∧
      selfIdent ∉ refs := by
  obtain ⟨refs, hrefs, hprefixed⟩ := extractIdents_eq_ok hraw
  have hquoted : ∀ s h, s.toList.take 2 ≠ ['_', '_'] → Ident.quoted s h ∉ refs := by
    intro s h hs hmem
    have hname : s ∈ refs.map Ident.name := List.mem_map_of_mem hmem
    rw [hprefixed, List.mem_map] at hname
    obtain ⟨p, -, hp⟩ := hname
    exact extract_ne hs p.1.name hp
  refine ⟨refs, hrefs, ?_, ?_, hquoted _ _ (by decide), hquoted _ _ (by decide)⟩
  · simpa using congrArg List.length hprefixed
  · have hrenamed : ((params.map fun p => p.1.name).map ("__dagx_extract_" ++ ·)).Nodup :=
      hnames.map fun a b hab => (String.append_right_inj _).mp hab
    rw [List.map_map] at hrenamed
    apply List.Nodup.of_map Ident.name
    rw [hprefixed]
    exact hrenamed

theorem exists_expansion {implBlock : ItemImpl U Tok} {runMethod : ImplItemFn U Tok}
    (hrun : implBlock.runMethod = some runMethod) {receiver : Option Tok} {params : List (Param U Tok)}
    (htakes : runMethod.sig.Takes receiver params) (hraw : ∀ p ∈ params, p.ident.raw = false)
    (hnames : (params.map fun p => p.ident.name).Nodup) :
    ∃ refs, task implBlock = .ok (.ok (expansion implBlock runMethod (params.map Param.elem) refs)) ∧
      refs.length = params.length ∧ refs.Nodup ∧ inputIdent ∉ refs ∧ selfIdent ∉ refs := by
  obtain ⟨refs, hrefs, hlength, hrest⟩ := extractIdents_routable (params.map fun p => (p.ident, p.elem))
    (by simpa using hraw) (by rw [List.map_map]; exact hnames)
  refine ⟨refs, ?_, ?_, hrest⟩
  · rw [task_of_params hrun htakes.params_eq, hrefs, List.map_map]
    rfl
  · rw [hlength, List.length_map]

variable [DecidableEq Ty]

theorem evalRun_expansion (implBlock : ItemImpl U Tok) {runMethod : ImplItemFn U Tok} {receiver : Option Tok}
    {params : List (Param U Tok)} (htakes : runMethod.sig.Takes receiver params) {refs : List (Ident U)}
    (hlength : refs.length = params.length) (hnodup : refs.Nodup) (hinput : inputIdent ∉ refs) (hself : selfIdent ∉ refs)
    {meaning : Typ Tok → Ty} {values : List (AnyVal Val)}
    (htypes : values.map AnyVal.ty = (params.map Param.elem).map meaning) (obj : Obj) (rest : List (AnyVal Val)) :
    ∃ scope, (expansion implBlock runMethod (params.map Param.elem) refs).taskImpl.evalRun meaning obj (values ++ rest) =
        some (.ok (⟨receiver.map fun _ => obj, values, runMethod.sig.asyncness⟩, scope)) ∧
      scope.get inputIdent = some (.input [] rest) := by
  have hvalues : refs.length = values.length := by
    have hcount := congrArg List.length htypes
    simp only [List.length_map] at hcount
    omega
  obtain ⟨scope, heval, hrest⟩ :=
    Wrapper.eval_spec runMethod.sig hnodup hinput hself obj hvalues rest
  refine ⟨scope, ?_, hrest⟩
  unfold TaskImpl.evalRun
  simp only [expansion]
  rw [← htypes, heval, htakes.hasSelfReceiver_eq]
  cases receiver <;> rfl

/-- **The arguments are routed in order**: for a `run()`, sync or async, with or without a receiver and with any number of
parameters of distinct names that are not raw, whatever they are, the `Input` of the impl emitted has the types in the
order of declaration. On a `TaskInput` of values of these types its `run` takes exactly these and calls `run_impl`, the
method emitted, on the same task with the values in that order. -/
theorem ItemImpl.routes (implBlock : ItemImpl U Tok) {runMethod : ImplItemFn U Tok}
    (hrun : implBlock.runMethod = some runMethod) {receiver : Option Tok} {params : List (Param U Tok)}
    (htakes : runMethod.sig.Takes receiver params) (hraw : ∀ p ∈ params, p.ident.raw = false)
    (hnames : (params.map fun p => p.ident.name).Nodup) :
    ∃ e, task implBlock = .ok (.ok e) ∧ e.taskImpl.input = params.map Param.elem ∧
      e.inherent.items = [.method runMethod.runImpl] ∧
      ∀ (meaning : Typ Tok → Ty) (obj : Obj) (values rest : List (AnyVal Val)),
        values.map AnyVal.ty = (params.map Param.elem).map meaning →
        ∃ scope, e.taskImpl.evalRun meaning obj (values ++ rest) =
            some (.ok (⟨receiver.map fun _ => obj, values, runMethod.sig.asyncness⟩, scope)) ∧
          scope.get e.taskImpl.run.input = some (.input [] rest) := by
  obtain ⟨refs, htask, hlength, hnodup, hinput, hself⟩ := exists_expansion hrun htakes hraw hnames
  refine ⟨_, htask, rfl, rfl, fun meaning obj values rest htypes => ?_⟩
  exact evalRun_expansion implBlock htakes hlength hnodup hinput hself htypes obj rest

namespace Sample

def clashing : List (Param Xid.ascii String) :=
  [⟨[], false, ident "_input" (by decide), none, .other "i32"⟩,
    ⟨[], false, ident "__dagx_extract__input" (by decide), none, .other "i32"⟩]

/-- `impl Foo { async fn run(&mut self, _input: &i32, __dagx_extract__input: &i32) { .. } }`. -/
def clash : ItemImpl Xid.ascii String := block [.method (run (.receiver "&mut self" :: clashing.map Param.arg))]

theorem takes_clashing :
    (run (.receiver "&mut self" :: clashing.map Param.arg)).sig.Takes (some "&mut self") clashing := rfl

def i32 (n : Nat) : AnyVal (fun _ : Typ String => Nat) := ⟨.other "i32", n⟩

end Sample

theorem routes_sample : ∃ e scope, task Sample.clash = .ok (.ok e) ∧
    e.taskImpl.evalRun id "foo" [Sample.i32 1, Sample.i32 2] =
      some (.ok (⟨some "foo", [Sample.i32 1, Sample.i32 2], true⟩, scope)) := by
  obtain ⟨e, htask, -, -, hroutes⟩ :=
    @ItemImpl.routes (Typ String) (fun _ => Nat) _ _ String _ Sample.clash _ rfl _ _ Sample.takes_clashing
      (by decide) (by decide)
  obtain ⟨scope, heval, -⟩ := hroutes id "foo" [Sample.i32 1, Sample.i32 2] [] rfl
  exact ⟨e, scope, htask, heval⟩

end Dagx.Macro
