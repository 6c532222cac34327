import Dagx.Basic

/-!
# Tasks and their inputs (`task.rs`, `node.rs`)

`Ty` stands for the `'static` types of the program (their `TypeId`s) and `Val T` for the values of type `T`. `T ≤ U` is
subtyping: `for<'a> fn(&'a str)` is a subtype of `fn(&'static str)`, and their `TypeId`s differ. A phantom type is
covariant, so the type checker lets a `TaskInput`, a `TaskBuilder` or a `TaskHandle` be used at a supertype, while
`downcast` compares `TypeId`s.

* `AnyVal`: `dyn Any`; `Arc`: an `Arc<dyn Any>`, named by the task whose future allocated it;
* `TaskBody Val Out Input`: what `Task::run` does with its linear `TaskInput<Input>`;
* `TaskBody.run`: the body on the dynamically typed dependencies the runner passes, unwraps included;
* `TaskBody.apply`: the body as a function of well-typed inputs (`Inputs`); `run_erase` says they agree on well-typed
  dependencies;
* `TaskBody.Unwraps`: no unwrap of an input fails; on well-typed dependencies that is `TaskBody.TakesOwn`;
* `TypedNode.executeWithDeps`: the node future.
-/

namespace Dagx

variable {Ty : Type}

/-- `dyn Any`: a value with its dynamic type. -/
structure AnyVal (Val : Ty → Type) where
  ty : Ty
  val : Val ty

/-- `Arc<dyn Any + Send + Sync>`. A task runs at most once and allocates one `Arc`, so `origin` names the allocation. -/
structure Arc (Val : Ty → Type) where
  origin : NodeId
  inner : AnyVal Val

variable {Val : Ty → Type}

/-- `downcast_ref::<T>()`. -/
def AnyVal.downcastRef [DecidableEq Ty] (a : AnyVal Val) (T : Ty) : Option (Val T) :=
  if h : a.ty = T then some (h ▸ a.val) else none

@[simp] theorem AnyVal.downcastRef_self [DecidableEq Ty] (T : Ty) (v : Val T) :
    (⟨T, v⟩ : AnyVal Val).downcastRef T = some v := by
  simp [AnyVal.downcastRef]

/-- `TaskInput::next`: `self.inputs.next().and_then(|value| value.downcast_ref()).unwrap()`. The source has it for tuples of
one to eight types; the model has no such bound. -/
def TaskInput.next [DecidableEq Ty] (T : Ty) : List (AnyVal Val) → Outcome (Val T × List (AnyVal Val))
  | [] => .error unwrapNone
  | value :: inputs =>
    match value.downcastRef T with
    | some v => .ok (v, inputs)
    | none => .error unwrapNone

/-! ## Well-typed inputs -/

def Inputs (Val : Ty → Type) : List Ty → Type
  | [] => Unit
  | T :: Input => Val T × Inputs Val Input

def Inputs.erase : {Input : List Ty} → Inputs Val Input → List (AnyVal Val)
  | [], _ => []
  | T :: _, (v, vs) => ⟨T, v⟩ :: Inputs.erase vs

@[simp] theorem Inputs.map_ty_erase : {Input : List Ty} → (vs : Inputs Val Input) →
    vs.erase.map AnyVal.ty = Input
  | [], _ => rfl
  | _ :: _, (_, vs) => by simp [Inputs.erase, Inputs.map_ty_erase vs]

theorem Inputs.exists_erase {values : List (AnyVal Val)} {Input : List Ty} (h : values.map AnyVal.ty = Input) :
    ∃ vs : Inputs Val Input, vs.erase = values := by
  induction values generalizing Input with
  | nil =>
    subst h
    exact ⟨(), rfl⟩
  | cons a values ih =>
    subst h
    obtain ⟨vs, hvs⟩ := ih rfl
    exact ⟨(a.val, vs), by rw [Inputs.erase, hvs]⟩

/-! ## Task bodies -/

variable [Preorder Ty]

/-- A task body by what it does with its `TaskInput`: it returns, panics, or takes the next input. `TaskInput<(T, ..)>` is
covariant, so a body may take its next input at a supertype `U` of `T`. -/
inductive TaskBody (Val : Ty → Type) (Out : Ty) : List Ty → Type
  | ret {Input : List Ty} (v : Val Out) : TaskBody Val Out Input
  | panic {Input : List Ty} (payload : Payload) : TaskBody Val Out Input
  | next {T U : Ty} {Input : List Ty} (h : T ≤ U) (k : Val U → TaskBody Val Out Input) : TaskBody Val Out (T :: Input)

/-- `Task::run` on the dependencies behind the `TaskInput` iterator. -/
def TaskBody.run [DecidableEq Ty] {Out : Ty} :
    {Input : List Ty} → TaskBody Val Out Input → List (AnyVal Val) → Outcome (Val Out)
  | _, .ret v, _ => .ok v
  | _, .panic payload, _ => .error payload
  | _, .next (U := U) _ k, inputs =>
    match TaskInput.next U inputs with
    | .ok (v, inputs) => (k v).run inputs
    | .error payload => .error payload

/-- The task body as a function of well-typed inputs. A body that takes an input at another type panics. -/
def TaskBody.apply [DecidableEq Ty] {Out : Ty} :
    {Input : List Ty} → TaskBody Val Out Input → Inputs Val Input → Outcome (Val Out)
  | _, .ret v, _ => .ok v
  | _, .panic payload, _ => .error payload
  | _, .next (T := T) (U := U) _ k, (v, vs) =>
    match (⟨T, v⟩ : AnyVal Val).downcastRef U with
    | some v => (k v).apply vs
    | none => .error unwrapNone

theorem TaskBody.run_erase [DecidableEq Ty] {Out : Ty} {Input : List Ty} (body : TaskBody Val Out Input)
    (vs : Inputs Val Input) : body.run vs.erase = body.apply vs := by
  induction body with
  | ret v => rfl
  | panic payload => rfl
  | @next T U Input h k ih =>
    obtain ⟨v, vs⟩ := vs
    rw [Inputs.erase, run, TaskInput.next, apply]
    cases (⟨T, v⟩ : AnyVal Val).downcastRef U with
    | some w => exact ih w vs
    | none => rfl

/-- No unwrap inside `TaskInput::next` fails. -/
def TaskBody.Unwraps [DecidableEq Ty] {Out : Ty} :
    {Input : List Ty} → TaskBody Val Out Input → List (AnyVal Val) → Prop
  | _, .ret _, _ => True
  | _, .panic _, _ => True
  | _, .next (U := U) _ k, inputs =>
    match TaskInput.next U inputs with
    | .ok (v, inputs) => (k v).Unwraps inputs
    | .error _ => False

/-- Each input that the body takes is taken at its own type. -/
def TaskBody.TakesOwn {Out : Ty} : {Input : List Ty} → TaskBody Val Out Input → Inputs Val Input → Prop
  | _, .ret _, _ => True
  | _, .panic _, _ => True
  | _, .next (T := T) (U := U) _ k, (v, vs) => ∃ h : T = U, (k (h ▸ v)).TakesOwn vs

theorem TaskBody.unwraps_erase [DecidableEq Ty] {Out : Ty} {Input : List Ty} (body : TaskBody Val Out Input)
    (vs : Inputs Val Input) : body.Unwraps vs.erase ↔ body.TakesOwn vs := by
  induction body with
  | ret v => rfl
  | panic payload => rfl
  | @next T U Input h k ih =>
    obtain ⟨v, vs⟩ := vs
    rw [Inputs.erase, Unwraps, TaskInput.next, TakesOwn]
    by_cases hTU : T = U
    · subst hTU
      rw [AnyVal.downcastRef_self]
      exact (ih v vs).trans ⟨fun hk => ⟨rfl, hk⟩, fun ⟨_, hk⟩ => hk⟩
    · rw [AnyVal.downcastRef, dif_neg hTU]
      exact iff_of_false id fun ⟨he, _⟩ => hTU he

/-! ## Nodes -/

/-- `TypedNode<Input, T>` behind `Box<dyn ExecutableNode>`. -/
structure TypedNode (Val : Ty → Type) where
  Input : List Ty
  Output : Ty
  task : TaskBody Val Output Input

def TypedNode.call [DecidableEq Ty] (node : TypedNode Val) (inputs : List (AnyVal Val)) : Outcome (AnyVal Val) :=
  (node.task.run inputs).map fun output => ⟨node.Output, output⟩

/-- `execute_with_deps` of the node with the given id: run the task, wrap its output in an `Arc` once. -/
def TypedNode.executeWithDeps [DecidableEq Ty] (node : TypedNode Val) (id : NodeId) (dependencies : List (Arc Val)) :
    Outcome (DagResult (Arc Val)) := do
  let output ← node.call (dependencies.map Arc.inner)
  return .ok ⟨id, output⟩

/-- The body panics on no well-typed input. -/
def TypedNode.NonPanicking [DecidableEq Ty] (node : TypedNode Val) : Prop :=
  ∀ vs : Inputs Val node.Input, ∃ v, node.task.apply vs = .ok v

theorem TypedNode.call_erase [DecidableEq Ty] (node : TypedNode Val) (vs : Inputs Val node.Input) :
    node.call vs.erase = (node.task.apply vs).map fun output => ⟨node.Output, output⟩ := by
  rw [TypedNode.call, TaskBody.run_erase]

theorem TypedNode.call_eq_error [DecidableEq Ty] {node : TypedNode Val} {inputs : List (AnyVal Val)}
    {payload : Payload} : node.call inputs = .error payload ↔ node.task.run inputs = .error payload := by
  unfold TypedNode.call
  cases node.task.run inputs with
  | ok output =>
    constructor
    · intro h
      cases h
    · intro h
      cases h
  | error payload' =>
    constructor
    · intro h
      cases h
      rfl
    · intro h
      cases h
      rfl

theorem TypedNode.ty_of_call [DecidableEq Ty] {node : TypedNode Val} {inputs : List (AnyVal Val)} {v : AnyVal Val}
    (h : node.call inputs = .ok v) : v.ty = node.Output := by
  unfold TypedNode.call at h
  cases hr : node.task.run inputs with
  | error payload => rw [hr] at h; cases h
  | ok output => rw [hr] at h; cases h; rfl

end Dagx
