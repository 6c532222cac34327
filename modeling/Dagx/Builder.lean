import Dagx.Task
import Dagx.Lib.System

/-!
# Building a graph (`builder.rs`, `deps.rs`, `runner.rs`)

* `DagRunner.addTask`, `DagRunner.dependsOn`: the two calls that change a runner;
* `TaskHandle`, `TaskBuilder`: with their type at a place of the program; `≤` says at which other types the type checker
  lets them be used;
* `Session`: a runner as a program sees it. A live `TaskBuilder` holds the only `&mut` borrow of its runner, so until
  it is wired or dropped no other call reaches the runner: `Session.builder`. The handles issued and the
  `depends_on` calls made are recorded beside the runner; no code reads them;
* `Session.Step foreign`: one API call, or the coercion of a builder; the handles passed are the session's own, at any
  type they can be used at, or satisfy `foreign`;
* `Session.PlainStep`: a call with the session's own handles, everything at its own type;
* `World`: two runners in one program, each using handles of the other at will.
-/

namespace Dagx

variable {Ty : Type} [Preorder Ty] {Val : Ty → Type}

structure DagRunner (Val : Ty → Type) where
  nodes : List (Option (TypedNode Val))
  /-- node -> dependencies -/
  edges : PassThroughHashMap (List NodeId)
  /-- node -> tasks that depend on it -/
  dependents : PassThroughHashMap (List NodeId)

/-- `TaskHandle<T>`: a bare id and a phantom type, that at which the handle is used. -/
structure TaskHandle (Ty : Type) where
  id : NodeId
  ty : Ty
deriving DecidableEq

/-- `PhantomData<fn() -> T>` is covariant: a handle can be used at every supertype of its type. -/
instance : Preorder (TaskHandle Ty) where
  le h h' := h.id = h'.id ∧ h.ty ≤ h'.ty
  le_refl h := ⟨rfl, le_refl h.ty⟩
  le_trans _ _ _ h h' := ⟨h.1.trans h'.1, le_trans h.2 h'.2⟩

/-- `TaskBuilder<'_, Input, Tk>`, with the `Output` of `Tk` as a `Task<Input>`; its borrow of the runner is in `Session`. -/
structure TaskBuilder (Ty : Type) where
  id : NodeId
  Input : List Ty
  Output : Ty

/-- `PhantomData<(Tk, Input)>` is covariant: a builder can be used at a supertype of `Input`, and of `Tk`. The
implementation of `Task` is then that of these types, with an `Output` of its own. -/
instance : LE (TaskBuilder Ty) where
  le b b' := b.id = b'.id ∧ List.Forall₂ (· ≤ ·) b.Input b'.Input

namespace DagRunner

def new : DagRunner Val := ⟨[], ∅, ∅⟩

/-- `add_task`, up to the conversion of the id into a handle or a builder. -/
def addTask (dag : DagRunner Val) (task : TypedNode Val) : NodeId × DagRunner Val :=
  let id := NodeId.ofLen dag.nodes.length
  (id, { nodes := dag.nodes ++ [some task]
         edges := dag.edges.insert id []
         dependents := dag.dependents.insert id [] })

/-- One turn of the loop of `depends_on`: the builder's edge to `dep`, then `dep`'s entry for the builder. -/
def wire (id : NodeId) (dag : DagRunner Val) (dep : NodeId) : DagRunner Val :=
  { dag with edges := dag.edges.push id dep, dependents := dag.dependents.push dep id }

def dependsOn (dag : DagRunner Val) (id : NodeId) (deps : List NodeId) : DagRunner Val := deps.foldl (wire id) dag

def edgesOf (dag : DagRunner Val) (id : NodeId) : List NodeId := (dag.edges.lookup id).getD []

def dependentsOf (dag : DagRunner Val) (id : NodeId) : List NodeId := (dag.dependents.lookup id).getD []

/-- The task of a node that has not been taken. -/
def taskOf (dag : DagRunner Val) (id : NodeId) : Option (TypedNode Val) := dag.nodes[id.index]?.join

end DagRunner

/-! ## The program's side -/

/-- A handle passed to `depends_on`, by the runner that issued it; the code sees the handle only. -/
inductive Arg (Ty : Type)
  | own (handle : TaskHandle Ty)
  | foreign (handle : TaskHandle Ty)

def Arg.handle : Arg Ty → TaskHandle Ty
  | .own handle => handle
  | .foreign handle => handle

/-- `DepsTuple::to_node_ids`. -/
def toNodeIds (args : List (Arg Ty)) : List NodeId := args.map fun a => a.handle.id

/-- A runner as the program sees it. -/
structure Session (Val : Ty → Type) where
  dag : DagRunner Val
  /-- the live builder -/
  builder : Option (TaskBuilder Ty)
  /-- the handles issued so far -/
  handles : List (TaskHandle Ty)
  /-- the `depends_on` calls made so far -/
  calls : List (NodeId × List (Arg Ty))

namespace Session

def new : Session Val := ⟨.new, none, [], []⟩

/-- `add_task`: a task without inputs gives a handle (`TaskWire<()>`), any other a builder. -/
def addTask (s : Session Val) (task : TypedNode Val) : Session Val :=
  let r := s.dag.addTask task
  match task.Input with
  | [] => { s with dag := r.2, handles := s.handles ++ [⟨r.1, task.Output⟩] }
  | T :: Input => { s with dag := r.2, builder := some ⟨r.1, T :: Input, task.Output⟩ }

/-- `TaskBuilder::depends_on`: it consumes the builder and gives its handle. -/
def dependsOn (s : Session Val) (b : TaskBuilder Ty) (args : List (Arg Ty)) : Session Val :=
  { dag := s.dag.dependsOn b.id (toNodeIds args)
    builder := none
    handles := s.handles ++ [⟨b.id, b.Output⟩]
    calls := s.calls ++ [(b.id, args)] }

def coerceBuilder (s : Session Val) (b : TaskBuilder Ty) : Session Val := { s with builder := some b }

def dropBuilder (s : Session Val) : Session Val := { s with builder := none }

/-- A handle of the runner, at a type at which it can be used. -/
def Issued (s : Session Val) (handle : TaskHandle Ty) : Prop := ∃ issued ∈ s.handles, issued ≤ handle

/-- Where an argument of `depends_on` may come from. -/
def Owns (s : Session Val) (foreign : TaskHandle Ty → Prop) : Arg Ty → Prop
  | .own handle => s.Issued handle
  | .foreign handle => foreign handle

theorem Issued.of_mem {s : Session Val} {handle : TaskHandle Ty} (h : handle ∈ s.handles) : s.Issued handle :=
  ⟨handle, h, le_refl handle⟩

theorem owns_of_mem {s : Session Val} {foreign : TaskHandle Ty → Prop} {args : List (Arg Ty)}
    (h : ∀ a ∈ args, ∃ x ∈ s.handles, a = .own x) : ∀ a ∈ args, s.Owns foreign a := by
  intro a ha
  obtain ⟨x, hx, rfl⟩ := h a ha
  exact .of_mem hx

/-- One API call on a runner, or the use of its builder at another type. The borrow a builder holds excludes any other
call while it lives, and `D: DepsTuple<Input>` makes the types at which the handles are passed those of the inputs. -/
inductive Step (foreign : TaskHandle Ty → Prop) : Session Val → Session Val → Prop
  | addTask (s : Session Val) (task : TypedNode Val) (hb : s.builder = none) : Step foreign s (s.addTask task)
  | coerceBuilder (s : Session Val) (b b' : TaskBuilder Ty) (hb : s.builder = some b) (hle : b ≤ b') :
      Step foreign s (s.coerceBuilder b')
  | dependsOn (s : Session Val) (b : TaskBuilder Ty) (args : List (Arg Ty)) (hb : s.builder = some b)
      (hty : args.map (fun a => a.handle.ty) = b.Input) (hargs : ∀ a ∈ args, s.Owns foreign a) :
      Step foreign s (s.dependsOn b args)
  | dropBuilder (s : Session Val) (b : TaskBuilder Ty) (hb : s.builder = some b) : Step foreign s s.dropBuilder

/-- Reached by API calls with handles of the runner itself and handles that satisfy `foreign`. -/
def Reachable (foreign : TaskHandle Ty → Prop) (s : Session Val) : Prop :=
  System.Reachable (· = .new) (Step foreign) s

/-- Built with handles of the same runner only. -/
def OwnHandles (s : Session Val) : Prop := s.Reachable fun _ => False

/-- One API call with handles of the runner itself that uses every handle and builder at the type it was issued at. -/
inductive PlainStep : Session Val → Session Val → Prop
  | addTask (s : Session Val) (task : TypedNode Val) (hb : s.builder = none) : PlainStep s (s.addTask task)
  | dependsOn (s : Session Val) (b : TaskBuilder Ty) (args : List (Arg Ty)) (hb : s.builder = some b)
      (hty : args.map (fun a => a.handle.ty) = b.Input) (hargs : ∀ a ∈ args, ∃ x ∈ s.handles, a = .own x) :
      PlainStep s (s.dependsOn b args)
  | dropBuilder (s : Session Val) (b : TaskBuilder Ty) (hb : s.builder = some b) : PlainStep s s.dropBuilder

def Plain (s : Session Val) : Prop := System.Reachable (· = .new) PlainStep s

theorem PlainStep.step {foreign : TaskHandle Ty → Prop} {s s' : Session Val} (h : PlainStep s s') : Step foreign s s' := by
  cases h with
  | addTask task hb => exact .addTask s task hb
  | dependsOn b args hb hty hargs => exact .dependsOn s b args hb hty (owns_of_mem hargs)
  | dropBuilder b hb => exact .dropBuilder s b hb

theorem PlainStep.steps {s s' : Session Val} (h : Relation.ReflTransGen PlainStep s s') :
    Relation.ReflTransGen (Step fun _ => False) s s' :=
  Relation.ReflTransGen.mono (fun _ _ => PlainStep.step) _ _ h

theorem Plain.ownHandles {s : Session Val} (h : s.Plain) : s.OwnHandles :=
  System.Reachable.invariant (fun _ h₀ => .of_init h₀) (fun _ _ h hs => h.step hs.step) h

/-- The arguments of the `depends_on` call made for a node; none if there was no such call. -/
def argsOf (s : Session Val) (id : NodeId) : List (Arg Ty) :=
  ((s.calls.find? fun call => call.1 = id).map Prod.snd).getD []

/-- A DAG: fewer than `2 ^ 32` tasks, handles of the same runner, every task with inputs wired. -/
structure WellWired (s : Session Val) : Prop where
  own : s.OwnHandles
  small : s.dag.nodes.length < 2 ^ 32
  wired : ∀ id task, s.dag.taskOf id = some task → task.Input ≠ [] → ∃ args, (id, args) ∈ s.calls

end Session

/-! ## Two runners in one program -/

structure World (Val : Ty → Type) where
  left : Session Val
  right : Session Val

/-- One API call on either runner, with handles of both. -/
inductive World.Step : World Val → World Val → Prop
  | left (w : World Val) (s : Session Val) (h : Session.Step w.right.Issued w.left s) : World.Step w { w with left := s }
  | right (w : World Val) (s : Session Val) (h : Session.Step w.left.Issued w.right s) : World.Step w { w with right := s }

def World.Reachable (w : World Val) : Prop := System.Reachable (· = ⟨.new, .new⟩) World.Step w

end Dagx
