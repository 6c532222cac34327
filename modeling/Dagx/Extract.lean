import Dagx.Task

/-!
# Inputs taken one after another (`dagx-test`)

* `TaskInput.nexts`: `let (x, input) = input.next();` for one type after another (`nexts_erase_append`, `nexts_cases`);
* `TaskBody.ofInputs`: the body that takes its inputs so and runs a function on them (`run_ofInputs`);
* `extractFromTaskInput`, `TaskFn.run`: the tasks made of closures (`TaskFn.run_eq`).
-/

namespace Dagx

variable {Ty : Type} [DecidableEq Ty] {Val : Ty → Type}

/-- `let (x, input) = input.next();` for each of the types: the values, and the inputs that are left. -/
def TaskInput.nexts : (types : List Ty) → List (AnyVal Val) → Outcome (Inputs Val types × List (AnyVal Val))
  | [], inputs => .ok ((), inputs)
  | T :: types, inputs => do
    let (v, inputs) ← TaskInput.next T inputs
    let (vs, inputs) ← TaskInput.nexts types inputs
    return ((v, vs), inputs)

@[simp] theorem TaskInput.next_cons (T : Ty) (v : Val T) (inputs : List (AnyVal Val)) :
    TaskInput.next T (⟨T, v⟩ :: inputs) = .ok (v, inputs) := by
  simp only [TaskInput.next, AnyVal.downcastRef_self]

theorem TaskInput.next_cases (T : Ty) (inputs : List (AnyVal Val)) :
    (∃ v rest, inputs = ⟨T, v⟩ :: rest) ∨ TaskInput.next T inputs = .error unwrapNone := by
  cases inputs with
  | nil => exact Or.inr rfl
  | cons value rest =>
    obtain ⟨U, u⟩ := value
    by_cases h : U = T
    · subst h
      exact Or.inl ⟨u, rest, rfl⟩
    · exact Or.inr (by simp [TaskInput.next, AnyVal.downcastRef, h])

theorem TaskInput.nexts_cons (T : Ty) (types : List Ty) (v : Val T) (inputs : List (AnyVal Val)) :
    TaskInput.nexts (T :: types) (⟨T, v⟩ :: inputs) =
      (TaskInput.nexts types inputs).map fun r => ((v, r.1), r.2) := by
  rw [TaskInput.nexts, TaskInput.next_cons]
  show (TaskInput.nexts types inputs).bind _ = _
  cases TaskInput.nexts types inputs <;> rfl

theorem TaskInput.nexts_erase_append {types : List Ty} (vs : Inputs Val types) (rest : List (AnyVal Val)) :
    TaskInput.nexts types (vs.erase ++ rest) = .ok (vs, rest) := by
  induction types with
  | nil => rfl
  | cons T types ih =>
    obtain ⟨v, vs⟩ := vs
    have hcons : (show Inputs Val (T :: types) from (v, vs)).erase ++ rest = ⟨T, v⟩ :: (vs.erase ++ rest) := rfl
    rw [hcons, TaskInput.nexts_cons, ih vs]
    rfl

theorem TaskInput.nexts_cases (types : List Ty) (inputs : List (AnyVal Val)) :
    (∃ (vs : Inputs Val types) (rest : List (AnyVal Val)), inputs = vs.erase ++ rest) ∨
      TaskInput.nexts types inputs = .error unwrapNone := by
  induction types generalizing inputs with
  | nil => exact Or.inl ⟨(), inputs, rfl⟩
  | cons T types ih =>
    obtain ⟨v, inputs, rfl⟩ | hfail := TaskInput.next_cases T inputs
    · obtain ⟨vs, rest, rfl⟩ | hfail := ih inputs
      · exact Or.inl ⟨(v, vs), rest, rfl⟩
      · rw [TaskInput.nexts_cons, hfail]
        exact Or.inr rfl
    · rw [TaskInput.nexts, hfail]
      exact Or.inr rfl

/-! ## Functions of all inputs as task bodies -/

section Bodies

variable [Preorder Ty]

/-- The body that takes its inputs one after another and runs a function on them. -/
def TaskBody.ofInputs {Out : Ty} : (Input : List Ty) → (Inputs Val Input → Outcome (Val Out)) → TaskBody Val Out Input
  | [], f =>
    match f () with
    | .ok v => .ret v
    | .error payload => .panic payload
  | T :: Input, f => .next (le_refl T) fun v => TaskBody.ofInputs Input fun vs => f (v, vs)

theorem TaskBody.run_ofInputs {Out : Ty} {Input : List Ty} (f : Inputs Val Input → Outcome (Val Out))
    (inputs : List (AnyVal Val)) :
    (TaskBody.ofInputs Input f).run inputs = (TaskInput.nexts Input inputs).bind fun r => f r.1 := by
  induction Input generalizing inputs with
  | nil =>
    show (match f () with | .ok v => TaskBody.ret v | .error payload => .panic payload).run inputs = f ()
    cases f () <;> rfl
  | cons T Input ih =>
    obtain ⟨v, inputs, rfl⟩ | hfail := TaskInput.next_cases T inputs
    · rw [TaskBody.ofInputs, TaskBody.run, TaskInput.next_cons, TaskInput.nexts_cons]
      show (TaskBody.ofInputs Input fun vs => f (v, vs)).run inputs = _
      rw [ih]
      cases TaskInput.nexts Input inputs <;> rfl
    · rw [TaskBody.ofInputs, TaskBody.run, TaskInput.nexts, hfail]
      rfl

theorem TaskBody.apply_ofInputs {Out : Ty} {Input : List Ty} (f : Inputs Val Input → Outcome (Val Out))
    (vs : Inputs Val Input) : (TaskBody.ofInputs Input f).apply vs = f vs := by
  have hnexts := TaskInput.nexts_erase_append vs []
  rw [List.append_nil] at hnexts
  rw [← run_erase, run_ofInputs, hnexts]
  rfl

end Bodies

/-! ## `task_fn` -/

/-- `extract_from_task_input` of `()`, of a single type and of a tuple: one `next` for each component. -/
def extractFromTaskInput (Input : List Ty) (input : List (AnyVal Val)) : Outcome (Except String (Inputs Val Input)) :=
  (TaskInput.nexts Input input).map fun r => .ok r.1

/-- `TaskFn<I, O, F>`: the closure. -/
structure TaskFn (Val : Ty → Type) (Input : List Ty) (Out : Ty) where
  f : Inputs Val Input → Outcome (Val Out)

/-- `(self.f)(I::extract_from_task_input(input).unwrap())`. -/
def TaskFn.run {Input : List Ty} {Out : Ty} (self : TaskFn Val Input Out) (input : List (AnyVal Val)) :
    Outcome (Val Out) := do
  match ← extractFromTaskInput Input input with
  | .ok inputs => self.f inputs
  | .error message => .error (.string ("called `Result::unwrap()` on an `Err` value: " ++ message.quote))

/-- The `unwrap` of the `Result` never fails: a closure is the body that takes its inputs and runs it. -/
theorem TaskFn.run_eq [Preorder Ty] {Input : List Ty} {Out : Ty} (task : TaskFn Val Input Out) (input : List (AnyVal Val)) :
    task.run input = (TaskBody.ofInputs Input task.f).run input := by
  rw [TaskBody.run_ofInputs]
  unfold TaskFn.run extractFromTaskInput
  cases TaskInput.nexts Input input <;> rfl

end Dagx
