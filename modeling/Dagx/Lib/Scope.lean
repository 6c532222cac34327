import Mathlib.Data.List.Forall2

/-!
# Scopes

A scope is a list of bindings, the innermost first; a binding shadows the earlier ones of its name.

* `Scope.get`, `Scope.bind`: `get_bind_self`, `get_bind_of_ne`;
* `Scope.gets`: the values of a list of names, of a given form (`gets_eq_some`).
-/

def Scope (K V : Type*) := List (K × V)

namespace Scope

variable {K V W : Type*}

def empty : Scope K V := []

def bind (scope : Scope K V) (x : K) (v : V) : Scope K V := (x, v) :: scope

variable [DecidableEq K]

def get : Scope K V → K → Option V
  | [], _ => none
  | (y, v) :: scope, x => if y = x then some v else get scope x

@[simp] theorem get_bind_self (scope : Scope K V) (x : K) (v : V) : (scope.bind x v).get x = some v := if_pos rfl

theorem get_bind_of_ne (scope : Scope K V) {x y : K} (v : V) (h : x ≠ y) : (scope.bind x v).get y = scope.get y :=
  if_neg h

/-- The values of the names, when all of them are bound to values of the form that `f` reads. -/
def gets (scope : Scope K V) (f : V → Option W) : List K → Option (List W)
  | [] => some []
  | x :: xs =>
    match (scope.get x).bind f, gets scope f xs with
    | some w, some ws => some (w :: ws)
    | _, _ => none

theorem gets_eq_some {scope : Scope K V} {f : V → Option W} {xs : List K} {ws : List W}
    (h : List.Forall₂ (fun x w => (scope.get x).bind f = some w) xs ws) : scope.gets f xs = some ws := by
  induction h with
  | nil => rfl
  | cons hx _ ih => rw [gets, hx, ih]

end Scope
