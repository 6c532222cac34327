import Mathlib.Algebra.Group.Nat.Defs
import Mathlib.Data.List.AList

/-!
# Ids, hash maps, panics and errors

* `NodeId` (`builder.rs`): a bare `u32`; `NodeId.ofLen` is the truncating cast `nodes.len() as u32`;
* `PassThroughHashMap` (`runner.rs`): a finite map; the order of its entries has no meaning, `iter()` may yield any
  permutation of them (`Iter`);
* `Outcome`: a computation or future that returns or panics with a `Payload`; `panicMessage` is the conversion both
  `catch_unwind` sites of `run` make;
* `DagError` and `DagResult` (`error.rs`).
-/

namespace Dagx

/-- `NodeId(pub u32)`. -/
structure NodeId where
  val : UInt32
deriving DecidableEq, Repr

/-- `NodeId(len as u32)`. -/
def NodeId.ofLen (len : Nat) : NodeId := ⟨UInt32.ofNat len⟩

/-- `id.0 as usize`. -/
def NodeId.index (id : NodeId) : Nat := id.val.toNat

theorem NodeId.index_inj {a b : NodeId} : a.index = b.index ↔ a = b := by
  cases a; cases b
  simp [NodeId.index, UInt32.toNat_inj]

@[simp] theorem NodeId.index_ofLen (len : Nat) : (NodeId.ofLen len).index = len % 2 ^ 32 := UInt32.toNat_ofNat'

theorem NodeId.index_ofLen_of_lt {len : Nat} (h : len < 2 ^ 32) : (NodeId.ofLen len).index = len := by
  rw [NodeId.index_ofLen, Nat.mod_eq_of_lt h]

theorem NodeId.index_lt (id : NodeId) : id.index < 2 ^ 32 := id.val.toNat_lt

theorem NodeId.eq_ofLen_or_lt_iff {id : NodeId} {len : Nat} :
    id = .ofLen len ∨ id.index < len ↔ id.index < len + 1 := by
  have hlt := id.index_lt
  rw [← NodeId.index_inj, NodeId.index_ofLen]
  omega

/-! ## Hash maps -/

/-- A `HashMap` keyed by node ids. -/
abbrev PassThroughHashMap (V : Type) := AList (fun _ : NodeId => V)

namespace PassThroughHashMap

variable {V : Type}

/-- `if let Some(list) = map.get_mut(&key) { list.push(x) }`. -/
def push (map : PassThroughHashMap (List V)) (key : NodeId) (x : V) : PassThroughHashMap (List V) :=
  match map.lookup key with
  | some list => map.insert key (list ++ [x])
  | none => map

@[simp] theorem lookup_push (map : PassThroughHashMap (List V)) (key k : NodeId) (x : V) :
    (map.push key x).lookup k = if k = key then (map.lookup k).map (· ++ [x]) else map.lookup k := by
  unfold push
  split_ifs with h
  · subst h
    cases hl : map.lookup k <;> simp [hl]
  · cases hl : map.lookup key with
    | none => rfl
    | some list => exact AList.lookup_insert_ne h

@[simp] theorem mem_push (map : PassThroughHashMap (List V)) (key k : NodeId) (x : V) :
    k ∈ map.push key x ↔ k ∈ map := by
  rw [← AList.lookup_isSome, ← AList.lookup_isSome, lookup_push]
  split_ifs <;> simp

end PassThroughHashMap

/-- An iteration order of the maps with values in `V`: what `iter()` yields for each. -/
structure Iter (V : Type) where
  entries : PassThroughHashMap V → List (Σ _ : NodeId, V)
  perm : ∀ map, (entries map).Perm map.entries

theorem Iter.mem_entries {V : Type} (it : Iter V) (map : PassThroughHashMap V) (key : NodeId) (v : V) :
    (⟨key, v⟩ : Σ _ : NodeId, V) ∈ it.entries map ↔ map.lookup key = some v := by
  rw [(it.perm map).mem_iff, ← AList.mem_lookup_iff, Option.mem_def]

theorem Iter.nodup_keys {V : Type} (it : Iter V) (map : PassThroughHashMap V) :
    ((it.entries map).map Sigma.fst).Nodup :=
  ((it.perm map).map Sigma.fst).nodup_iff.mpr map.keys_nodup

def Iter.stored (V : Type) : Iter V := ⟨fun map => map.entries, fun _ => .refl _⟩

/-! ## Panics and errors -/

/-- What a panic carries: a `&'static str`, a `String`, or a value of another type. -/
inductive Payload
  | str (s : String)
  | string (s : String)
  | other
deriving DecidableEq, Repr

/-- A computation or future that returns (`.ok`) or panics (`.error`): what `catch_unwind` makes of it. -/
abbrev Outcome (α : Type) := Except Payload α

/-- `panic_payload.downcast_ref::<&str>()`, then `::<String>()`, else `"unknown panic"`. -/
def panicMessage : Payload → String
  | .str s => s
  | .string s => s
  | .other => "unknown panic"

inductive DagError
  | TaskPanicked (task_id : UInt32) (panic_message : String)
deriving DecidableEq, Repr

abbrev DagResult (α : Type) := Except DagError α

def unwrapNone : Payload := .str "called `Option::unwrap()` on a `None` value"

def indexOutOfBounds (len index : Nat) : Payload :=
  .string s!"index out of bounds: the len is {len} but the index is {index}"

/-- `HashMap::index` on an absent key. -/
def noEntry : Payload := .str "no entry found for key"

/-- `*degree -= 1` at zero, with overflow checks. -/
def subtractOverflow : Payload := .str "attempt to subtract with overflow"

def assertionFailed (cond : String) : Payload := .str ("assertion failed: " ++ cond)

end Dagx
