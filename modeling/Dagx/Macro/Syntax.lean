import Dagx.Basic

/-!
# What `#[task]` reads and emits (`dagx-macros/src/lib.rs`)

* `Xid`: the characters of identifiers, as Unicode says; `Ident`: an identifier, valid by construction, with
  `Ident.display` and `Ident.new` of `proc_macro2`;
* `Pat`, `Typ`, `FnArg`, `Signature`, `ImplItemFn`, `ImplItem`, `ItemImpl`: an impl block as `syn` parses it;
* `Wrapper`, `TaskImpl`, `Expansion`: the code emitted.

`Tok` stands for the token streams that the macro copies and never looks into.
-/

namespace Dagx.Macro

/-! ## Identifiers -/

/-- The Unicode properties `XID_Start` and `XID_Continue`. -/
structure Xid where
  start : Char → Bool
  cont : Char → Bool
  cont_of_start : ∀ c, start c = true → cont c = true
  start_of_lower : ∀ c, 'a' ≤ c → c ≤ 'z' → start c = true
  cont_underscore : cont '_' = true
  cont_hash : cont '#' = false

namespace Xid

variable (U : Xid)

def isHead (c : Char) : Bool := c = '_' || U.start c

/-- `XID_Start XID_Continue*`, where the first character may be an underscore. -/
def isIdentChars : List Char → Bool
  | [] => false
  | c :: cs => U.isHead c && cs.all U.cont

/-- A valid identifier, keywords included. -/
def isIdent (s : String) : Bool := U.isIdentChars s.toList

def isPlain (s : String) : Bool := s ≠ "" && s.toList.all fun c => c = '_' || 'a' ≤ c && c ≤ 'z'

variable {U}

theorem cont_of_isHead {c : Char} (h : U.isHead c = true) : U.cont c = true := by
  unfold isHead at h
  rw [Bool.or_eq_true, decide_eq_true_iff] at h
  rcases h with rfl | h
  · exact U.cont_underscore
  · exact U.cont_of_start c h

theorem isHead_of_plain {c : Char} (h : (c = '_' || 'a' ≤ c && c ≤ 'z') = true) : U.isHead c = true := by
  unfold isHead
  rw [Bool.or_eq_true, decide_eq_true_iff] at h ⊢
  rw [Bool.and_eq_true, decide_eq_true_iff, decide_eq_true_iff] at h
  exact h.imp id fun hlower => U.start_of_lower c hlower.1 hlower.2

theorem isIdentChars_cons {c : Char} {cs : List Char} :
    U.isIdentChars (c :: cs) = true ↔ U.isHead c = true ∧ ∀ a ∈ cs, U.cont a = true := by
  rw [isIdentChars, Bool.and_eq_true, List.all_eq_true]

theorem cont_of_isIdent {s : String} (h : U.isIdent s = true) : ∀ c ∈ s.toList, U.cont c = true := by
  unfold isIdent at h
  cases hs : s.toList with
  | nil => exact fun c hc => by cases hc
  | cons c cs =>
    rw [hs, isIdentChars_cons] at h
    intro a ha
    rcases List.mem_cons.mp ha with rfl | ha
    · exact cont_of_isHead h.1
    · exact h.2 a ha

theorem isIdent_of_isPlain {s : String} (h : isPlain s = true) : U.isIdent s = true := by
  unfold isPlain at h
  rw [Bool.and_eq_true, decide_eq_true_iff, List.all_eq_true] at h
  obtain ⟨hne, hall⟩ := h
  unfold isIdent
  cases hs : s.toList with
  | nil =>
    have hempty : s = "" := by simpa using hs
    exact absurd hempty hne
  | cons c cs =>
    rw [hs] at hall
    rw [isIdentChars_cons]
    refine ⟨isHead_of_plain (hall c List.mem_cons_self), fun a ha => ?_⟩
    apply cont_of_isHead
    exact isHead_of_plain (hall a (List.mem_cons_of_mem c ha))

theorem isIdent_append {s t : String} (hs : U.isIdent s = true) :
    U.isIdent (s ++ t) = true ↔ ∀ c ∈ t.toList, U.cont c = true := by
  unfold isIdent at hs ⊢
  rw [String.toList_append]
  cases hchars : s.toList with
  | nil =>
    rw [hchars] at hs
    cases hs
  | cons c cs =>
    rw [hchars, isIdentChars_cons] at hs
    rw [List.cons_append, isIdentChars_cons]
    constructor
    · intro h a ha
      exact h.2 a (List.mem_append_right cs ha)
    · intro h
      refine ⟨hs.1, fun a ha => ?_⟩
      rcases List.mem_append.mp ha with ha | ha
      · exact hs.2 a ha
      · exact h a ha

def ascii : Xid where
  start c := c.isAlpha
  cont c := c.isAlphanum || c = '_'
  cont_of_start c h := by
    have halphanum : c.isAlphanum = true := Bool.or_eq_true_iff.mpr (Or.inl h)
    rw [halphanum, Bool.true_or]
  start_of_lower c hle hge := by
    have hlower : c.isLower = true := Bool.and_eq_true_iff.mpr ⟨decide_eq_true hle, decide_eq_true hge⟩
    exact Bool.or_eq_true_iff.mpr (Or.inr hlower)
  cont_underscore := by decide
  cont_hash := by decide

end Xid

/-- Where an identifier is resolved: at the user's code, at the macro's call (`quote!`), or as `macro_rules!` does. -/
inductive Span
  | parsed
  | callSite
  | mixedSite
deriving DecidableEq

/-- `Ident`. The name is without the prefix of a raw identifier. -/
structure Ident (U : Xid) where
  name : String
  raw : Bool
  span : Span
  valid : U.isIdent name = true
deriving DecidableEq

namespace Ident

variable {U : Xid}

/-- `Display`: raw identifiers print their prefix. -/
def display (x : Ident U) : String := if x.raw then "r#" ++ x.name else x.name

/-- `Ident::new`; it panics on a string that is not a valid identifier. -/
def new (s : String) (span : Span) : Outcome (Ident U) :=
  if h : U.isIdent s = true then .ok ⟨s, false, span, h⟩
  else .error (.string (s.quote ++ " is not a valid Ident"))

def quoted (s : String) (h : Xid.isPlain s = true) : Ident U := ⟨s, false, .callSite, Xid.isIdent_of_isPlain h⟩

end Ident

/-! ## Impl blocks -/

/-- `Type`, as far as its form matters. -/
inductive Typ (Tok : Type)
  /-- `()` -/
  | unit
  /-- `&T`, `&mut T` -/
  | reference (lifetime : Option Tok) (mutability : Bool) (elem : Typ Tok)
  | other (tokens : Tok)
deriving DecidableEq

/-- `Pat`: `Pat::Ident` is `[ref] [mut] ident [@ subpat]`. -/
inductive Pat (U : Xid) (Tok : Type)
  | ident (byRef mutability : Bool) (ident : Ident U) (subpat : Option Tok)
  | other (tokens : Tok)
deriving DecidableEq

inductive FnArg (U : Xid) (Tok : Type)
  /-- any form of `self` -/
  | receiver (tokens : Tok)
  | typed (attrs : List Tok) (pat : Pat U Tok) (ty : Typ Tok)
deriving DecidableEq

structure Generics (Tok : Type) where
  params : List Tok
  whereClause : Option (List Tok)
deriving DecidableEq

def Generics.none {Tok : Type} : Generics Tok := ⟨[], .none⟩

structure Signature (U : Xid) (Tok : Type) where
  constness : Bool
  asyncness : Bool
  unsafety : Bool
  abi : Option Tok
  ident : Ident U
  generics : Generics Tok
  inputs : List (FnArg U Tok)
  variadic : Option Tok
  output : Option (Typ Tok)
deriving DecidableEq

structure ImplItemFn (U : Xid) (Tok : Type) where
  attrs : List Tok
  vis : Option Tok
  defaultness : Bool
  sig : Signature U Tok
  block : Tok
deriving DecidableEq

inductive ImplItem (U : Xid) (Tok : Type)
  | method (method : ImplItemFn U Tok)
  /-- a constant, a type, a macro call -/
  | other (tokens : Tok)
deriving DecidableEq

/-- `ItemImpl`: an inherent block. -/
structure ItemImpl (U : Xid) (Tok : Type) where
  attrs : List Tok
  generics : Generics Tok
  selfTy : Typ Tok
  items : List (ImplItem U Tok)
deriving DecidableEq

/-! ## Emitted code -/

/-- `let (fst, snd) = scrutinee.next();` -/
structure LetNext (U : Xid) where
  fst : Ident U
  snd : Ident U
  scrutinee : Ident U

/-- `receiver.run_impl(args)` or, without a receiver, `Self::run_impl(args)`, awaited or not. -/
structure RunCall (U : Xid) where
  receiver : Option (Ident U)
  args : List (Ident U)
  await : Bool

/-- `async fn run(mut self, mut input: TaskInput<'_, Input>) -> Self::Output`: the names of its parameters, its body. -/
structure Wrapper (U : Xid) where
  self : Ident U
  input : Ident U
  lets : List (LetNext U)
  call : RunCall U

/-- `impl ::dagx::Task<(input,)> for selfTy`, with `type Output = output;` and `run`. -/
structure TaskImpl (U : Xid) (Tok : Type) where
  attrs : List Tok
  generics : Generics Tok
  input : List (Typ Tok)
  selfTy : Typ Tok
  output : Typ Tok
  run : Wrapper U

structure Expansion (U : Xid) (Tok : Type) where
  taskImpl : TaskImpl U Tok
  inherent : ItemImpl U Tok

/-- What a `compile_error!` points to. -/
inductive Spanned (U : Xid) (Tok : Type)
  | block (b : ItemImpl U Tok)
  | pat (pat : Pat U Tok)
  | ty (ty : Typ Tok)

structure CompileError (U : Xid) (Tok : Type) where
  spanned : Spanned U Tok
  message : String

end Dagx.Macro
