import Dagx.Macro.Expand

/-!
# What `#[task]` accepts

The documented grammar: a `run()` whose parameters are plain names with types `&T`, or an error about the first item that
is not of this form.

* `FnArg.offence`, `Signature.firstOffender`: what is wrong with a parameter, the first one that is wrong;
* `Documented`: what the macro should return for a block;
* `FnArg.isRecognised`: the macro looks for this offence; `FnArg.recognised_of_param`, `Signature.params_of_recognised`:
  these are all offences it reports;
* `ItemImpl.documented_iff`: when it returns what it should;
* `not_documented`: a raw name panics, a mutable reference is let through.
-/

namespace Dagx.Macro

variable {U : Xid} {Tok : Type}

/-! ## The documented grammar -/

def Pat.isPlain : Pat U Tok → Bool
  | .ident false false _ none => true
  | _ => false

def Typ.isSharedRef : Typ Tok → Bool
  | .reference _ false _ => true
  | _ => false

def Typ.isReference : Typ Tok → Bool
  | .reference .. => true
  | _ => false

/-- What is wrong with a parameter. -/
def FnArg.offence : FnArg U Tok → Option (CompileError U Tok)
  | .receiver _ => none
  | .typed _ pat ty =>
    if pat.isPlain then if ty.isSharedRef then none else some (notReference ty)
    else some (unsupportedPattern pat)

/-- The first parameter outside the grammar. -/
def Signature.firstOffender (sig : Signature U Tok) : Option (FnArg U Tok) :=
  sig.inputs.find? fun arg => arg.offence.isSome

/-- What the macro should return: an expansion, or the error about the first offence. -/
def Documented (implBlock : ItemImpl U Tok) (r : Outcome (Except (CompileError U Tok) (Expansion U Tok))) : Prop :=
  match implBlock.runMethod with
  | none => r = .ok (.error (missingRun implBlock))
  | some runMethod =>
    match runMethod.sig.firstOffender with
    | none => ∃ e, r = .ok (.ok e)
    | some arg => ∃ e, arg.offence = some e ∧ r = .ok (.error e)

/-! ## The offences reported -/

/-- An offence that the macro looks for: a pattern that destructures, or a plain name with a type that is no reference. -/
def FnArg.isRecognised : FnArg U Tok → Bool
  | .receiver _ => false
  | .typed _ (.other _) _ => true
  | .typed _ pat ty => pat.isPlain && !ty.isReference

def FnArg.isRaw : FnArg U Tok → Bool
  | .typed _ (.ident _ _ ident _) _ => ident.raw
  | _ => false

theorem collect_eq_error {ε α : Type} {results : List (Except ε α)} {e : ε} (h : collect results = .error e) :
    .error e ∈ results := by
  induction results with
  | nil => cases h
  | cons r results ih =>
    cases r with
    | error e' =>
      cases h
      exact List.mem_cons_self
    | ok a =>
      rw [collect] at h
      cases hrest : collect results with
      | ok as =>
        rw [hrest] at h
        cases h
      | error e' =>
        rw [hrest] at h
        cases h
        exact List.mem_cons_of_mem _ (ih hrest)

theorem FnArg.offence_typed (attrs : List Tok) (pat : Pat U Tok) (ty : Typ Tok) :
    (FnArg.typed attrs pat ty).offence =
      if pat.isPlain then if ty.isSharedRef then none else some (notReference ty)
      else some (unsupportedPattern pat) := rfl

theorem FnArg.param_eq_error {arg : FnArg U Tok} {e : CompileError U Tok} (h : arg.param = some (.error e)) :
    (∃ tokens, e = unsupportedPattern (.other tokens)) ∨ ∃ ty, ty.isReference = false ∧ e = notReference ty := by
  cases arg with
  | receiver tokens => cases h
  | typed attrs pat ty =>
    cases pat with
    | other tokens =>
      cases h
      exact Or.inl ⟨tokens, rfl⟩
    | ident byRef mutability paramName subpat =>
      cases ty with
      | reference lifetime mutability elem => cases h
      | unit =>
        cases h
        exact Or.inr ⟨.unit, rfl, rfl⟩
      | other tokens =>
        cases h
        exact Or.inr ⟨.other tokens, rfl, rfl⟩

theorem FnArg.recognised_of_pattern {arg : FnArg U Tok} {tokens : Tok}
    (h : arg.offence = some (unsupportedPattern (.other tokens))) : arg.isRecognised = true := by
  cases arg with
  | receiver tokens => cases h
  | typed attrs pat ty =>
    rw [FnArg.offence_typed] at h
    have hspanned := congrArg (Option.map CompileError.spanned) h
    split_ifs at hspanned
    · cases hspanned
    · cases hspanned
    · cases hspanned
      rfl

theorem FnArg.recognised_of_type {arg : FnArg U Tok} {ty : Typ Tok} (hty : ty.isReference = false)
    (h : arg.offence = some (notReference ty)) : arg.isRecognised = true := by
  cases arg with
  | receiver tokens => cases h
  | typed attrs pat ty' =>
    rw [FnArg.offence_typed] at h
    have hspanned := congrArg (Option.map CompileError.spanned) h
    split_ifs at hspanned with hplain
    · cases hspanned
    · cases hspanned
      cases pat with
      | other tokens => rfl
      | ident byRef mutability paramName subpat => exact Bool.and_eq_true_iff.mpr ⟨hplain, congrArg not hty⟩
    · cases hspanned

theorem FnArg.recognised_of_param {arg arg' : FnArg U Tok} {e : CompileError U Tok}
    (hparam : arg'.param = some (.error e)) (hoffence : arg.offence = some e) : arg.isRecognised = true := by
  rcases FnArg.param_eq_error hparam with ⟨tokens, rfl⟩ | ⟨ty, hty, rfl⟩
  · exact FnArg.recognised_of_pattern hoffence
  · exact FnArg.recognised_of_type hty hoffence

theorem FnArg.param_of_recognised {arg : FnArg U Tok} {e : CompileError U Tok} (h : arg.isRecognised = true)
    (hoffence : arg.offence = some e) : arg.param = some (.error e) := by
  cases arg with
  | receiver tokens => cases h
  | typed attrs pat ty =>
    cases pat with
    | other tokens => exact congrArg (Option.map Except.error) hoffence
    | ident byRef mutability paramName subpat =>
      unfold FnArg.isRecognised at h
      rw [Bool.and_eq_true] at h
      rw [FnArg.offence_typed, if_pos h.1] at hoffence
      cases ty with
      | reference lifetime mutability elem => cases h.2
      | unit => exact congrArg (Option.map Except.error) hoffence
      | other tokens => exact congrArg (Option.map Except.error) hoffence

theorem FnArg.param_of_no_offence {arg : FnArg U Tok} (h : arg.offence = none) :
    (arg.param = none ∧ arg.isRaw = false) ∨ ∃ p, arg.param = some (.ok p) ∧ arg.isRaw = p.1.raw := by
  cases arg with
  | receiver tokens => exact Or.inl ⟨rfl, rfl⟩
  | typed attrs pat ty =>
    rw [FnArg.offence_typed] at h
    split_ifs at h with hplain hshared
    cases pat with
    | other tokens => cases hplain
    | ident byRef mutability paramName subpat =>
      cases ty with
      | reference lifetime mutability elem => exact Or.inr ⟨(paramName, elem), rfl, rfl⟩
      | unit => cases hshared
      | other tokens => cases hshared

/-! ## The signature as a whole -/

namespace Signature

variable {sig : Signature U Tok}

theorem params_of_no_offender (h : sig.firstOffender = none) :
    ∃ params, sig.params = .ok params ∧
      ((∀ p ∈ params, p.1.raw = false) ↔ ∀ arg ∈ sig.inputs, arg.isRaw = false) := by
  unfold firstOffender at h
  unfold Signature.params
  rw [List.find?_eq_none] at h
  generalize sig.inputs = inputs at h ⊢
  induction inputs with
  | nil => exact ⟨[], rfl, by simp⟩
  | cons arg inputs ih =>
    obtain ⟨params, hparams, hraw⟩ := ih fun a ha => h a (List.mem_cons_of_mem arg ha)
    have hnone : arg.offence = none := by simpa using h arg List.mem_cons_self
    rcases FnArg.param_of_no_offence hnone with ⟨hskip, hnot⟩ | ⟨p, hp, hsame⟩
    · refine ⟨params, ?_, ?_⟩
      · rw [List.filterMap_cons_none hskip]
        exact hparams
      · rw [hraw, List.forall_mem_cons]
        exact ⟨fun hall => ⟨hnot, hall⟩, And.right⟩
    · refine ⟨p :: params, ?_, ?_⟩
      · rw [List.filterMap_cons_some hp, collect, hparams]
      · rw [List.forall_mem_cons, List.forall_mem_cons, hraw, hsame]

theorem exists_offence {arg : FnArg U Tok} (h : sig.firstOffender = some arg) : ∃ e, arg.offence = some e := by
  unfold firstOffender at h
  have hsome := List.find?_some h
  exact Option.isSome_iff_exists.mp hsome

/-- The first offender decides, when the macro looks for its offence. -/
theorem params_of_recognised {arg : FnArg U Tok} {e : CompileError U Tok} (h : sig.firstOffender = some arg)
    (hoffence : arg.offence = some e) : sig.params = .error e ↔ arg.isRecognised = true := by
  unfold Signature.params
  constructor
  · intro herror
    obtain ⟨arg', -, hparam⟩ := List.mem_filterMap.mp (collect_eq_error herror)
    exact FnArg.recognised_of_param hparam hoffence
  · intro hrecognised
    have hparam := FnArg.param_of_recognised hrecognised hoffence
    obtain ⟨-, before, after, hinputs, hbefore⟩ := List.find?_eq_some_iff_append.mp h
    rw [hinputs]
    clear hinputs
    induction before with
    | nil => rw [List.nil_append, List.filterMap_cons_some hparam, collect]
    | cons b before ih =>
      have hrest := ih fun a ha => hbefore a (List.mem_cons_of_mem b ha)
      have hnone : b.offence = none := by simpa using hbefore b List.mem_cons_self
      rcases FnArg.param_of_no_offence hnone with ⟨hskip, -⟩ | ⟨p, hp, -⟩
      · rw [List.cons_append, List.filterMap_cons_none hskip]
        exact hrest
      · rw [List.cons_append, List.filterMap_cons_some hp, collect, hrest]

end Signature

theorem task_eq_error_iff {implBlock : ItemImpl U Tok} {runMethod : ImplItemFn U Tok}
    (hrun : implBlock.runMethod = some runMethod) {e : CompileError U Tok} :
    task implBlock = .ok (.error e) ↔ runMethod.sig.params = .error e := by
  constructor
  · intro h
    rcases task_cases hrun with ⟨e', hparams, htask⟩ | ⟨payload, htask⟩ | ⟨params, refs, -, htask⟩
    · rw [htask] at h
      cases h
      exact hparams
    · rw [htask] at h
      cases h
    · rw [htask] at h
      cases h
  · exact task_of_params_error hrun

theorem task_eq_ok_iff {implBlock : ItemImpl U Tok} {runMethod : ImplItemFn U Tok}
    (hrun : implBlock.runMethod = some runMethod) {params : List (Ident U × Typ Tok)}
    (hparams : runMethod.sig.params = .ok params) :
    (∃ e, task implBlock = .ok (.ok e)) ↔ ∀ p ∈ params, p.1.raw = false := by
  rw [task_of_params hrun hparams]
  constructor
  · intro h p hp
    by_contra hraw
    rw [Bool.not_eq_false] at hraw
    obtain ⟨payload, herror⟩ := extractIdents_eq_error hp hraw
    rw [herror] at h
    obtain ⟨e, he⟩ := h
    cases he
  · intro h
    obtain ⟨refs, hrefs, -⟩ := extractIdents_eq_ok h
    rw [hrefs]
    exact ⟨_, rfl⟩

/-- **When the macro does what it documents**: for every block, it returns an expansion or the error about the first
offence exactly when there is no `run()`, or the first parameter outside the grammar has an offence the macro looks for,
or all parameters are in the grammar and none is a raw identifier. -/
theorem ItemImpl.documented_iff (implBlock : ItemImpl U Tok) :
    Documented implBlock (task implBlock) ↔
      ∀ runMethod, implBlock.runMethod = some runMethod →
        match runMethod.sig.firstOffender with
        | some arg => arg.isRecognised = true
        | none => ∀ arg ∈ runMethod.sig.inputs, arg.isRaw = false := by
  unfold Documented
  cases hrun : implBlock.runMethod with
  | none =>
    refine ⟨fun _ runMethod h => ?_, fun _ => task_of_no_run hrun⟩
    cases h
  | some runMethod =>
    simp only [Option.some.injEq, forall_eq']
    cases hfirst : runMethod.sig.firstOffender with
    | none =>
      obtain ⟨params, hparams, hraw⟩ := Signature.params_of_no_offender hfirst
      exact (task_eq_ok_iff hrun hparams).trans hraw
    | some arg =>
      obtain ⟨e, hoffence⟩ := Signature.exists_offence hfirst
      have hreported := (task_eq_error_iff hrun).trans (Signature.params_of_recognised hfirst hoffence)
      constructor
      · intro h
        obtain ⟨e', he', htask⟩ := h
        rw [hoffence] at he'
        cases he'
        exact hreported.mp htask
      · intro h
        exact ⟨e, hoffence, hreported.mpr h⟩

/-! ## Blocks that are not treated as documented -/

namespace Sample

/-- `impl Foo { async fn run(r#type: &i32) { .. } }`. -/
def rawNamed : ItemImpl Xid.ascii String :=
  block [.method (run [.typed [] (.ident false false ⟨"type", true, .parsed, by decide⟩ none)
    (.reference none false (.other "i32"))])]

/-- `impl Foo { async fn run(x: &mut i32) { .. } }`. -/
def mutRef : ItemImpl Xid.ascii String :=
  block [.method (run [.typed [] (.ident false false (ident "x" (by decide)) none)
    (.reference none true (.other "i32"))])]

end Sample

/-- A raw name makes the macro panic, a mutable reference is let through. -/
theorem not_documented :
    (¬ Documented Sample.rawNamed (task Sample.rawNamed) ∧ ∃ payload, task Sample.rawNamed = .error payload) ∧
      ¬ Documented Sample.mutRef (task Sample.mutRef) ∧ ∃ e, task Sample.mutRef = .ok (.ok e) := by
  refine ⟨⟨?_, ?_⟩, ?_, ?_⟩
  · intro h
    obtain ⟨e, he⟩ := h
    cases he
  · exact ⟨_, rfl⟩
  · intro h
    obtain ⟨e, -, he⟩ := h
    cases he
  · exact ⟨_, rfl⟩

end Dagx.Macro
