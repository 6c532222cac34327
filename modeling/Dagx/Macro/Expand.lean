import Dagx.Macro.Syntax

/-!
# The expansion of `#[task]` (`dagx-macros/src/lib.rs`)

* `ItemImpl.runMethod`: the `run()` method, the first one of its name;
* `FnArg.param`, `Signature.params`: the names and inner types of the parameters, or the first error;
* `extractIdent`: the name that a parameter gets in the wrapper (`extractIdent_eq_ok`), or the panic of a raw one
  (`extractIdent_eq_error`);
* `task`: the macro; `task_cases` and `exists_of_task` say what it returns.
-/

namespace Dagx.Macro

variable {U : Xid} {Tok : Type}

/-! ## Errors -/

/-- `Error::new_spanned(&impl_block, ..)`. -/
def missingRun (implBlock : ItemImpl U Tok) : CompileError U Tok :=
  ⟨.block implBlock,
    "impl block must contain a run() method\n\nExpected signature: fn run(&mut self, ...) -> OutputType\n" ++
    "or: async fn run(&mut self, ...) -> OutputType\n" ++
    "The #[task] macro requires a run() method to implement the Task trait."⟩

/-- `Error::new_spanned(pat, ..)`. -/
def unsupportedPattern (pat : Pat U Tok) : CompileError U Tok :=
  ⟨.pat pat,
    "Unsupported parameter pattern\n\nParameters must be simple identifiers like 'input: &T' or 'a: &i32'."⟩

/-- `Error::new_spanned(ty, ..)`. -/
def notReference (ty : Typ Tok) : CompileError U Tok :=
  ⟨.ty ty,
    "All parameters must be references (&T)\n\nTask inputs must be references to allow sharing data between tasks.\n" ++
    "Change this parameter from 'T' to '&T'."⟩

/-! ## Reading the signature -/

def ImplItem.runMethod : ImplItem U Tok → Option (ImplItemFn U Tok)
  | .method m => if m.sig.ident.display = "run" then some m else none
  | .other _ => none

/-- `impl_block.items.iter().find_map(..)`. -/
def ItemImpl.runMethod (implBlock : ItemImpl U Tok) : Option (ImplItemFn U Tok) :=
  implBlock.items.findSome? ImplItem.runMethod

/-- The name and the inner type of a parameter. A receiver is skipped. -/
def FnArg.param : FnArg U Tok → Option (Except (CompileError U Tok) (Ident U × Typ Tok))
  | .receiver _ => none
  | .typed _ (.other tokens) _ => some (.error (unsupportedPattern (.other tokens)))
  | .typed _ (.ident _ _ paramName _) ty =>
    match ty with
    -- `Type::Reference` is `&T` and `&mut T` alike
    | .reference _ _ innerType => some (.ok (paramName, innerType))
    | ty => some (.error (notReference ty))

/-- `collect` into a `Result`: the first error, if any. -/
def collect {ε α : Type} : List (Except ε α) → Except ε (List α)
  | [] => .ok []
  | .error e :: _ => .error e
  | .ok a :: results =>
    match collect results with
    | .ok as => .ok (a :: as)
    | .error e => .error e

def Signature.params (sig : Signature U Tok) : Except (CompileError U Tok) (List (Ident U × Typ Tok)) :=
  collect (sig.inputs.filterMap FnArg.param)

def Signature.hasSelfReceiver (sig : Signature U Tok) : Bool :=
  sig.inputs.any fun
    | .receiver _ => true
    | .typed .. => false

def Signature.outputType (sig : Signature U Tok) : Typ Tok := sig.output.getD .unit

/-! ## Emission -/

def selfIdent : Ident U := .quoted "self" (by decide)

def inputIdent : Ident U := .quoted "_input" (by decide)

/-- `Ident::new(&format!("__dagx_extract_{}", ident), Span::mixed_site())`. -/
def extractIdent (ident : Ident U) : Outcome (Ident U) := Ident.new ("__dagx_extract_" ++ ident.display) .mixedSite

def extractIdents : List (Ident U × Typ Tok) → Outcome (List (Ident U))
  | [] => .ok []
  | (ident, _) :: params => do
    let ident ← extractIdent ident
    let idents ← extractIdents params
    return ident :: idents

/-- `param_destructure` and `run_call` in the body of `run`. -/
def wrapper (sig : Signature U Tok) (refs : List (Ident U)) : Wrapper U where
  self := selfIdent
  input := inputIdent
  lets := refs.map fun ident => ⟨ident, inputIdent, inputIdent⟩
  call := ⟨if sig.hasSelfReceiver then some selfIdent else none, refs, sig.asyncness⟩

def runImplIdent (span : Span) : Ident U := ⟨"run_impl", false, span, Xid.isIdent_of_isPlain (by decide)⟩

def ImplItemFn.runImpl (runMethod : ImplItemFn U Tok) : ImplItemFn U Tok :=
  { runMethod with sig := { runMethod.sig with ident := runImplIdent runMethod.sig.ident.span } }

/-- The `quote!` at the end. -/
def expansion (implBlock : ItemImpl U Tok) (runMethod : ImplItemFn U Tok) (types : List (Typ Tok))
    (refs : List (Ident U)) : Expansion U Tok where
  taskImpl :=
    { attrs := []
      generics := .none
      input := types
      selfTy := implBlock.selfTy
      output := runMethod.sig.outputType
      run := wrapper runMethod.sig refs }
  inherent :=
    { attrs := []
      generics := .none
      selfTy := implBlock.selfTy
      items := [.method runMethod.runImpl] }

/-- `#[task]`: a panic, a `compile_error!` or the code emitted. -/
def task (implBlock : ItemImpl U Tok) : Outcome (Except (CompileError U Tok) (Expansion U Tok)) :=
  match implBlock.runMethod with
  | none => .ok (.error (missingRun implBlock))
  | some runMethod =>
    match runMethod.sig.params with
    | .error e => .ok (.error e)
    | .ok params => do
      let refs ← extractIdents params
      return .ok (expansion implBlock runMethod (params.map Prod.snd) refs)

/-! ## The names in the wrapper -/

theorem display_of_not_raw {ident : Ident U} (h : ident.raw = false) : ident.display = ident.name := by
  simp [Ident.display, h]

/-- The prefix makes an identifier of every name that is not raw. -/
theorem extractIdent_eq_ok {ident : Ident U} (h : ident.raw = false) :
    ∃ ref, extractIdent ident = .ok ref ∧ ref.name = "__dagx_extract_" ++ ident.name := by
  have hvalid : U.isIdent ("__dagx_extract_" ++ ident.display) = true := by
    rw [display_of_not_raw h, Xid.isIdent_append (Xid.isIdent_of_isPlain (by decide))]
    exact Xid.cont_of_isIdent ident.valid
  unfold extractIdent Ident.new
  rw [dif_pos hvalid]
  exact ⟨_, rfl, congrArg ("__dagx_extract_" ++ ·) (display_of_not_raw h)⟩

/-- The `#` of a raw name cannot stand inside an identifier. -/
theorem extractIdent_eq_error {ident : Ident U} (h : ident.raw = true) :
    ∃ payload, extractIdent ident = .error payload := by
  have hinvalid : ¬ U.isIdent ("__dagx_extract_" ++ ident.display) = true := by
    have hraw : ident.display = "r#" ++ ident.name := by simp [Ident.display, h]
    rw [hraw, Xid.isIdent_append (Xid.isIdent_of_isPlain (by decide))]
    intro hall
    have hcont : U.cont '#' = true := hall '#' (by simp)
    rw [U.cont_hash] at hcont
    cases hcont
  unfold extractIdent Ident.new
  exact ⟨_, dif_neg hinvalid⟩

theorem extractIdents_eq_ok {params : List (Ident U × Typ Tok)} (h : ∀ p ∈ params, p.1.raw = false) :
    ∃ refs, extractIdents params = .ok refs ∧
      refs.map Ident.name = params.map fun p => "__dagx_extract_" ++ p.1.name := by
  induction params with
  | nil => exact ⟨[], rfl, rfl⟩
  | cons p params ih =>
    obtain ⟨ref, href, hname⟩ := extractIdent_eq_ok (h p List.mem_cons_self)
    obtain ⟨refs, hrefs, hnames⟩ := ih fun q hq => h q (List.mem_cons_of_mem p hq)
    refine ⟨ref :: refs, ?_, ?_⟩
    · rw [extractIdents, href, hrefs]
      rfl
    · rw [List.map_cons, List.map_cons, hname, hnames]

theorem extractIdents_eq_error {params : List (Ident U × Typ Tok)} {p : Ident U × Typ Tok} (hp : p ∈ params)
    (h : p.1.raw = true) : ∃ payload, extractIdents params = .error payload := by
  induction params with
  | nil => cases hp
  | cons q params ih =>
    cases hq : extractIdent q.1 with
    | error payload =>
      refine ⟨payload, ?_⟩
      rw [extractIdents, hq]
      rfl
    | ok ref =>
      rcases List.mem_cons.mp hp with rfl | hp
      · obtain ⟨payload, herror⟩ := extractIdent_eq_error h
        rw [herror] at hq
        cases hq
      · obtain ⟨payload, herror⟩ := ih hp
        refine ⟨payload, ?_⟩
        rw [extractIdents, hq, herror]
        rfl

theorem extract_ne {s : String} (h : s.toList.take 2 ≠ ['_', '_']) (name : String) : "__dagx_extract_" ++ name ≠ s := by
  intro heq
  apply h
  rw [← heq, String.toList_append]
  rfl

/-! ## The expansion of a block -/

theorem collect_map_ok {ε α : Type} (as : List α) : collect (as.map (Except.ok (ε := ε))) = .ok as := by
  induction as with
  | nil => rfl
  | cons a as ih => rw [List.map_cons, collect, ih]

theorem task_of_no_run {implBlock : ItemImpl U Tok} (hrun : implBlock.runMethod = none) :
    task implBlock = .ok (.error (missingRun implBlock)) := by
  unfold task
  rw [hrun]

theorem task_of_params_error {implBlock : ItemImpl U Tok} {runMethod : ImplItemFn U Tok}
    (hrun : implBlock.runMethod = some runMethod) {e : CompileError U Tok} (hparams : runMethod.sig.params = .error e) :
    task implBlock = .ok (.error e) := by
  unfold task
  rw [hrun]
  dsimp only
  rw [hparams]

theorem task_of_params {implBlock : ItemImpl U Tok} {runMethod : ImplItemFn U Tok}
    (hrun : implBlock.runMethod = some runMethod) {params : List (Ident U × Typ Tok)}
    (hparams : runMethod.sig.params = .ok params) :
    task implBlock = (extractIdents params).map fun refs =>
      .ok (expansion implBlock runMethod (params.map Prod.snd) refs) := by
  unfold task
  rw [hrun]
  dsimp only
  rw [hparams]
  rfl

theorem task_cases {implBlock : ItemImpl U Tok} {runMethod : ImplItemFn U Tok}
    (hrun : implBlock.runMethod = some runMethod) :
    (∃ e, runMethod.sig.params = .error e ∧ task implBlock = .ok (.error e)) ∨
      (∃ payload, task implBlock = .error payload) ∨
      ∃ params refs, runMethod.sig.params = .ok params ∧
        task implBlock = .ok (.ok (expansion implBlock runMethod (params.map Prod.snd) refs)) := by
  cases hparams : runMethod.sig.params with
  | error e => exact Or.inl ⟨e, rfl, task_of_params_error hrun hparams⟩
  | ok params =>
    have htask := task_of_params hrun hparams
    cases hrefs : extractIdents params with
    | error payload =>
      rw [hrefs] at htask
      exact Or.inr (Or.inl ⟨payload, htask⟩)
    | ok refs =>
      rw [hrefs] at htask
      exact Or.inr (Or.inr ⟨params, refs, rfl, htask⟩)

theorem exists_of_task {implBlock : ItemImpl U Tok} {e : Expansion U Tok} (h : task implBlock = .ok (.ok e)) :
    ∃ runMethod types refs, implBlock.runMethod = some runMethod ∧ e = expansion implBlock runMethod types refs := by
  cases hrun : implBlock.runMethod with
  | none =>
    rw [task_of_no_run hrun] at h
    cases h
  | some runMethod =>
    rcases task_cases hrun with ⟨e', -, htask⟩ | ⟨payload, htask⟩ | ⟨params, refs, -, htask⟩
    · rw [htask] at h
      cases h
    · rw [htask] at h
      cases h
    · rw [htask] at h
      cases h
      exact ⟨runMethod, _, refs, rfl, rfl⟩

/-! ## Blocks for examples -/

namespace Sample

def ident (name : String) (h : Xid.ascii.isIdent name = true) : Ident Xid.ascii := ⟨name, false, .parsed, h⟩

/-- `async fn name(inputs) { .. }`. -/
def method (name : Ident Xid.ascii) (inputs : List (FnArg Xid.ascii String)) : ImplItemFn Xid.ascii String where
  attrs := []
  vis := none
  defaultness := false
  sig := ⟨false, true, false, none, name, .none, inputs, none, none⟩
  block := "{ .. }"

def run (inputs : List (FnArg Xid.ascii String)) : ImplItemFn Xid.ascii String :=
  method (ident "run" (by decide)) inputs

/-- `impl Foo { items }`. -/
def block (items : List (ImplItem Xid.ascii String)) : ItemImpl Xid.ascii String where
  attrs := []
  generics := .none
  selfTy := .other "Foo"
  items := items

end Sample

end Dagx.Macro
