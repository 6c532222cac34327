import Dagx.Macro.Expand

/-!
# What `#[task]` keeps of a block

* `ImplItemFn.IsRenamed`: the method under the name `run_impl`, all else the same; `ImplItemFn.runImpl_isRenamed`;
* `Keeps`: nothing of the block is lost: its items, attributes and generics;
* `ItemImpl.keeps_iff`: the expansion keeps a block exactly when it has nothing but `run()`;
* `not_keeps`: a helper method is dropped.
-/

namespace Dagx.Macro

variable {U : Xid} {Tok : Type}

/-- The method under the name `run_impl`: its attributes, signature and body are those of the other. -/
def ImplItemFn.IsRenamed (renamed method : ImplItemFn U Tok) : Prop :=
  renamed.sig.ident.name = "run_impl" ∧
    renamed = { method with sig := { method.sig with ident := renamed.sig.ident } }

theorem ImplItemFn.runImpl_isRenamed (method : ImplItemFn U Tok) : method.runImpl.IsRenamed method := ⟨rfl, rfl⟩

/-- The code emitted still has all of the block: `run()` as `run_impl()`, the other items in their order, the attributes
and the generics on both impls. -/
structure Keeps (implBlock : ItemImpl U Tok) (e : Expansion U Tok) : Prop where
  items : ∃ before runMethod after before' renamed after',
    implBlock.items = before ++ .method runMethod :: after ∧ implBlock.runMethod = some runMethod ∧
      (∀ item ∈ before, item.runMethod = none) ∧ e.inherent.items = before' ++ .method renamed :: after' ∧
      renamed.IsRenamed runMethod ∧ (before ++ after).Sublist (before' ++ after')
  attrs : e.taskImpl.attrs = implBlock.attrs ∧ e.inherent.attrs = implBlock.attrs
  generics : e.taskImpl.generics = implBlock.generics ∧ e.inherent.generics = implBlock.generics

theorem ImplItem.eq_of_runMethod {item : ImplItem U Tok} {runMethod : ImplItemFn U Tok}
    (h : item.runMethod = some runMethod) : item = .method runMethod := by
  cases item with
  | method m =>
    have hnamed : (if m.sig.ident.display = "run" then some m else none) = some runMethod := h
    split_ifs at hnamed
    exact congrArg ImplItem.method (Option.some.inj hnamed)
  | other tokens => cases h

/-- **What the expansion keeps**: `run()` only. For every block accepted, nothing is lost exactly when the block has no
other item, no attribute and no generics. -/
theorem ItemImpl.keeps_iff {implBlock : ItemImpl U Tok} {e : Expansion U Tok} (h : task implBlock = .ok (.ok e)) :
    Keeps implBlock e ↔
      implBlock.attrs = [] ∧ implBlock.generics = .none ∧ ∃ method, implBlock.items = [.method method] := by
  obtain ⟨runMethod, types, refs, hrun, rfl⟩ := exists_of_task h
  constructor
  · intro hkeeps
    refine ⟨hkeeps.attrs.1.symm, hkeeps.generics.1.symm, ?_⟩
    obtain ⟨before, method, after, before', renamed, after', hitems, -, -, hemitted, -, hsub⟩ := hkeeps.items
    obtain ⟨rfl, rfl⟩ : before' = [] ∧ after' = [] := by
      have hlength := congrArg List.length hemitted
      simp only [expansion, List.length_append, List.length_cons, List.length_nil] at hlength
      exact ⟨List.eq_nil_of_length_eq_zero (by omega), List.eq_nil_of_length_eq_zero (by omega)⟩
    obtain ⟨rfl, rfl⟩ := List.append_eq_nil_iff.mp (List.sublist_nil.mp hsub)
    exact ⟨method, hitems⟩
  · intro hbare
    obtain ⟨hattrs, hgenerics, method, hitems⟩ := hbare
    have hmethod : method = runMethod := by
      unfold ItemImpl.runMethod at hrun
      rw [hitems, List.findSome?_cons] at hrun
      cases hitem : (ImplItem.method method).runMethod with
      | none =>
        rw [hitem] at hrun
        cases hrun
      | some m =>
        rw [hitem] at hrun
        cases hrun
        exact ImplItem.method.inj (ImplItem.eq_of_runMethod hitem)
    subst hmethod
    refine ⟨⟨[], method, [], [], method.runImpl, [], hitems, hrun, ?_, rfl, method.runImpl_isRenamed, ?_⟩, ?_, ?_⟩
    · intro item hitem
      cases hitem
    · exact List.Sublist.refl []
    · exact ⟨hattrs.symm, hattrs.symm⟩
    · exact ⟨hgenerics.symm, hgenerics.symm⟩

namespace Sample

def bare : ItemImpl Xid.ascii String := block [.method (run [])]

/-- `impl Foo { async fn helper(&self) { .. } async fn run() { .. } }`. -/
def withHelper : ItemImpl Xid.ascii String :=
  block [.method (method (ident "helper" (by decide)) [.receiver "&self"]), .method (run [])]

end Sample

theorem keeps_sample : ∃ e, task Sample.bare = .ok (.ok e) ∧ Keeps Sample.bare e := by
  have htask : ∃ e, task Sample.bare = .ok (.ok e) := ⟨_, rfl⟩
  obtain ⟨e, htask⟩ := htask
  exact ⟨e, htask, (ItemImpl.keeps_iff htask).mpr ⟨rfl, rfl, _, rfl⟩⟩

/-- A helper method beside `run()` is not emitted. -/
theorem not_keeps : ∃ e, task Sample.withHelper = .ok (.ok e) ∧ ¬ Keeps Sample.withHelper e := by
  refine ⟨_, rfl, fun hkeeps => ?_⟩
  obtain ⟨before, m, after, before', renamed, after', hitems, -, -, hemitted, -, hsub⟩ := hkeeps.items
  have hcount := congrArg List.length hitems
  have hemittedCount := congrArg List.length hemitted
  have hle := hsub.length_le
  simp only [Sample.withHelper, Sample.block, List.length_cons, List.length_nil, List.length_append] at hcount hle
  simp only [expansion, List.length_append, List.length_cons, List.length_nil] at hemittedCount
  omega

end Dagx.Macro
