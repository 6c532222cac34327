import Mathlib.Logic.Relation

/-!
# Transition systems and histories

* `Reachable init step s`: `s` is reached from an initial state by finitely many steps; `Reachable.invariant` is the
  induction rule;
* `Always R log`: every entry of a history is related by `R` to the entries before it (`always_append_singleton`);
* `Steps step n s s'`: a run of `n` steps; when each step is one unit of work, `Steps.work` counts them and
  `no_infinite_run` and `exists_stuck` say that runs end.
-/

namespace System

variable {σ ε : Type*}

/-- `s` is reached from an initial state by finitely many steps. -/
def Reachable (init : σ → Prop) (step : σ → σ → Prop) (s : σ) : Prop :=
  ∃ s₀, init s₀ ∧ Relation.ReflTransGen step s₀ s

theorem Reachable.of_init {init : σ → Prop} {step : σ → σ → Prop} {s : σ} (h : init s) : Reachable init step s :=
  ⟨s, h, .refl⟩

theorem Reachable.step {init : σ → Prop} {step : σ → σ → Prop} {s s' : σ} (h : Reachable init step s)
    (hs : step s s') : Reachable init step s' := by
  obtain ⟨s₀, h₀, hr⟩ := h
  exact ⟨s₀, h₀, hr.tail hs⟩

/-- **The invariant rule.** -/
theorem Reachable.invariant {init : σ → Prop} {step : σ → σ → Prop} {I : σ → Prop} (h₀ : ∀ s, init s → I s)
    (hstep : ∀ s s', I s → step s s' → I s') {s : σ} (h : Reachable init step s) : I s := by
  obtain ⟨s₀, hi, hr⟩ := h
  induction hr with
  | refl => exact h₀ s₀ hi
  | tail _ hs ih => exact hstep _ _ ih hs

/-! ## Histories -/

/-- Every entry of `log` is related by `R` to the entries before it. -/
def Always (R : List ε → ε → Prop) (log : List ε) : Prop := ∀ pre e post, log = pre ++ e :: post → R pre e

theorem always_nil (R : List ε → ε → Prop) : Always R [] := by
  intro pre e post h
  simp at h

theorem always_append_singleton {R : List ε → ε → Prop} {log : List ε} {e : ε} :
    Always R (log ++ [e]) ↔ Always R log ∧ R log e := by
  constructor
  · intro h
    refine ⟨fun pre a post heq => h pre a (post ++ [e]) (by rw [heq]; simp), h log e [] rfl⟩
  · rintro ⟨hlog, he⟩ pre a post heq
    rcases List.eq_nil_or_concat post with rfl | ⟨post, b, rfl⟩
    · obtain ⟨rfl, hb⟩ := List.append_inj' heq rfl
      obtain rfl : e = a := by simpa using hb
      exact he
    · rw [List.concat_eq_append, ← List.cons_append, ← List.append_assoc] at heq
      exact hlog pre a post (List.append_inj' heq rfl).1

/-! ## Runs of a given length -/

/-- `s'` is reached from `s` by `n` steps. -/
inductive Steps (step : σ → σ → Prop) : Nat → σ → σ → Prop
  | refl (s : σ) : Steps step 0 s s
  | tail {n : Nat} {s s' s'' : σ} (h : Steps step n s s') (hs : step s' s'') : Steps step (n + 1) s s''

theorem Steps.invariant {step : σ → σ → Prop} {I : σ → Prop} (hstep : ∀ s s', I s → step s s' → I s') {n : Nat}
    {s s' : σ} (h : Steps step n s s') (hs : I s) : I s' := by
  induction h with
  | refl s => exact hs
  | tail _ hlast ih => exact hstep _ _ (ih hs) hlast

theorem Steps.work {step : σ → σ → Prop} {I : σ → Prop} {work : σ → Nat} (hstep : ∀ s s', I s → step s s' → I s')
    (hwork : ∀ s s', I s → step s s' → work s = work s' + 1) {n : Nat} {s s' : σ} (h : Steps step n s s') (hs : I s) :
    work s = work s' + n := by
  induction h with
  | refl s => rfl
  | tail hsteps hlast ih =>
    have hone := hwork _ _ (hsteps.invariant hstep hs) hlast
    have hn := ih hs
    omega

theorem no_infinite_run {step : σ → σ → Prop} {I : σ → Prop} {work : σ → Nat}
    (hstep : ∀ s s', I s → step s s' → I s') (hwork : ∀ s s', I s → step s s' → work s = work s' + 1) (f : Nat → σ)
    (h₀ : I (f 0)) : ¬ ∀ i, step (f i) (f (i + 1)) := by
  intro hrun
  have hsteps : ∀ n, Steps step n (f 0) (f n) := by
    intro n
    induction n with
    | zero => exact .refl _
    | succ n ih => exact ih.tail (hrun n)
  have := (hsteps (work (f 0) + 1)).work hstep hwork h₀
  omega

theorem exists_stuck {step : σ → σ → Prop} {I : σ → Prop} {work : σ → Nat} (hstep : ∀ s s', I s → step s s' → I s')
    (hwork : ∀ s s', I s → step s s' → work s = work s' + 1) {s : σ} (hs : I s) :
    ∃ s', Relation.ReflTransGen step s s' ∧ I s' ∧ ∀ s'', ¬ step s' s'' := by
  induction hn : work s generalizing s with
  | zero =>
    refine ⟨s, .refl, hs, fun s' hs' => ?_⟩
    have := hwork s s' hs hs'
    omega
  | succ n ih =>
    by_cases hstuck : ∃ s', step s s'
    · obtain ⟨s', hs'⟩ := hstuck
      have hone := hwork s s' hs hs'
      obtain ⟨s'', hrun, hs'', hend⟩ := ih (hstep s s' hs hs') (by omega)
      exact ⟨s'', .head hs' hrun, hs'', hend⟩
    · exact ⟨s, .refl, hs, fun s' hs' => hstuck ⟨s', hs'⟩⟩

end System
