import Mathlib.Logic.Function.Basic
import Mathlib.Logic.Relation
import Mathlib.Algebra.GroupWithZero.Nat
/-!
# Runs of a labelled transition system

A system is a step relation `step s i s'` (label `i` takes `s` to `s'`). A *guard* `ok s i` is a
condition on the state before a step. `Reach.inv` is the invariant rule; `run_iff_of_inv` is the rule
for an exact guard: when every guarded step keeps an invariant that gives `P`, and every step that
misses the guard breaks `P`, then a run stays inside `P` iff each of its steps meets the guard.
`Run.simulate` matches a run by the execution of its visible labels in another system, `Run.potential` bounds
what a run costs by a potential that its steps use up.

The last section is about states with one component for each thread, of which a step replaces one.
-/
namespace Transition

variable {σ ι : Type*}

/-- The states reached from an initial state. -/
inductive Reach (step : σ → ι → σ → Prop) (init : σ → Prop) : σ → Prop
  | init {s : σ} : init s → Reach step init s
  | step {s s' : σ} {i : ι} : Reach step init s → step s i s' → Reach step init s'

/-- The steps of a system that meet a guard. -/
def guarded (step : σ → ι → σ → Prop) (ok : σ → ι → Prop) (s : σ) (i : ι) (s' : σ) : Prop :=
  step s i s' ∧ ok s i

/-- A run with its trace: each step's state before it and its label, in order. -/
inductive Run (step : σ → ι → σ → Prop) : σ → List (σ × ι) → σ → Prop
  | nil (s : σ) : Run step s [] s
  | snoc {s t u : σ} {i : ι} {tr : List (σ × ι)} :
      Run step s tr t → step t i u → Run step s (tr ++ [(t, i)]) u

variable {step : σ → ι → σ → Prop} {init : σ → Prop} {ok : σ → ι → Prop} {I P : σ → Prop}

/-- The invariant rule. -/
theorem Reach.inv (h0 : ∀ s, init s → I s) (hs : ∀ s i s', I s → step s i s' → I s') {s : σ}
    (h : Reach step init s) : I s := by
  induction h with
  | init h => exact h0 _ h
  | step _ hst ih => exact hs _ _ _ ih hst

/-- Along a run whose steps all meet the guard the invariant is kept. -/
theorem Run.inv (hs : ∀ s i s', I s → step s i s' → ok s i → I s') {s t : σ} {tr : List (σ × ι)}
    (h : Run step s tr t) (h0 : I s) (hok : ∀ e ∈ tr, ok e.1 e.2) : I t := by
  induction h with
  | nil => exact h0
  | @snoc t u i tr _ hst ih =>
    have hlast : ok t i := hok (t, i) (by simp)
    exact hs _ _ _ (ih fun e he => hok e (by simp [he])) hst hlast

/-- Without a guard. -/
theorem Run.keeps (hs : ∀ s i s', I s → step s i s' → I s') {s t : σ} {tr : List (σ × ι)} (h : Run step s tr t)
    (h0 : I s) : I t := by
  induction h with
  | nil => exact h0
  | snoc _ hst ih => exact hs _ _ _ ih hst

/-- The invariant also holds before each step of the run. -/
theorem Run.inv_before (hs : ∀ s i s', I s → step s i s' → ok s i → I s') {s t : σ} {tr : List (σ × ι)}
    (h : Run step s tr t) (h0 : I s) (hok : ∀ e ∈ tr, ok e.1 e.2) : ∀ e ∈ tr, I e.1 := by
  induction h with
  | nil => intro e he; cases he
  | @snoc t u i tr hr hst ih =>
    have hpre : ∀ e ∈ tr, ok e.1 e.2 := fun e he => hok e (by simp [he])
    intro e he
    rcases List.mem_append.1 he with he | he
    · exact ih hpre e he
    · obtain rfl := List.mem_singleton.1 he
      exact hr.inv hs h0 hpre

theorem Run.append {s t u : σ} {tr tr' : List (σ × ι)} (h : Run step s tr t) (h' : Run step t tr' u) :
    Run step s (tr ++ tr') u := by
  induction h' with
  | nil => rw [List.append_nil]; exact h
  | snoc _ hst ih => rw [← List.append_assoc]; exact ih.snoc hst

theorem Run.cons {s t u : σ} {i : ι} {tr : List (σ × ι)} (hst : step s i t) (h : Run step t tr u) :
    Run step s ((s, i) :: tr) u := (Run.snoc (.nil s) hst).append h

/-- One more step of a run whose steps all meet the guard. -/
theorem Run.snoc_ok {s t u : σ} {i : ι} {tr : List (σ × ι)} (h : Run step s tr t ∧ ∀ e ∈ tr, ok e.1 e.2)
    (hst : step t i u) (hok : ok t i) : Run step s (tr ++ [(t, i)]) u ∧ ∀ e ∈ tr ++ [(t, i)], ok e.1 e.2 := by
  refine ⟨h.1.snoc hst, fun e he => ?_⟩
  rcases List.mem_append.1 he with he | he
  · exact h.2 e he
  · obtain rfl := List.mem_singleton.1 he
    exact hok

/-- What the trace records are steps of the system. -/
theorem Run.step_of_mem {s t : σ} {tr : List (σ × ι)} (h : Run step s tr t) : ∀ e ∈ tr, ∃ u, step e.1 e.2 u := by
  induction h with
  | nil => intro e he; cases he
  | @snoc t u i tr _ hst ih =>
    intro e he
    rcases List.mem_append.1 he with he | he
    · exact ih e he
    · obtain rfl := List.mem_singleton.1 he
      exact ⟨u, hst⟩

/-- **Exact guard.** The states of a run (those before its steps, and the last one) all satisfy `P`
iff all its steps meet the guard. -/
theorem run_iff_of_inv {s t : σ} {tr : List (σ × ι)} (h : Run step s tr t) (h0 : I s)
    (hs : ∀ s i s', I s → step s i s' → ok s i → I s') (hP : ∀ s, I s → P s)
    (hbad : ∀ s i s', I s → step s i s' → P s' → ok s i) :
    ((∀ e ∈ tr, P e.1) ∧ P t) ↔ ∀ e ∈ tr, ok e.1 e.2 := by
  constructor
  · -- induction on the run: up to the last step the guard held, so the invariant did
    induction h with
    | nil => intro _ e he; cases he
    | @snoc t u i tr hr hst ih =>
      rintro ⟨hall, hu⟩
      have hpre := ih ⟨fun e he => hall e (by simp [he]), hall (t, i) (by simp)⟩
      intro e he
      rcases List.mem_append.1 he with he | he
      · exact hpre e he
      · obtain rfl := List.mem_singleton.1 he
        exact hbad _ _ _ (hr.inv hs h0 hpre) hst hu
  · intro hok
    exact ⟨fun e he => hP _ (h.inv_before hs h0 hok e he), hP _ (h.inv hs h0 hok)⟩

/-- **Amortized cost.** Each step pays for its cost out of the potential and of what it gains; so does a run. -/
theorem Run.potential (cost gain : σ → ι → Nat) (pot : σ → Nat)
    (hs : ∀ s i s', I s → step s i s' → I s' ∧ cost s i + pot s' ≤ pot s + gain s i) {s t : σ} {tr : List (σ × ι)}
    (h : Run step s tr t) (h0 : I s) :
    I t ∧ (tr.map fun e => cost e.1 e.2).sum + pot t ≤ pot s + (tr.map fun e => gain e.1 e.2).sum := by
  induction h with
  | nil => exact ⟨h0, by simp⟩
  | @snoc t u i tr _ hst ih =>
    obtain ⟨ht, hle⟩ := ih
    obtain ⟨hu, hstep⟩ := hs t i u ht hst
    refine ⟨hu, ?_⟩
    simp only [List.map_append, List.sum_append, List.map_cons, List.map_nil, List.sum_singleton]
    omega

section Simulation
variable {τ κ : Type*} {exec : τ → κ → Option τ} {vis : ι → Option κ} {R : σ → τ → Prop}

/-- **Simulation with stuttering.** Each guarded step is matched in a deterministic system: a step with
the visible label `vis i = some k` by `exec · k`, any other step by doing nothing. Then a run is matched
by the execution of its visible labels. -/
theorem Run.simulate (hs : ∀ s i s' t, R s t → step s i s' → ok s i → ∃ t', (vis i).elim (some t) (exec t) = some t' ∧ R s' t')
    {s s' : σ} {tr : List (σ × ι)} (h : Run step s tr s') {t : τ} (hR : R s t) (hok : ∀ e ∈ tr, ok e.1 e.2) :
    ∃ t', (tr.filterMap fun e => vis e.2).foldlM exec t = some t' ∧ R s' t' := by
  induction h with
  | nil => exact ⟨t, rfl, hR⟩
  | @snoc u u' i tr _ hst ih =>
    obtain ⟨t₁, h₁, hR₁⟩ := ih fun e he => hok e (by simp [he])
    obtain ⟨t₂, h₂, hR₂⟩ := hs _ _ _ _ hR₁ hst (hok (u, i) (by simp))
    refine ⟨t₂, ?_, hR₂⟩
    rw [List.filterMap_append, List.foldlM_append, h₁]
    cases hv : vis i with
    | none => simpa [hv] using h₂
    | some k => simpa [hv] using h₂

end Simulation

section Update
variable {κ α β : Type*} [DecidableEq κ] {g : κ → α} {i j : κ} {x : α}

/-- What is read at `j` after the component at `i` was replaced is the new one's or the old one's. -/
theorem update_cases (f : α → β) {b : β} (h : f (Function.update g i x j) = b) :
    (j = i ∧ f x = b) ∨ (j ≠ i ∧ f (g j) = b) := by
  by_cases hj : j = i
  · rw [hj, Function.update_self] at h
    exact .inl ⟨hj, h⟩
  · rw [Function.update_of_ne hj] at h
    exact .inr ⟨hj, h⟩

theorem update_same (f : α → β) (hx : f x = f (g i)) (j : κ) : f (Function.update g i x j) = f (g j) := by
  rcases update_cases f (Eq.refl (f (Function.update g i x j))) with ⟨rfl, h⟩ | ⟨_, h⟩
  · rw [← h, hx]
  · exact h.symm

end Update

end Transition
