import Abfall.StopTheWorld
/-!
# Pacing: `calculate_threshold`, `update_threshold` and `should_collect` (heap.rs:221-339)

`calculate_threshold` aims at `live + live * threshold_percent / 100` and returns one of two values: the
old threshold, when the new one is lower but not low enough to shrink, or the new one raised to
`min_threshold_bytes` (`calculateThreshold_cases`). Everything below is read off these two cases.

`GcOptions.calculateThreshold` is exact. `calculateThresholdM` is the same function over the `usize`
operations of a build: `calculateThresholdChecked` panics where one of them overflows,
`calculateThresholdWrapping` goes on modulo `2^64`. They agree with the exact function on the inputs
that are `InBounds` (`calculateThresholdChecked_of_inBounds`), and on no others does the checked one
return (`inBounds_of_isSome`).

With `threshold_percent` 0 or `usize::MAX` the threshold is meant to be disabled, but `with_options`
starts from `min_threshold_bytes` whatever the percentage is, and only the first completed cycle stores
`usize::MAX`: `disabled_threshold_iff`.
-/
namespace Abfall
open Transition

namespace GcOptions

/-- The fields are `usize` values. -/
structure InUsize (o : GcOptions) : Prop where
  incrementalWorkBudget : o.incrementalWorkBudget ≤ usizeMax
  assistWorkBudget : o.assistWorkBudget ≤ usizeMax
  thresholdPercent : o.thresholdPercent ≤ usizeMax
  thresholdShrinkPercent : o.thresholdShrinkPercent ≤ usizeMax
  minThresholdBytes : o.minThresholdBytes ≤ usizeMax
  limitBytes : o.limitBytes ≤ usizeMax

/-- `new_threshold` of `calculate_threshold` (heap.rs:226). -/
def newThreshold (o : GcOptions) (liveUsage : Nat) : Nat := liveUsage + liveUsage * o.thresholdPercent / 100

/-- The shrink test (heap.rs:227-236): a lower threshold is not applied. -/
def KeepsOld (o : GcOptions) (oldThreshold liveUsage : Nat) : Prop :=
  o.newThreshold liveUsage < oldThreshold ∧ (o.thresholdShrinkPercent = 0 ∨
    (o.thresholdShrinkPercent < 100 ∧ oldThreshold * o.thresholdShrinkPercent / 100 < o.newThreshold liveUsage))

variable {o : GcOptions}

theorem calculateThreshold_off (h : o.isThresholdOff = true) (t l : Nat) : o.calculateThreshold t l = usizeMax := by
  simp [calculateThreshold, h]

/-- What `calculate_threshold` returns. -/
theorem calculateThreshold_cases (h : o.isThresholdOff = false) (t l : Nat) :
    (o.KeepsOld t l ∧ o.calculateThreshold t l = t) ∨
    (¬ o.KeepsOld t l ∧ o.calculateThreshold t l = max (o.newThreshold l) o.minThresholdBytes) := by
  have happlied : (if o.newThreshold l < o.minThresholdBytes then o.minThresholdBytes else o.newThreshold l) =
      max (o.newThreshold l) o.minThresholdBytes := by split <;> omega
  unfold calculateThreshold KeepsOld
  simp only [h, Bool.false_eq_true, ↓reduceIte]
  rw [← newThreshold, happlied]
  by_cases hlt : o.newThreshold l < t
  swap
  · simp [hlt]
  by_cases h0 : o.thresholdShrinkPercent = 0
  · simp [hlt, h0]
  by_cases h100 : o.thresholdShrinkPercent < 100
  · by_cases hlim : t * o.thresholdShrinkPercent / 100 < o.newThreshold l <;> simp [hlt, h0, h100, hlim]
  · simp [hlt, h0, h100]

theorem le_newThreshold (o : GcOptions) (l : Nat) : l ≤ o.newThreshold l := Nat.le_add_right _ _

theorem newThreshold_mono (o : GcOptions) {l₁ l₂ : Nat} (h : l₁ ≤ l₂) : o.newThreshold l₁ ≤ o.newThreshold l₂ :=
  Nat.add_le_add h (Nat.div_le_div_right (Nat.mul_le_mul_right _ h))

/-- The threshold is at least what was live. -/
theorem le_calculateThreshold (o : GcOptions) (t : Nat) {l : Nat} (hl : l ≤ usizeMax) :
    l ≤ o.calculateThreshold t l := by
  cases h : o.isThresholdOff with
  | true => rw [calculateThreshold_off h]; exact hl
  | false =>
    have hn := o.le_newThreshold l
    rcases calculateThreshold_cases h t l with ⟨hk, e⟩ | ⟨_, e⟩ <;> rw [e]
    · exact Nat.le_trans hn (Nat.le_of_lt hk.1)
    · exact Nat.le_trans hn (Nat.le_max_left _ _)

/-- It stays at or above the minimum. The old value is returned as it is, so this needs the bound on
the old value too. -/
theorem min_le_calculateThreshold (hm : o.minThresholdBytes ≤ usizeMax) {t : Nat} (ht : o.minThresholdBytes ≤ t)
    (l : Nat) : o.minThresholdBytes ≤ o.calculateThreshold t l := by
  cases h : o.isThresholdOff with
  | true => rw [calculateThreshold_off h]; exact hm
  | false =>
    rcases calculateThreshold_cases h t l with ⟨_, e⟩ | ⟨_, e⟩ <;> rw [e]
    · exact ht
    · exact Nat.le_max_right _ _

/-- When a threshold goes down. -/
theorem calculateThreshold_lt {t l : Nat} (htop : t ≤ usizeMax ∨ o.isThresholdOff = false)
    (h : o.calculateThreshold t l < t) :
    100 ≤ o.thresholdShrinkPercent ∨
      (o.thresholdShrinkPercent ≠ 0 ∧ o.newThreshold l ≤ t * o.thresholdShrinkPercent / 100) := by
  cases hoff : o.isThresholdOff with
  | true =>
    rw [calculateThreshold_off hoff] at h
    simp only [hoff, Bool.true_eq_false, or_false] at htop
    omega
  | false =>
    rcases calculateThreshold_cases hoff t l with ⟨_, e⟩ | ⟨hk, e⟩ <;> rw [e] at h
    · omega
    · have hlt : o.newThreshold l < t := by omega
      simp only [KeepsOld, hlt, true_and] at hk
      omega

/-! ## Stability -/

/-- A cycle that finds the same live usage again leaves the threshold where it is. -/
theorem calculateThreshold_again (o : GcOptions) (t l : Nat) :
    o.calculateThreshold (o.calculateThreshold t l) l = o.calculateThreshold t l := by
  cases hoff : o.isThresholdOff with
  | true => rw [calculateThreshold_off hoff, calculateThreshold_off hoff]
  | false =>
    rcases calculateThreshold_cases hoff t l with ⟨_, e⟩ | ⟨_, e⟩
    · rw [e, e]
    · -- an applied value is the applied value again, kept or not
      rw [e]
      rcases calculateThreshold_cases hoff (max (o.newThreshold l) o.minThresholdBytes) l with ⟨_, e'⟩ | ⟨_, e'⟩ <;>
        rw [e']

/-- **Pacing is stable.** A cycle that finds the same live usage again leaves the threshold where it
is; and for one old threshold of at least the minimum, more live usage never gives a lower one. -/
theorem calculateThreshold_stable (o : GcOptions) :
    (∀ t l, o.calculateThreshold (o.calculateThreshold t l) l = o.calculateThreshold t l) ∧
    (∀ t l₁ l₂, o.minThresholdBytes ≤ t → l₁ ≤ l₂ → o.calculateThreshold t l₁ ≤ o.calculateThreshold t l₂) := by
  refine ⟨o.calculateThreshold_again, fun t l₁ l₂ ht hl => ?_⟩
  cases hoff : o.isThresholdOff with
  | true => rw [calculateThreshold_off hoff, calculateThreshold_off hoff]
  | false =>
    have hn := o.newThreshold_mono hl
    rcases calculateThreshold_cases hoff t l₁ with ⟨hk₁, e₁⟩ | ⟨hk₁, e₁⟩ <;>
      rcases calculateThreshold_cases hoff t l₂ with ⟨hk₂, e₂⟩ | ⟨hk₂, e₂⟩ <;> rw [e₁, e₂]
    · -- kept for `l₁`, applied for `l₂`: then the new threshold has reached the old one
      have hge : t ≤ o.newThreshold l₂ := by
        unfold KeepsOld at hk₁ hk₂
        omega
      exact Nat.le_trans hge (Nat.le_max_left _ _)
    · have := hk₂.1
      omega
    · omega

end GcOptions

/-! ## Runs of completed cycles -/

/-- The heap after cycles that left these live bytes, each ended by `update_threshold` (heap.rs:417). -/
def Heap.afterCycles (o : GcOptions) (lives : List Nat) : Heap :=
  lives.foldl Heap.updateThreshold (Heap.withOptions o)

/-- What every completed cycle keeps. -/
structure Paced (o : GcOptions) (h : Heap) : Prop where
  options : h.options = o
  min_le : o.minThresholdBytes ≤ h.currentThreshold
  le_max : o.isThresholdOff = true → h.currentThreshold ≤ usizeMax

theorem Paced.updateThreshold {o : GcOptions} {h : Heap} (hm : o.minThresholdBytes ≤ usizeMax) (hi : Paced o h)
    (live : Nat) : Paced o (h.updateThreshold live) := by
  obtain ⟨rfl, hmin, _⟩ := hi
  refine ⟨rfl, GcOptions.min_le_calculateThreshold hm hmin live, fun hoff => ?_⟩
  show h.options.calculateThreshold h.currentThreshold live ≤ usizeMax
  rw [GcOptions.calculateThreshold_off hoff]

theorem paced_afterCycles {o : GcOptions} (hm : o.minThresholdBytes ≤ usizeMax) (lives : List Nat) :
    Paced o (Heap.afterCycles o lives) := by
  have hrun : ∀ (lives : List Nat) (h : Heap), Paced o h → Paced o (lives.foldl Heap.updateThreshold h) := by
    intro lives
    induction lives with
    | nil => intro h hi; exact hi
    | cons live lives ih => intro h hi; exact ih _ (hi.updateThreshold hm live)
  exact hrun lives _ ⟨rfl, Nat.le_refl _, fun _ => hm⟩

/-- **Pacing over runs.** After any completed cycles, the next `update_threshold` leaves a threshold of
at least `min_threshold_bytes` and of at least the live bytes, so that nothing but an exceeded limit asks
for a collection right away; and it is lower than before only where the shrink percentage says so. -/
theorem pacing_invariant (o : GcOptions) (ho : o.InUsize) (lives : List Nat) (live : Nat) (hlive : live ≤ usizeMax) :
    let h := Heap.afterCycles o lives
    let h' := h.updateThreshold live
    o.minThresholdBytes ≤ h'.currentThreshold ∧ live ≤ h'.currentThreshold ∧
    ((h'.withBytes live).shouldCollect = true → o.limitBytes ≠ usizeMax ∧ o.limitBytes < live) ∧
    (h'.currentThreshold < h.currentThreshold → 100 ≤ o.thresholdShrinkPercent ∨
      (o.thresholdShrinkPercent ≠ 0 ∧
        o.newThreshold live ≤ h.currentThreshold * o.thresholdShrinkPercent / 100)) := by
  intro h h'
  have hi : Paced o h := paced_afterCycles ho.minThresholdBytes lives
  have hi' : Paced o h' := hi.updateThreshold ho.minThresholdBytes live
  have ht : h'.currentThreshold = o.calculateThreshold h.currentThreshold live := by
    rw [← hi.options]; rfl
  have hge : live ≤ h'.currentThreshold := by
    rw [ht]; exact o.le_calculateThreshold _ hlive
  refine ⟨hi'.min_le, hge, fun hs => ?_, fun hlt => ?_⟩
  · have hopt : (h'.withBytes live).options = o := hi'.options
    have hnot : ¬ h'.currentThreshold < live := by omega
    unfold Heap.shouldCollect at hs
    simp only [hopt, Heap.withBytes_bytesAllocated, Heap.withBytes_currentThreshold, gt_iff_lt, hnot,
      decide_false] at hs
    split at hs
    · cases hs
    · split at hs
      · rename_i hlim
        simpa [GcOptions.isLimitOff] using hlim
      · cases hs
  · rw [ht] at hlt
    refine GcOptions.calculateThreshold_lt ?_ hlt
    cases hoff : o.isThresholdOff with
    | true => exact .inl (hi.le_max hoff)
    | false => exact .inr rfl

/-- The default options: 8 MiB live after a first cycle, then 1 MiB. The second target is below 30
percent of the first threshold, so the threshold goes down. -/
theorem pacing_invariant_shrinks :
    (Heap.afterCycles .default [8388608]).currentThreshold = 10905190 ∧
    ((Heap.afterCycles .default [8388608]).updateThreshold 1048576).currentThreshold = 1363148 ∧
    GcOptions.default.newThreshold 1048576 ≤ 10905190 * 30 / 100 := by
  have h := pacing_invariant .default ⟨by decide, by decide, by decide, by decide, by decide, by decide⟩
    [8388608] 1048576 (by decide)
  have hlt := h.2.2.2 (by decide)
  exact ⟨by decide, by decide, (hlt.resolve_left (by decide)).2⟩

/-! ## `usize` arithmetic -/

/-- The operations of a build with overflow checks; `none` is the panic. -/
def checkedAdd (a b : Nat) : Option Nat := if a + b ≤ usizeMax then some (a + b) else none

def checkedMul (a b : Nat) : Option Nat := if a * b ≤ usizeMax then some (a * b) else none

/-- The operations of a build without them. -/
def wrappingAdd (a b : Nat) : Id Nat := (a + b) % (usizeMax + 1)

def wrappingMul (a b : Nat) : Id Nat := (a * b) % (usizeMax + 1)

namespace GcOptions

/-- `calculate_threshold` (heap.rs:222) over a build's operations. -/
def calculateThresholdM {m : Type → Type} [Monad m] (add mul : Nat → Nat → m Nat) (o : GcOptions)
    (oldThreshold liveUsage : Nat) : m Nat :=
  if o.isThresholdOff then pure usizeMax
  else do
    let product ← mul liveUsage o.thresholdPercent
    let newThreshold ← add liveUsage (product / 100)
    let applied := if newThreshold < o.minThresholdBytes then o.minThresholdBytes else newThreshold
    if newThreshold < oldThreshold then
      if o.thresholdShrinkPercent = 0 then pure oldThreshold
      else if o.thresholdShrinkPercent < 100 then do
        let product ← mul oldThreshold o.thresholdShrinkPercent
        let shrinkLimit := product / 100
        if newThreshold > shrinkLimit then pure oldThreshold else pure applied
      else pure applied
    else pure applied

def calculateThresholdChecked : GcOptions → Nat → Nat → Option Nat := calculateThresholdM checkedAdd checkedMul

def calculateThresholdWrapping (o : GcOptions) (oldThreshold liveUsage : Nat) : Nat :=
  Id.run (calculateThresholdM wrappingAdd wrappingMul o oldThreshold liveUsage)

/-- The inputs on which no operation overflows, by bounds on the live usage and, where the shrink limit is
computed, on the old threshold. -/
def InBounds (o : GcOptions) (oldThreshold liveUsage : Nat) : Prop :=
  o.isThresholdOff = true ∨
  (liveUsage ≤ usizeMax / o.thresholdPercent ∧ liveUsage * o.thresholdPercent / 100 ≤ usizeMax - liveUsage ∧
    (o.newThreshold liveUsage < oldThreshold → o.thresholdShrinkPercent ≠ 0 → o.thresholdShrinkPercent < 100 →
      oldThreshold ≤ usizeMax / o.thresholdShrinkPercent))

variable {o : GcOptions} {t l : Nat}

/-- On operations that are exact at these inputs the result is the exact one. -/
theorem calculateThresholdM_pure {m : Type → Type} [Monad m] [LawfulMonad m] {add mul : Nat → Nat → m Nat}
    (hon : o.isThresholdOff = false) (hmul : mul l o.thresholdPercent = pure (l * o.thresholdPercent))
    (hadd : add l (l * o.thresholdPercent / 100) = pure (o.newThreshold l))
    (hshrink : o.newThreshold l < t → o.thresholdShrinkPercent ≠ 0 → o.thresholdShrinkPercent < 100 →
      mul t o.thresholdShrinkPercent = pure (t * o.thresholdShrinkPercent)) :
    calculateThresholdM add mul o t l = pure (o.calculateThreshold t l) := by
  unfold calculateThresholdM calculateThreshold
  simp only [hon, Bool.false_eq_true, ↓reduceIte, hmul, pure_bind, hadd]
  rw [← newThreshold]
  by_cases hlt : o.newThreshold l < t
  swap
  · simp only [hlt, ↓reduceIte]
  by_cases h0 : o.thresholdShrinkPercent = 0
  · simp only [hlt, h0, ↓reduceIte]
  by_cases h100 : o.thresholdShrinkPercent < 100
  · simp only [hlt, h0, h100, ↓reduceIte, hshrink hlt h0 h100, pure_bind]
    split <;> rfl
  · simp only [hlt, h0, h100, ↓reduceIte]

theorem percent_pos (hon : o.isThresholdOff = false) : 0 < o.thresholdPercent := by
  simp only [isThresholdOff, Bool.or_eq_false_iff, beq_eq_false_iff_ne] at hon
  omega

/-- A build with checks returns on the inputs in bounds, and then the exact value. -/
theorem calculateThresholdChecked_of_inBounds (hl : l ≤ usizeMax) (h : o.InBounds t l) :
    o.calculateThresholdChecked t l = some (o.calculateThreshold t l) := by
  rcases h with hoff | ⟨hp, hs, hold⟩
  · simp [calculateThresholdChecked, calculateThresholdM, calculateThreshold, hoff]
  cases hon : o.isThresholdOff with
  | true => simp [calculateThresholdChecked, calculateThresholdM, calculateThreshold, hon]
  | false =>
    refine calculateThresholdM_pure hon ?_ ?_ fun hlt h0 h100 => ?_
    · exact if_pos ((Nat.le_div_iff_mul_le (percent_pos hon)).1 hp)
    · exact if_pos (by omega)
    · exact if_pos ((Nat.le_div_iff_mul_le (by omega)).1 (hold hlt h0 h100))

/-- Where it returns, every operation was in bounds. -/
theorem inBounds_of_isSome (h : (o.calculateThresholdChecked t l).isSome = true) : o.InBounds t l := by
  cases hon : o.isThresholdOff with
  | true => exact .inl hon
  | false =>
    unfold calculateThresholdChecked calculateThresholdM checkedAdd checkedMul at h
    simp only [hon, Bool.false_eq_true, ↓reduceIte, Option.bind_eq_bind] at h
    by_cases hp : l * o.thresholdPercent ≤ usizeMax
    swap
    · simp [hp] at h
    by_cases hs : l + l * o.thresholdPercent / 100 ≤ usizeMax
    swap
    · simp [hp, hs] at h
    refine .inr ⟨(Nat.le_div_iff_mul_le (percent_pos hon)).2 hp, by omega, fun hlt h0 h100 => ?_⟩
    rw [Nat.le_div_iff_mul_le (by omega)]
    by_contra hold
    simp only [newThreshold] at hlt
    simp [hp, hs, hlt, h0, h100, hold] at h

theorem calculateThresholdWrapping_of_inBounds (hl : l ≤ usizeMax) (h : o.InBounds t l) :
    o.calculateThresholdWrapping t l = o.calculateThreshold t l := by
  rcases h with hoff | ⟨hp, hs, hold⟩
  · simp [calculateThresholdWrapping, calculateThresholdM, calculateThreshold, hoff]
  cases hon : o.isThresholdOff with
  | true => simp [calculateThresholdWrapping, calculateThresholdM, calculateThreshold, hon]
  | false =>
    have hexact : ∀ n, n ≤ usizeMax → n % (usizeMax + 1) = n := fun n hn => Nat.mod_eq_of_lt (by omega)
    unfold calculateThresholdWrapping
    rw [calculateThresholdM_pure hon]
    · rfl
    · exact hexact _ ((Nat.le_div_iff_mul_le (percent_pos hon)).1 hp)
    · exact hexact _ (by omega)
    · intro hlt h0 h100
      exact hexact _ ((Nat.le_div_iff_mul_le (by omega)).1 (hold hlt h0 h100))

/-- One completed cycle of a build without checks, as the threshold sees it: `update_threshold` with any
`usize` of live bytes. Up to its first panic a build with checks goes through the same thresholds
(`calculateThresholdChecked_of_inBounds`). -/
inductive Update (o : GcOptions) : Nat → Nat → Nat → Prop
  | mk (t live : Nat) : live ≤ usizeMax → Update o t live (o.calculateThresholdWrapping t live)

/-- No operation overflows: a build with checks does not panic, and one without them returns no threshold
below the live usage. -/
def Safe (o : GcOptions) (oldThreshold liveUsage : Nat) : Prop :=
  (o.calculateThresholdChecked oldThreshold liveUsage).isSome = true ∧
    liveUsage ≤ o.calculateThresholdWrapping oldThreshold liveUsage

theorem safe_iff (hl : l ≤ usizeMax) : o.Safe t l ↔ o.InBounds t l := by
  refine ⟨fun h => inBounds_of_isSome h.1, fun h => ⟨?_, ?_⟩⟩
  · rw [calculateThresholdChecked_of_inBounds hl h]; rfl
  · rw [calculateThresholdWrapping_of_inBounds hl h]; exact o.le_calculateThreshold t hl

/-- `usize::MAX` live bytes overflow with every percentage. -/
theorem not_inBounds_max (hon : o.isThresholdOff = false) (t : Nat) : ¬ o.InBounds t usizeMax := by
  rintro (hoff | ⟨_, hs, _⟩)
  · rw [hon] at hoff
    cases hoff
  · have hp : usizeMax * 1 / 100 ≤ usizeMax * o.thresholdPercent / 100 :=
      Nat.div_le_div_right (Nat.mul_le_mul_left _ (percent_pos hon))
    simp only [Nat.sub_self, usizeMax] at hs hp
    omega

theorem Update.live_le {old live new : Nat} (h : Update o old live new) : live ≤ usizeMax := by
  cases h with
  | mk hl => exact hl

/-- **When the pacing arithmetic is safe.** In a run of completed cycles from `min_threshold_bytes` no
operation overflows iff every cycle is in bounds; and every run is safe iff the threshold is off. -/
theorem pacing_safe_iff (o : GcOptions) :
    (∀ tr t, Run (Update o) o.minThresholdBytes tr t →
      ((∀ e ∈ tr, o.Safe e.1 e.2) ↔ ∀ e ∈ tr, o.InBounds e.1 e.2)) ∧
    ((∀ tr t, Run (Update o) o.minThresholdBytes tr t → ∀ e ∈ tr, o.Safe e.1 e.2) ↔ o.isThresholdOff = true) := by
  have hstep : ∀ tr t, Run (Update o) o.minThresholdBytes tr t → ∀ e ∈ tr, o.Safe e.1 e.2 ↔ o.InBounds e.1 e.2 := by
    intro tr t h e he
    obtain ⟨_, hu⟩ := h.step_of_mem e he
    exact safe_iff hu.live_le
  refine ⟨fun tr t h => forall₂_congr (hstep tr t h), fun h => ?_, fun hoff tr t h e he => ?_⟩
  · -- one cycle that leaves `usize::MAX` bytes
    by_contra hon
    rw [Bool.not_eq_true] at hon
    have hrun : Run (Update o) _ _ _ := .snoc (.nil o.minThresholdBytes) (.mk _ usizeMax (Nat.le_refl _))
    have hsafe := h _ _ hrun (o.minThresholdBytes, usizeMax) (by simp)
    exact not_inBounds_max hon _ ((safe_iff (Nat.le_refl _)).1 hsafe)
  · exact (hstep tr t h e he).2 (.inl hoff)

/-- A percentage of `2^60` and 64 live bytes after the first cycle: their product is `2^66`. -/
theorem pacing_overflows : ∃ o : GcOptions, o.InUsize ∧ ∃ tr t, Run (Update o) o.minThresholdBytes tr t ∧
    ∃ e ∈ tr, o.calculateThresholdChecked e.1 e.2 = none ∧ ¬ o.Safe e.1 e.2 := by
  refine ⟨⟨100000000, 100, 5, 1152921504606846976, 30, 1048576, usizeMax⟩,
    ⟨by decide, by decide, by decide, by decide, by decide, by decide⟩, _, _,
    .snoc (.nil _) (.mk _ 64 (by decide)), (1048576, 64), by simp, by decide, fun hsafe => ?_⟩
  exact absurd hsafe.1 (by decide)

end GcOptions

/-! ## A disabled threshold -/

section Disabled
open StopTheWorld

theorem forceCollect_threshold {s s' : St} {fuel live : Nat} (hidle : s.heap.phase = .idle)
    (h : s.forceCollect fuel = some (s', live)) :
    s'.heap.options = s.heap.options ∧ s'.heap.phase = .idle ∧
      s'.heap.currentThreshold = s.heap.options.calculateThreshold s.heap.currentThreshold live := by
  obtain ⟨_, s₁, s₂, h₁, h₂, hsweep⟩ := (forceCollect_some h).resolve_left fun hno => hno.1 hidle
  simp only [St.doMarkRoots, Option.map_eq_some_iff] at h₁
  obtain ⟨r, _, rfl⟩ := h₁
  obtain ⟨_, hh⟩ := doMarkWorkFull_frame fuel _ s₂ [] h₂
  rw [sweepAndFinish_heap hsweep, hh]
  exact ⟨rfl, rfl, rfl⟩

/-- The operations that complete a cycle. -/
def Completes (p : Prog) : Op → Prop
  | .forceCollect => True
  | .collect => p.st.heap.shouldCollect = true
  | _ => False

/-- A heap with a disabled threshold, after no cycle (`c` is false) or after some. -/
structure Disabled (o : GcOptions) (c : Prop) (s : St) : Prop where
  options : s.heap.options = o
  phase : s.heap.phase = .idle
  first : ¬ c → s.heap.currentThreshold = o.minThresholdBytes
  later : c → s.heap.currentThreshold = usizeMax

/-- An operation is a mutator's, a `collect` that finds nothing to do, or it completes a cycle. -/
theorem step_cases {p p' : Prog} {op : Op} (h : Step p op p') :
    (¬ Completes p op ∧ (p'.st = p.st ∨ ∃ mop, p'.st = p.st.mutate mop)) ∨
    (Completes p op ∧ ∃ fuel live, p.st.forceCollect fuel = some (p'.st, live)) := by
  cases h with
  | @allocate s rs a d _ _ => exact .inl ⟨id, .inr ⟨.allocate a d, rfl⟩⟩
  | @clone s rs a _ => exact .inl ⟨id, .inr ⟨.clone a, rfl⟩⟩
  | @dropRoot s rs a _ => exact .inl ⟨id, .inr ⟨.dropRoot a, rfl⟩⟩
  | @root s rs a _ => exact .inl ⟨id, .inr ⟨.root a, rfl⟩⟩
  | @set s rs o k vals _ _ _ => exact .inl ⟨id, .inr ⟨.set o k vals, rfl⟩⟩
  | @forceCollect s s' rs fuel live hf => exact .inr ⟨trivial, fuel, live, hf⟩
  | @collect s s' rs fuel hf =>
    unfold St.collect at hf
    split at hf
    · rename_i hs
      obtain ⟨⟨s'', live⟩, hfc, rfl⟩ := Option.map_eq_some_iff.1 hf
      exact .inr ⟨hs, fuel, live, hfc⟩
    · rename_i hs
      cases hf
      exact .inl ⟨hs, .inl rfl⟩

variable {o : GcOptions} {c : Prop}

theorem Disabled.congr {c' : Prop} {s : St} (h : Disabled o c s) (hc : c ↔ c') : Disabled o c' s :=
  ⟨h.options, h.phase, fun hn => h.first fun hy => hn (hc.1 hy), fun hy => h.later (hc.2 hy)⟩

theorem Disabled.mutate {s : St} (h : Disabled o c s) (op : MutOp) : Disabled o c (s.mutate op) := by
  obtain ⟨q, hd, n, e⟩ := s.mutate_heap op
  refine ⟨?_, ?_, fun hn => ?_, fun hc => ?_⟩ <;> rw [e]
  · exact h.options
  · exact h.phase
  · exact h.first hn
  · exact h.later hc

theorem Disabled.forceCollect (hoff : o.isThresholdOff = true) {s s' : St} {fuel live : Nat} (h : Disabled o c s)
    (hf : s.forceCollect fuel = some (s', live)) : Disabled o True s' := by
  obtain ⟨hopt, hphase, ht⟩ := forceCollect_threshold h.phase hf
  refine ⟨hopt.trans h.options, hphase, fun hn => absurd trivial hn, fun _ => ?_⟩
  rw [ht, h.options, GcOptions.calculateThreshold_off hoff]

theorem disabled_run (hoff : o.isThresholdOff = true) {p : Prog} {tr : List (Prog × Op)}
    (h : Run Step ⟨.fresh o, []⟩ tr p) : Disabled o (∃ e ∈ tr, Completes e.1 e.2) p.st := by
  induction h with
  | nil => exact ⟨rfl, rfl, fun _ => rfl, fun ⟨_, he, _⟩ => by cases he⟩
  | @snoc p p' op tr _ hst hi =>
    rcases step_cases hst with ⟨hno, hm⟩ | ⟨hyes, fuel, live, hf⟩
    · have hi' : Disabled o (∃ e ∈ tr ++ [(p, op)], Completes e.1 e.2) p.st :=
        hi.congr (by simp [or_and_right, exists_or, hno])
      rcases hm with e | ⟨mop, e⟩ <;> rw [e]
      · exact hi'
      · exact hi'.mutate mop
    · refine (hi.forceCollect hoff hf).congr ?_
      simp only [true_iff]
      exact ⟨(p, op), by simp, hyes⟩

/-- `should_collect` with a disabled threshold. -/
theorem Disabled.shouldCollect_iff (hoff : o.isThresholdOff = true) {s : St} (h : Disabled o c s) :
    s.heap.shouldCollect = true ↔ o.limitBytes ≠ usizeMax ∧
      (o.limitBytes < s.heap.bytesAllocated ∨ s.heap.currentThreshold < s.heap.bytesAllocated) := by
  simp only [Heap.shouldCollect, h.options, GcOptions.isCompletelyOff, hoff, Bool.true_and, GcOptions.isLimitOff]
  by_cases hlim : o.limitBytes = usizeMax
  · simp [hlim]
  · simp [hlim]

/-- **When a disabled threshold is disabled.** With `threshold_percent` 0 or `usize::MAX`, in every state a
program can reach, `should_collect` is about the limit alone iff there is no limit, or a cycle has
completed, or the allocated bytes are not between `min_threshold_bytes` and the limit. -/
theorem disabled_threshold_iff (o : GcOptions) (hoff : o.isThresholdOff = true) (p : Prog) (tr : List (Prog × Op))
    (h : Run Step ⟨.fresh o, []⟩ tr p) (hbytes : p.st.heap.bytesAllocated ≤ usizeMax) :
    (p.st.heap.shouldCollect = true ↔ o.limitBytes ≠ usizeMax ∧ o.limitBytes < p.st.heap.bytesAllocated) ↔
    (o.limitBytes = usizeMax ∨ (∃ e ∈ tr, Completes e.1 e.2) ∨
      p.st.heap.bytesAllocated ≤ o.minThresholdBytes ∨ o.limitBytes < p.st.heap.bytesAllocated) := by
  have hi := disabled_run hoff h
  rw [hi.shouldCollect_iff hoff]
  by_cases hc : ∃ e ∈ tr, Completes e.1 e.2
  · -- the stored threshold is `usize::MAX`
    have hno : ¬ p.st.heap.currentThreshold < p.st.heap.bytesAllocated := by
      rw [hi.later hc]
      omega
    simp only [hno, or_false, hc, true_or, or_true]
  · rw [hi.first hc]
    simp only [hc, false_or]
    omega

/-- No threshold and a limit of 1 GiB, as `with_options` takes it: after one allocation of 2 MiB, and
before any collection, `should_collect` is true far below the limit. -/
theorem disabled_threshold_collects : ∃ o : GcOptions, o.InUsize ∧ o.isThresholdOff = true ∧
    ∃ (p : Prog) (tr : List (Prog × Op)), Run Step ⟨.fresh o, []⟩ tr p ∧ p.st.heap.shouldCollect = true ∧
      ¬ (o.limitBytes ≠ usizeMax ∧ o.limitBytes < p.st.heap.bytesAllocated) := by
  refine ⟨⟨100000000, 100, 5, 0, 30, 1048576, 1073741824⟩,
    ⟨by decide, by decide, by decide, by decide, by decide, by decide⟩, by decide, _, _,
    .snoc (.nil _) (.allocate (a := 1) (d := .leaf 2097152) rfl fun p hp => absurd hp List.not_mem_nil),
    by decide, by decide⟩

/-- The same heap after a `force_collect`. -/
theorem disabled_threshold_iff_collected : ∃ (o : GcOptions) (p : Prog) (tr : List (Prog × Op)),
    o.isThresholdOff = true ∧ Run Step ⟨.fresh o, []⟩ tr p ∧ p.st.heap.bytesAllocated = 2097152 ∧
    (p.st.heap.shouldCollect = true ↔ o.limitBytes ≠ usizeMax ∧ o.limitBytes < p.st.heap.bytesAllocated) := by
  let o : GcOptions := ⟨100000000, 100, 5, 0, 30, 1048576, 1073741824⟩
  let s₁ : St := (St.fresh o).allocate 1 (.leaf 2097152)
  have h₁ : Run Step ⟨.fresh o, []⟩ _ ⟨s₁, [1]⟩ :=
    .snoc (.nil _) (.allocate rfl fun p (hp : p ∈ (Data.leaf 2097152).ptrs) => absurd hp List.not_mem_nil)
  have hends : (s₁.forceCollect 3).map (fun r => r.1.heap.bytesAllocated) = some 2097152 := by decide
  obtain ⟨⟨s₂, live⟩, hf, hbytes⟩ := Option.map_eq_some_iff.1 hends
  change s₂.heap.bytesAllocated = 2097152 at hbytes
  have h₂ := h₁.snoc (Step.forceCollect hf)
  refine ⟨o, ⟨s₂, [1]⟩, _, by decide, h₂, hbytes, ?_⟩
  refine (disabled_threshold_iff o (by decide) ⟨s₂, [1]⟩ _ h₂ ?_).2 (.inr (.inl ?_))
  · show s₂.heap.bytesAllocated ≤ usizeMax
    rw [hbytes]
    decide
  · exact ⟨(⟨s₁, [1]⟩, .forceCollect), by simp, trivial⟩

end Disabled

end Abfall
