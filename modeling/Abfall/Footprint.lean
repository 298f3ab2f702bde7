import Abfall.Pacing
import Mathlib.Algebra.BigOperators.Finprod
/-!
# What pacing buys

A program that calls `collect` now and then pays for it in memory and in work, and `calculate_threshold`
trades one for the other. With `L` bytes reachable at most, the threshold never passes
`max min_threshold_bytes (L + L * threshold_percent / 100)`, so that the heap holds at most that much and
what was allocated since the last call (`footprint_bounded`). And a cycle that left `live` bytes is
followed by the next one only after `live * threshold_percent / 100` bytes more were allocated, so that
the bytes all cycles kept are paid for by the bytes allocated (`cycles_amortized`). The second is about
`collect`: a program may `force_collect` as often as it likes, and over `limit_bytes` every `collect`
is a cycle.

| here | there |
| --- | --- |
| `Completes`        | the calls of `collect` and `force_collect` that run a cycle (`heap.rs:341-355`) |
| `liveBytes`        | what `do_sweep` returns (`heap.rs:520`), by `forceCollect_live` |
| `Bounded`, `Paid`  | the invariants of `footprint_bounded` and `cycles_amortized` |
-/
namespace Abfall.StopTheWorld
open Chain Transition

/-! ## Reachable bytes -/

/-- The bytes of the objects that can be reached. -/
noncomputable def liveBytes (m : Mem) : Nat := ∑ᶠ a ∈ {a | m.Reachable a}, (m.data a).size

theorem sizeSum_eq_sum (m : Mem) (l : List Addr) : sizeSum m l = (l.map fun a => (m.data a).size).sum := by
  induction l with
  | nil => rfl
  | cons a l ih => rw [sizeSum_cons, ih, List.map_cons, List.sum_cons]

theorem liveBytes_eq {m : Mem} {l : List Addr} (hn : l.Nodup) (hl : ∀ a, a ∈ l ↔ m.Reachable a) :
    liveBytes m = sizeSum m l := by
  have hset : {a | m.Reachable a} = (l.toFinset : Set Addr) := by
    ext a
    simp [hl a]
  rw [liveBytes, hset, finsum_mem_coe_finset, List.sum_toFinset _ hn, sizeSum_eq_sum]

theorem forceCollect_data {s s' : St} {rs : List Addr} (hc : Clean ⟨s, rs⟩) {fuel live : Nat}
    (h : s.forceCollect fuel = some (s', live)) : s'.mem.data = s.mem.data := by
  obtain ⟨l, hl⟩ := hc.wf.listed
  obtain ⟨⟨m₁, hs, _, _, hsw, _⟩, _⟩ := forceCollect_spec hc.idle hl.seg (fun x hx => (hl.alive x).1 hx) hc.budget h
  exact hsw.data.trans hs.data

/-- `force_collect` leaves the reachable bytes allocated, and returns them. -/
theorem forceCollect_live {s s' : St} {rs : List Addr} (hc : Clean ⟨s, rs⟩) {fuel live : Nat}
    (h : s.forceCollect fuel = some (s', live)) : live = liveBytes s.mem ∧ s'.heap.bytesAllocated = live := by
  obtain ⟨hex, hc'⟩ := forceCollect_exact hc h
  obtain ⟨l, hl⟩ := hc'.wf.listed
  have hreach : ∀ a, a ∈ l ↔ s.mem.Reachable a := by
    intro a
    rw [hl.alive, hex.survivors]
    exact ⟨And.right, fun hr => ⟨hc.wf.alive_of_reachable hr, hr⟩⟩
  refine ⟨?_, hex.result.symm⟩
  rw [liveBytes_eq (seg_nodup hl.seg) hreach, hex.result, hl.bytes]
  exact sizeSum_congr fun a _ => by rw [forceCollect_data hc h]

/-! ## One operation -/

/-- The bytes an operation allocates. -/
def Op.bytes : Op → Nat
  | .allocate _ d => d.size
  | _ => 0

/-- All an operation does to the fields that pacing reads. -/
structure Quiet (s s' : St) (n : Nat) : Prop where
  options : s'.heap.options = s.heap.options
  threshold : s'.heap.currentThreshold = s.heap.currentThreshold
  bytes : s'.heap.bytesAllocated = s.heap.bytesAllocated + n

structure Cycle (s s' : St) : Prop where
  options : s'.heap.options = s.heap.options
  threshold : s'.heap.currentThreshold = s.heap.options.calculateThreshold s.heap.currentThreshold (liveBytes s.mem)
  bytes : s'.heap.bytesAllocated = liveBytes s.mem

theorem mutate_quiet (s : St) (op : MutOp) (n : Nat)
    (hn : (s.mutate op).heap.bytesAllocated = s.heap.bytesAllocated + n) : Quiet s (s.mutate op) n := by
  obtain ⟨q, hd, k, e⟩ := s.mutate_heap op
  exact ⟨by rw [e]; rfl, by rw [e]; rfl, hn⟩

/-- An operation completes a cycle, or is quiet; and a quiet `collect` was not due. -/
theorem step_paced {p p' : Prog} {op : Op} (hc : Clean p) (h : Step p op p') :
    (Completes p op ∧ Cycle p.st p'.st) ∨
    (¬ Completes p op ∧ Quiet p.st p'.st op.bytes ∧ (op = .collect → p.st.heap.shouldCollect = false)) := by
  have hnm : p.st.heap.phase ≠ .marking := by rw [hc.idle]; decide
  have hcycle : ∀ {s s' : St} {rs : List Addr} {fuel live : Nat}, Clean ⟨s, rs⟩ →
      s.forceCollect fuel = some (s', live) → Cycle s s' := by
    intro s s' rs fuel live hc hf
    obtain ⟨rfl, hb⟩ := forceCollect_live hc hf
    obtain ⟨ho, _, ht⟩ := forceCollect_threshold hc.idle hf
    exact ⟨ho, ht, hb⟩
  cases h with
  | @allocate s rs a d _ _ =>
    refine .inr ⟨id, mutate_quiet s (.allocate a d) d.size ?_, fun e => by cases e⟩
    show (s.assist.push a d).heap.bytesAllocated = _
    rw [St.assist_of_not_marking hnm]
    rfl
  | @clone s rs a _ => exact .inr ⟨id, mutate_quiet s (.clone a) 0 rfl, fun e => by cases e⟩
  | @dropRoot s rs a _ => exact .inr ⟨id, mutate_quiet s (.dropRoot a) 0 rfl, fun e => by cases e⟩
  | @root s rs a _ => exact .inr ⟨id, mutate_quiet s (.root a) 0 rfl, fun e => by cases e⟩
  | @set s rs o k vals _ _ _ =>
    refine .inr ⟨id, mutate_quiet s (.set o k vals) 0 ?_, fun e => by cases e⟩
    show (s.barrier [] vals).1.heap.bytesAllocated = _
    rw [St.barrier_of_not_marking hnm]
    rfl
  | @forceCollect s s' rs fuel live hf => exact .inl ⟨trivial, hcycle hc hf⟩
  | @collect s s' rs fuel hf =>
    unfold St.collect at hf
    split at hf
    · rename_i hs
      obtain ⟨⟨s'', live⟩, hfc, rfl⟩ := Option.map_eq_some_iff.1 hf
      exact .inl ⟨hs, hcycle hc hfc⟩
    · rename_i hs
      cases hf
      exact .inr ⟨hs, ⟨rfl, rfl, rfl⟩, fun _ => by simpa using hs⟩

/-- A heap with a threshold that asks for no collection is at most at it. -/
theorem le_threshold_of_not_shouldCollect {h : Heap} (hon : h.options.isThresholdOff = false)
    (hs : h.shouldCollect = false) : h.bytesAllocated ≤ h.currentThreshold := by
  simp only [Heap.shouldCollect, GcOptions.isCompletelyOff, hon, Bool.false_and, Bool.false_eq_true, ↓reduceIte] at hs
  split at hs
  · cases hs
  · simpa using hs

/-- Below the limit, or without one, a collection is due over the threshold only. -/
theorem lt_of_shouldCollect {h : Heap} (hlim : h.options.isLimitOff = true ∨ h.bytesAllocated ≤ h.options.limitBytes)
    (hs : h.shouldCollect = true) : h.currentThreshold < h.bytesAllocated := by
  unfold Heap.shouldCollect at hs
  split at hs
  · cases hs
  · split at hs
    · rename_i hover
      rw [Bool.and_eq_true, Bool.not_eq_true', decide_eq_true_eq] at hover
      rcases hlim with hoff | hle
      · rw [hoff] at hover
        cases hover.1
      · omega
    · simpa using hs

/-! ## Memory -/

/-- Bytes allocated since the last `collect` or `force_collect`, after one more operation. -/
def Op.since (n : Nat) : Op → Nat
  | .collect => 0
  | .forceCollect => 0
  | op => n + op.bytes

def sinceCollect (tr : List (Prog × Op)) : Nat := tr.foldl (fun n e => e.2.since n) 0

/-- The threshold for `L` bytes. -/
def target (o : GcOptions) (L : Nat) : Nat := max o.minThresholdBytes (o.newThreshold L)

/-- A cycle finds at most `L` bytes live. -/
def LiveAtMost (L : Nat) (p : Prog) (op : Op) : Prop := Completes p op → liveBytes p.st.mem ≤ L

structure Bounded (o : GcOptions) (L n : Nat) (s : St) : Prop where
  options : s.heap.options = o
  threshold : s.heap.currentThreshold ≤ target o L
  bytes : s.heap.bytesAllocated ≤ target o L + n

theorem sinceCollect_snoc (tr : List (Prog × Op)) (p : Prog) (op : Op) :
    sinceCollect (tr ++ [(p, op)]) = op.since (sinceCollect tr) := by
  rw [sinceCollect, List.foldl_append]
  rfl

/-- No more than what was live makes the threshold pass the target. -/
theorem calculateThreshold_le_target {o : GcOptions} (hon : o.isThresholdOff = false) {t live L : Nat}
    (ht : t ≤ target o L) (hl : live ≤ L) : o.calculateThreshold t live ≤ target o L := by
  have hmono := o.newThreshold_mono hl
  rcases GcOptions.calculateThreshold_cases hon t live with ⟨_, e⟩ | ⟨_, e⟩ <;> rw [e]
  · exact ht
  · unfold target
    omega

theorem live_le_target (o : GcOptions) {live L : Nat} (hl : live ≤ L) : live ≤ target o L := by
  have := o.le_newThreshold L
  unfold target
  omega

theorem step_bounded {o : GcOptions} (hon : o.isThresholdOff = false) {L n : Nat} {p p' : Prog} {op : Op}
    (hc : Clean p) (hi : Bounded o L n p.st) (hlive : LiveAtMost L p op) (h : Step p op p') :
    Bounded o L (op.since n) p'.st := by
  rcases step_paced hc h with ⟨hyes, hcy⟩ | ⟨hno, hq, hdue⟩
  · have hl := hlive hyes
    refine ⟨hcy.options.trans hi.options, ?_, ?_⟩
    · rw [hcy.threshold, hi.options]
      exact calculateThreshold_le_target hon hi.threshold hl
    · rw [hcy.bytes]
      exact Nat.le_add_right_of_le (live_le_target o hl)
  · have hth : p'.st.heap.currentThreshold ≤ target o L := by rw [hq.threshold]; exact hi.threshold
    refine ⟨hq.options.trans hi.options, hth, ?_⟩
    have hb := hi.bytes
    rw [hq.bytes]
    cases op with
    | collect =>
      have hle := le_threshold_of_not_shouldCollect (by rw [hi.options]; exact hon) (hdue rfl)
      have := hi.threshold
      simp only [Op.since, Op.bytes]
      omega
    | forceCollect => exact absurd trivial hno
    | _ => simp only [Op.since, Op.bytes]; omega

/-- **Memory is bounded.** Where at most `L` bytes are reachable whenever a cycle runs, the heap never holds more
than the threshold for `L` bytes and what was allocated since `collect` was last called. -/
theorem footprint_bounded (o : GcOptions) (hb : 1 ≤ o.incrementalWorkBudget) (hon : o.isThresholdOff = false) (L : Nat)
    (p : Prog) (tr : List (Prog × Op)) (h : Run Step ⟨.fresh o, []⟩ tr p)
    (hlive : ∀ e ∈ tr, LiveAtMost L e.1 e.2) :
    p.st.heap.bytesAllocated ≤ max o.minThresholdBytes (L + L * o.thresholdPercent / 100) + sinceCollect tr := by
  have hrun : Clean p ∧ Bounded o L (sinceCollect tr) p.st := by
    induction h with
    | nil => exact ⟨clean_fresh hb, rfl, Nat.le_max_left _ _, Nat.zero_le _⟩
    | @snoc q q' op tr _ hst ih =>
      obtain ⟨hc, hi⟩ := ih fun e he => hlive e (by simp [he])
      refine ⟨step_clean hc hst, ?_⟩
      rw [sinceCollect_snoc]
      exact step_bounded hon hc hi (hlive (q, op) (by simp)) hst
  exact hrun.2.bytes

theorem collect_of_due {s s' : St} {fuel live : Nat} (hdue : s.heap.shouldCollect = true)
    (h : s.forceCollect fuel = some (s', live)) : s.collect fuel = some s' := by
  rw [St.collect, if_pos hdue, h]
  rfl

/-- Two megabytes of garbage, collected: what is left of the bound is the object allocated afterwards. -/
theorem footprint_bounded_garbage : ∃ (p : Prog) (tr : List (Prog × Op)), Run Step ⟨.fresh .default, []⟩ tr p ∧
    (∀ e ∈ tr, LiveAtMost 0 e.1 e.2) ∧ (∃ e ∈ tr, Completes e.1 e.2) ∧ sinceCollect tr = 40 ∧
    p.st.heap.bytesAllocated ≤ 1048576 + 40 := by
  let s₁ : St := (St.fresh .default).allocate 1 (.leaf 2000000)
  have hleaf : ∀ (n : Nat) (s : St), ∀ p ∈ (Data.leaf n).ptrs, s.mem.Reachable p := fun n s p hp => by cases hp
  have h₀ : Run Step ⟨.fresh .default, []⟩ [] _ ∧ ∀ e ∈ ([] : List (Prog × Op)), LiveAtMost 0 e.1 e.2 :=
    ⟨.nil _, fun e he => by cases he⟩
  have h₁ : Run Step _ _ ⟨s₁, [1]⟩ ∧ _ := Run.snoc_ok h₀ (.allocate rfl (hleaf _ _)) (absurd · id)
  have h₂ : Run Step _ _ ⟨s₁.dropRoot 1, []⟩ ∧ _ := Run.snoc_ok h₁ (.dropRoot (by simp)) (absurd · id)
  have hc₂ : Clean ⟨s₁.dropRoot 1, []⟩ := h₂.1.keeps (fun _ _ _ hc hst => step_clean hc hst) (clean_fresh (by decide))
  have hends : ((s₁.dropRoot 1).forceCollect 3).map (fun r => (r.1.mem.alive 2, r.2)) = some (false, 0) := by decide
  obtain ⟨⟨s₃, live⟩, hf, e⟩ := Option.map_eq_some_iff.1 hends
  simp only [Prod.mk.injEq] at e
  have hlive : liveBytes (s₁.dropRoot 1).mem = 0 := (forceCollect_live hc₂ hf).1.symm.trans e.2
  have h₃ : Run Step _ _ ⟨s₃, []⟩ ∧ _ :=
    Run.snoc_ok h₂ (.collect (collect_of_due (by decide) hf)) fun _ => Nat.le_of_eq hlive
  have h₄ : Run Step _ _ ⟨s₃.allocate 2 (.leaf 40), [2]⟩ ∧ _ := Run.snoc_ok h₃ (.allocate e.1 (hleaf _ _)) (absurd · id)
  refine ⟨_, _, h₄.1, h₄.2, ⟨(⟨s₁.dropRoot 1, []⟩, .collect), by simp, ?_⟩, rfl, ?_⟩
  · show (s₁.dropRoot 1).heap.shouldCollect = true
    decide
  · exact footprint_bounded .default (by decide) (by decide) 0 _ _ h₄.1 h₄.2

/-! ## Work -/

/-- The bytes a run allocates. -/
def allocated (tr : List (Prog × Op)) : Nat := (tr.map fun e => e.2.bytes).sum

open Classical in
/-- The live bytes that the cycles of a run found, in order. -/
noncomputable def lives (tr : List (Prog × Op)) : List Nat :=
  (tr.filter fun e => Completes e.1 e.2).map fun e => liveBytes e.1.st.mem

/-- What the cycles but the last have kept, at `threshold_percent`, is paid for: by what was allocated, less what
was allocated since the last one. -/
structure Paid (o : GcOptions) (ls : List Nat) (n : Nat) (s : St) : Prop where
  options : s.heap.options = o
  first : ls = [] → s.heap.currentThreshold = o.minThresholdBytes ∧ s.heap.bytesAllocated = n
  later : ∀ last, ls.getLast? = some last → last ≤ s.heap.bytesAllocated ∧
    o.newThreshold last ≤ s.heap.currentThreshold ∧
    o.thresholdPercent * ls.dropLast.sum + 100 * (o.minThresholdBytes + 1) + 100 * s.heap.bytesAllocated ≤
      100 * n + 100 * last

theorem le_calculateThreshold_new {o : GcOptions} (hon : o.isThresholdOff = false) (t live : Nat) :
    o.newThreshold live ≤ o.calculateThreshold t live := by
  rcases GcOptions.calculateThreshold_cases hon t live with ⟨hk, e⟩ | ⟨_, e⟩ <;> rw [e]
  · exact Nat.le_of_lt hk.1
  · exact Nat.le_max_left _ _

theorem Paid.quiet {o : GcOptions} {ls : List Nat} {n k : Nat} {s s' : St} (hi : Paid o ls n s) (hq : Quiet s s' k) :
    Paid o ls (n + k) s' := by
  refine ⟨hq.options.trans hi.options, fun hls => ?_, fun last hlast => ?_⟩
  · obtain ⟨ht, hb⟩ := hi.first hls
    exact ⟨hq.threshold.trans ht, by rw [hq.bytes, hb]⟩
  · obtain ⟨hle, ht, hb⟩ := hi.later last hlast
    rw [hq.bytes, hq.threshold]
    exact ⟨by omega, ht, by omega⟩

/-- A cycle pays for the one before it. -/
theorem Paid.cycle {o : GcOptions} (hon : o.isThresholdOff = false) {ls : List Nat} {n : Nat} {s s' : St}
    (hi : Paid o ls n s) (hdue : s.heap.currentThreshold < s.heap.bytesAllocated) (hcy : Cycle s s') :
    Paid o (ls ++ [liveBytes s.mem]) n s' := by
  refine ⟨hcy.options.trans hi.options, fun hls => by simp at hls, fun last hlast => ?_⟩
  obtain rfl : liveBytes s.mem = last := by simpa using hlast
  have hnew := le_calculateThreshold_new hon s.heap.currentThreshold (liveBytes s.mem)
  refine ⟨by rw [hcy.bytes], by rw [hcy.threshold, hi.options]; exact hnew, ?_⟩
  rw [List.dropLast_concat, hcy.bytes]
  rcases List.eq_nil_or_concat ls with rfl | ⟨ls, prev, rfl⟩
  · obtain ⟨ht, hb⟩ := hi.first rfl
    simp only [List.sum_nil]
    omega
  · obtain ⟨_, ht, hb⟩ := hi.later prev (by simp)
    rw [List.concat_eq_append, List.dropLast_concat] at hb
    rw [List.concat_eq_append, List.sum_append, List.sum_singleton, Nat.mul_add]
    -- the bytes allocated between the two cycles
    have hgap : prev + prev * o.thresholdPercent / 100 < s.heap.bytesAllocated := Nat.lt_of_le_of_lt ht hdue
    have hcomm : o.thresholdPercent * prev = prev * o.thresholdPercent := Nat.mul_comm _ _
    omega

theorem allocated_snoc (tr : List (Prog × Op)) (p : Prog) (op : Op) :
    allocated (tr ++ [(p, op)]) = allocated tr + op.bytes := by
  simp [allocated]

theorem lives_snoc_of {tr : List (Prog × Op)} {p : Prog} {op : Op} (h : Completes p op) :
    lives (tr ++ [(p, op)]) = lives tr ++ [liveBytes p.st.mem] := by
  simp [lives, h]

theorem lives_snoc_of_not {tr : List (Prog × Op)} {p : Prog} {op : Op} (h : ¬ Completes p op) :
    lives (tr ++ [(p, op)]) = lives tr := by
  simp [lives, h]

theorem bytes_of_completes {p : Prog} {op : Op} (h : Completes p op) : op.bytes = 0 := by
  cases op with
  | collect => rfl
  | forceCollect => rfl
  | _ => exact absurd h id

/-- The program leaves it to `collect` whether a cycle is due, and has not passed the limit. -/
def LeftToPacing (o : GcOptions) (p : Prog) (op : Op) : Prop :=
  op ≠ .forceCollect ∧ (o.isLimitOff = true ∨ p.st.heap.bytesAllocated ≤ o.limitBytes)

/-- Such a cycle was due over the threshold. -/
theorem LeftToPacing.due {p : Prog} {op : Op} (hl : LeftToPacing p.st.heap.options p op) (h : Completes p op) :
    p.st.heap.currentThreshold < p.st.heap.bytesAllocated := by
  refine lt_of_shouldCollect hl.2 ?_
  cases op with
  | collect => exact h
  | forceCollect => exact absurd rfl hl.1
  | _ => exact absurd h id

/-- **Cycles are paid for.** In a run that leaves it to `collect` when a cycle is due, and does not pass the
limit, the bytes kept by the cycles before the last one are at most `100 / threshold_percent` times the bytes
allocated; the first `min_threshold_bytes` pay for nothing. -/
theorem cycles_amortized (o : GcOptions) (hb : 1 ≤ o.incrementalWorkBudget) (hon : o.isThresholdOff = false) (p : Prog)
    (tr : List (Prog × Op)) (h : Run Step ⟨.fresh o, []⟩ tr p) (hleft : ∀ e ∈ tr, LeftToPacing o e.1 e.2)
    (hsome : lives tr ≠ []) :
    o.thresholdPercent * (lives tr).dropLast.sum + 100 * (o.minThresholdBytes + 1) ≤ 100 * allocated tr := by
  have hrun : Clean p ∧ Paid o (lives tr) (allocated tr) p.st := by
    clear hsome
    induction h with
    | nil => exact ⟨clean_fresh hb, rfl, fun _ => ⟨rfl, rfl⟩, fun last hlast => by simp [lives] at hlast⟩
    | @snoc q q' op tr _ hst ih =>
      obtain ⟨hc, hi⟩ := ih fun e he => hleft e (by simp [he])
      refine ⟨step_clean hc hst, ?_⟩
      rw [allocated_snoc]
      rcases step_paced hc hst with ⟨hyes, hcy⟩ | ⟨hno, hq, _⟩
      · have hq : LeftToPacing o q op := hleft (q, op) (by simp)
        rw [← hi.options] at hq
        rw [lives_snoc_of hyes, bytes_of_completes hyes, Nat.add_zero]
        exact hi.cycle hon (hq.due hyes) hcy
      · rw [lives_snoc_of_not hno]
        exact hi.quiet hq
  obtain ⟨last, hlast⟩ : ∃ last, (lives tr).getLast? = some last := ⟨_, List.getLast?_eq_some_getLast hsome⟩
  obtain ⟨hle, _, hpaid⟩ := hrun.2.later last hlast
  omega

/-- Two cycles with the default percentage of 30: the 2 MB that the first one kept, and the first megabyte, are
within the 2.7 MB allocated. -/
theorem cycles_amortized_two : ∃ (p : Prog) (tr : List (Prog × Op)), Run Step ⟨.fresh .default, []⟩ tr p ∧
    lives tr = [2000000, 2700000] ∧ 30 * 2000000 + 100 * 1048577 ≤ 100 * allocated tr := by
  let s₁ : St := (St.fresh .default).allocate 1 (.leaf 2000000)
  have hleaf : ∀ (n : Nat) (s : St), ∀ p ∈ (Data.leaf n).ptrs, s.mem.Reachable p := fun n s p hp => by cases hp
  have hstep : ∀ p op p', Clean p → Step p op p' → Clean p' := fun _ _ _ hc hst => step_clean hc hst
  have h₁ : Run Step ⟨.fresh .default, []⟩ _ ⟨s₁, [1]⟩ := .snoc (.nil _) (.allocate rfl (hleaf _ _))
  have hends : ((s₁.forceCollect 3).bind fun r => ((r.1.allocate 2 (.leaf 700000)).forceCollect 4).map fun r' =>
      (r.1.mem.alive 2, (r.1.allocate 2 (.leaf 700000)).heap.shouldCollect, r.2, r'.2)) =
      some (false, true, 2000000, 2700000) := by decide
  obtain ⟨⟨s₂, l₁⟩, hf₁, hends⟩ := Option.bind_eq_some_iff.1 hends
  obtain ⟨⟨s₄, l₂⟩, hf₂, e⟩ := Option.map_eq_some_iff.1 hends
  simp only [Prod.mk.injEq] at e
  have h₂ : Run Step ⟨.fresh .default, []⟩ _ ⟨s₂, [1]⟩ := h₁.snoc (.collect (collect_of_due (by decide) hf₁))
  have h₃ : Run Step ⟨.fresh .default, []⟩ _ ⟨s₂.allocate 2 (.leaf 700000), [2, 1]⟩ :=
    h₂.snoc (.allocate e.1 (hleaf _ _))
  let s₃ : St := s₂.allocate 2 (.leaf 700000)
  let tr : List (Prog × Op) := [(⟨.fresh .default, []⟩, .allocate 1 (.leaf 2000000)), (⟨s₁, [1]⟩, .collect),
    (⟨s₂, [1]⟩, .allocate 2 (.leaf 700000)), (⟨s₃, [2, 1]⟩, .collect)]
  have h₄ : Run Step ⟨.fresh .default, []⟩ tr ⟨s₄, [2, 1]⟩ := h₃.snoc (.collect (collect_of_due e.2.1 hf₂))
  have hlive₁ := (forceCollect_live (h₁.keeps hstep (clean_fresh (by decide))) hf₁).1
  have hlive₃ := (forceCollect_live (h₃.keeps hstep (clean_fresh (by decide))) hf₂).1
  have hyes₁ : Completes ⟨s₁, [1]⟩ .collect := (by decide : s₁.heap.shouldCollect = true)
  have hyes₃ : Completes ⟨s₃, [2, 1]⟩ .collect := e.2.1
  have hno : ∀ (p : Prog) (a : Addr) (d : Data), ¬ Completes p (.allocate a d) := fun _ _ _ => id
  have hlives : lives tr = [2000000, 2700000] := by
    show lives ([] ++ [_] ++ [_] ++ [_] ++ [_]) = _
    rw [lives_snoc_of hyes₃, lives_snoc_of_not (hno _ _ _), lives_snoc_of hyes₁, lives_snoc_of_not (hno _ _ _),
      ← hlive₁, ← hlive₃, e.2.2.1, e.2.2.2]
    rfl
  refine ⟨_, tr, h₄, hlives, ?_⟩
  have hleft : ∀ e ∈ tr, LeftToPacing .default e.1 e.2 := by
    intro e he
    refine ⟨?_, .inl (by decide)⟩
    simp only [tr, List.mem_cons, List.not_mem_nil, or_false] at he
    rcases he with rfl | rfl | rfl | rfl <;> exact fun h => by cases h
  have h := cycles_amortized .default (by decide) (by decide) _ tr h₄ hleft (by rw [hlives]; simp)
  rw [hlives] at h
  exact h

/-! ## A second cycle -/

/-- A sweep that drops nothing writes no `next`. -/
theorem sweepLoop_next : ∀ (l : List Addr) {fuel freed : Nat} {s : St} {p : Option Addr} {prev : PrevNext} {r : St × Nat},
    Seg s.mem.next p l none → dead s.mem l = [] → sweepLoop fuel s p prev freed = some r → r.1.mem.next = s.mem.next
  | [], fuel, freed, s, p, prev, r, hp, _, h => by
    obtain rfl : p = none := hp
    cases fuel <;> cases h <;> rfl
  | a :: l, 0, freed, s, p, prev, r, hp, _, h => by
    obtain rfl : p = some a := hp.1
    cases h
  | a :: l, fuel + 1, freed, s, p, prev, r, hp, hdead, h => by
    have hnot : a ∉ l := (List.nodup_cons.1 (seg_nodup hp)).1
    obtain ⟨rfl, hp⟩ := hp
    have hall : ∀ x ∈ a :: l, s.mem.isWhite x = false := by
      intro x hx
      have := List.filter_eq_nil_iff.1 hdead x hx
      simpa using this
    have ha : (s.mem.touch a).isWhite a = false := hall a (by simp)
    simp only [sweepLoop, ha, Bool.false_eq_true, ↓reduceIte] at h
    refine sweepLoop_next l (s := ⟨(s.mem.touch a).setColor a .white, s.heap⟩) hp ?_ h
    refine List.filter_eq_nil_iff.2 fun x hx => ?_
    have hxa : x ≠ a := fun e => hnot (e ▸ hx)
    have hcol : ((s.mem.touch a).setColor a .white).isWhite x = s.mem.isWhite x := by
      simp only [Mem.isWhite, Mem.setColor, Mem.touch, Function.update_of_ne hxa]
      rfl
    rw [hcol, hall x (by simp [hx])]
    simp

theorem sweepAndFinish_next {s s' : St} {l : List Addr} {fuel live : Nat} (hl : Seg s.mem.next s.heap.head l none)
    (hdead : dead s.mem l = []) (h : s.sweepAndFinish fuel = some (s', live)) : s'.mem.next = s.mem.next := by
  obtain ⟨r, hr, e⟩ := Option.map_eq_some_iff.1 h
  obtain ⟨q, hq, rfl⟩ := Option.map_eq_some_iff.1 hr
  cases e
  exact sweepLoop_next l (s := ⟨s.mem, s.heap.startSweeping⟩) hl hdead hq

theorem mem_ext {m m' : Mem} (h : m.SameObjects m') (hc : m'.color = m.color) (hf : m'.fault = m.fault) : m' = m := by
  obtain ⟨h₁, h₂, h₃, h₄, h₅⟩ := h
  cases m
  cases m'
  simp_all

/-- A cycle on a heap without garbage, whose threshold is the one for its bytes, changes nothing. -/
theorem forceCollect_fixed {s s' : St} {rs : List Addr} {fuel live : Nat} (hc : Clean ⟨s, rs⟩)
    (hall : ∀ a, s.mem.alive a = true → s.mem.Reachable a)
    (ht : s.heap.options.calculateThreshold s.heap.currentThreshold s.heap.bytesAllocated = s.heap.currentThreshold)
    (h : s.forceCollect fuel = some (s', live)) : s' = s ∧ live = s.heap.bytesAllocated := by
  obtain ⟨l, hl⟩ := hc.wf.listed
  obtain ⟨_, s₁, s₂, h₁, h₂, hsweep⟩ := (forceCollect_some h).resolve_left fun hno => hno.1 hc.idle
  obtain ⟨hs, hm, hh⟩ := marked_of_phase (s := ⟨s.mem, s.heap.withPhase .marking⟩) hl.seg h₁ h₂ hc.budget
  have hdead : dead s₂.mem l = [] := by
    rw [List.eq_nil_iff_forall_not_mem]
    intro x hx
    obtain ⟨hax, hrx⟩ := (mem_dead_iff hc hl hs hm x).1 hx
    exact hrx (hall x hax)
  have hkept : kept s₂.mem l = l := by
    rw [kept, List.filter_eq_self]
    intro x hx
    have := List.filter_eq_nil_iff.1 hdead x hx
    simpa using this
  have hl₂ : Seg s₂.mem.next s₂.heap.head l none := by rw [hs.next, hh]; exact hl.seg
  have hal₂ : ∀ x ∈ l, s₂.mem.alive x = true := fun x hx => by rw [hs.alive]; exact (hl.alive x).1 hx
  obtain ⟨hsw, hlive, hheap⟩ := sweepAndFinish_some hl₂ hal₂ hsweep
  have hnext := sweepAndFinish_next hl₂ hdead hsweep
  have hlist := hsw.list
  have hclean' := (forceCollect_exact hc h).2
  obtain rfl : live = s.heap.bytesAllocated := by rw [hlive, hdead, hh]; rfl
  have hmem : s'.mem = s.mem := by
    refine mem_ext ⟨?_, ?_, ?_, ?_, ?_⟩ ?_ ?_
    · funext x
      rw [hsw.alive x, hdead, hs.alive]
      simp
    · exact hsw.rootCount.trans hs.rootCount
    · exact hnext.trans hs.next
    · exact hsw.data.trans hs.data
    · rw [hsw.dropped, hdead, hs.dropped]
      rfl
    · funext x
      exact (hclean'.white x).trans (hc.white x).symm
    · exact hclean'.wf.sane.noFault.trans hc.wf.sane.noFault.symm
  have hhead : s'.heap.head = s.heap.head := by
    rw [List.nil_append, hkept] at hlist
    exact (seg_start hlist).trans (seg_start hl.seg).symm
  have hheap' : s'.heap = s.heap := by
    have hidle : s.heap.phase = .idle := hc.idle
    have hqueue : s.heap.grayQueue = [] := hc.queue
    rw [hheap, hh, hhead]
    simp only [Heap.afterSweep, Heap.withQueue, Heap.withPhase, ht, ← hidle, ← hqueue]
  refine ⟨?_, rfl⟩
  cases s
  cases s'
  cases hmem
  cases hheap'
  rfl

/-- What a cycle leaves is reachable. -/
theorem forceCollect_all_reachable {s s' : St} {rs : List Addr} {fuel live : Nat} (hc : Clean ⟨s, rs⟩)
    (h : s.forceCollect fuel = some (s', live)) : ∀ a, s'.mem.alive a = true → s'.mem.Reachable a := by
  obtain ⟨l, hl⟩ := hc.wf.listed
  obtain ⟨⟨m₁, hs, _, _, hsw, _⟩, _⟩ := forceCollect_spec hc.idle hl.seg (fun x hx => (hl.alive x).1 hx) hc.budget h
  have hexact := (forceCollect_exact hc h).1.survivors
  intro a ha
  refine ((hexact a).1 ha).2.of_closed (S := s'.mem.Reachable) (fun r hr => Mem.Rooted.reachable ⟨?_, ?_⟩) fun x y hx he => hx.next ?_
  · exact (hexact r).2 ⟨hr.1, hr.reachable⟩
  · rw [hsw.rootCount, hs.rootCount]
    exact hr.2
  · show y ∈ (s'.mem.data x).ptrs
    rw [hsw.data, hs.data]
    exact he

/-- **A second `force_collect` does nothing.** Right after a cycle, in any state a program can reach, another one
ends, with the same number of bytes and without a change to memory or heap, the threshold included. -/
theorem forceCollect_idempotent (o : GcOptions) (hb : 1 ≤ o.incrementalWorkBudget) (p : Prog)
    (hp : Reach Step (· = ⟨.fresh o, []⟩) p) (fuel live : Nat) (s : St) (h : p.st.forceCollect fuel = some (s, live)) :
    (∃ fuel, s.forceCollect fuel = some (s, live)) ∧
    ∀ fuel s' live', s.forceCollect fuel = some (s', live') → s' = s ∧ live' = live := by
  have hc : Clean p := by
    refine hp.inv (I := Clean) (fun q hq => ?_) fun _ _ _ h => step_clean h
    subst hq
    exact clean_fresh hb
  obtain ⟨hex, hc'⟩ := forceCollect_exact hc h
  obtain ⟨hopt, _, hth⟩ := forceCollect_threshold hc.idle h
  have hfix : ∀ fuel s' live', s.forceCollect fuel = some (s', live') → s' = s ∧ live' = live := by
    intro fuel s' live' h'
    obtain ⟨hs, hl⟩ := forceCollect_fixed hc' (forceCollect_all_reachable hc h)
      (by rw [hopt, hth, ← hex.result]; exact GcOptions.calculateThreshold_again _ _ _) h'
    exact ⟨hs, hl.trans hex.result.symm⟩
  obtain ⟨fuel', s', live', h'⟩ := forceCollect_ends hc'
  obtain ⟨rfl, rfl⟩ := hfix fuel' s' live' h'
  exact ⟨⟨fuel', h'⟩, hfix⟩

/-- One object kept, one freed by the first cycle. -/
theorem forceCollect_idempotent_two : ∃ (p : Prog) (fuel : Nat) (s : St), Reach Step (· = ⟨.fresh .default, []⟩) p ∧
    p.st.forceCollect fuel = some (s, 8) ∧ p.st.mem.alive 2 = true ∧ s.mem.alive 2 = false ∧
    ∃ fuel, s.forceCollect fuel = some (s, 8) := by
  let s₂ : St := ((St.fresh .default).allocate 1 (.leaf 8)).allocate 2 (.leaf 40)
  have hleaf : ∀ (n : Nat) (s : St), ∀ p ∈ (Data.leaf n).ptrs, s.mem.Reachable p := fun n s p hp => by cases hp
  have h₁ : Reach Step (· = ⟨.fresh .default, []⟩) ⟨(St.fresh .default).allocate 1 (.leaf 8), [1]⟩ :=
    .step (.init rfl) (.allocate rfl (hleaf _ _))
  have h₂ : Reach Step (· = ⟨.fresh .default, []⟩) ⟨s₂, [2, 1]⟩ := h₁.step (.allocate rfl (hleaf _ _))
  have h₃ : Reach Step (· = ⟨.fresh .default, []⟩) ⟨s₂.dropRoot 2, [1]⟩ := h₂.step (.dropRoot (by simp))
  have hends : ((s₂.dropRoot 2).forceCollect 4).map (fun r => (r.1.mem.alive 2, r.2)) = some (false, 8) := by decide
  obtain ⟨⟨s, live⟩, hf, e⟩ := Option.map_eq_some_iff.1 hends
  simp only [Prod.mk.injEq] at e
  obtain ⟨hfree, rfl⟩ := e
  exact ⟨_, 4, s, h₃, hf, by decide, hfree, (forceCollect_idempotent .default (by decide) _ h₃ 4 8 s hf).1⟩

end Abfall.StopTheWorld
