import Abfall.Tricolor
/-!
# The marking budget (heap.rs:474-501)

`do_mark_incremental` returns true, and the loop of `do_mark_work_full` ends, when the last call of
`do_mark_with_tracer` did no work: "If we did no work, marking is complete". With a budget of at least 1
that is so (`Quiet.complete_of_pos`). With `incremental_work_budget` 0, which `GcOptions` does not exclude, a
call does no work whatever is queued: the roots stay Gray, nothing behind them is traced, and the sweep
frees it. `marking_complete_iff` says that this is the only way to go wrong.
-/
namespace Abfall
open Chain

@[simps] def GcOptions.withWorkBudget (o : GcOptions) (b : Nat) : GcOptions := { o with incrementalWorkBudget := b }

/-- The same heap with another `incremental_work_budget`. -/
@[simps] def Heap.withWorkBudget (h : Heap) (b : Nat) : Heap := { h with options := h.options.withWorkBudget b }

def St.withWorkBudget (s : St) (b : Nat) : St := ⟨s.mem, s.heap.withWorkBudget b⟩

/-- A heap before a cycle, with no other thread active: White, and with nothing queued. -/
structure Quiet (s : St) : Prop where
  wf : WF s
  idle : s.heap.phase = .idle
  busy : s.heap.nBusyMarking = 0
  white : ∀ a, s.mem.alive a = true → s.mem.color a = .white
  queue : s.heap.grayQueue = []

/-- No work is left: the shared queue is empty and no object is Gray. -/
def NothingLeft (s : St) : Prop := s.heap.grayQueue = [] ∧ ∀ a, s.mem.alive a = true → s.mem.color a ≠ .gray

/-- Marking calls with these budgets, one after the other. -/
def markCalls (bs : List Nat) (s : St) : St := bs.foldl (fun s b => (s.doMarkIncremental b).1) s

/-- Marking is declared complete only when no work is left: in the loop of the background thread, after any
calls, and in `do_mark_work_full`. -/
structure CompleteWhenDone (s : St) : Prop where
  incremental : ∀ fuel s₁ bs, St.doMarkRoots fuel ⟨s.mem, s.heap.withPhase .marking⟩ [] = some s₁ →
    ((markCalls bs s₁).doMarkIncremental s.heap.options.incrementalWorkBudget).2 = true →
    NothingLeft ((markCalls bs s₁).doMarkIncremental s.heap.options.incrementalWorkBudget).1
  full : ∀ fuel s₁ s₂, St.doMarkRoots fuel ⟨s.mem, s.heap.withPhase .marking⟩ [] = some s₁ →
    doMarkWorkFull fuel s₁ [] = some s₂ → NothingLeft s₂

theorem Quiet.withWorkBudget {s : St} (h : Quiet s) (b : Nat) : Quiet (s.withWorkBudget b) :=
  ⟨h.wf.of_heap rfl rfl rfl, h.idle, h.busy, h.white, h.queue⟩

/-! ## A positive budget -/

theorem markCalls_rule {J : Mem → Set Addr → Prop} (hJ : ProcessKeeps J) (bs : List Nat) {s : St}
    (h : J s.mem (waiting [] s.heap.grayQueue)) : J (markCalls bs s).mem (waiting [] (markCalls bs s).heap.grayQueue) := by
  induction bs generalizing s with
  | nil => exact h
  | cons b bs ih => exact ih (s.doMarkWithTracer_rule hJ b h)

theorem Tri.nothingLeft {s : St} (h : Tri s.mem (waiting [] s.heap.grayQueue)) (hq : s.heap.grayQueue = []) :
    NothingLeft s := by
  refine ⟨hq, fun a ha hg => ?_⟩
  have hw := h.gray a ha hg
  rw [hq] at hw
  rcases hw with hw | hw <;> cases hw

/-- What the root scan leaves alone. -/
theorem Quiet.scan {s s₁ : St} {l : List Addr} {fuel : Nat} (h : Quiet s) (hl : Listed s l)
    (h₁ : St.doMarkRoots fuel ⟨s.mem, s.heap.withPhase .marking⟩ [] = some s₁) :
    s.mem.SameObjects s₁.mem ∧ Listed s₁ l ∧ s₁.heap.nBusyMarking = 0 ∧ s₁.heap.options = s.heap.options := by
  obtain rfl := St.doMarkRoots_some (s := ⟨s.mem, s.heap.withPhase .marking⟩) hl.seg h₁
  have hs := scanRoots_same l s.mem []
  exact ⟨hs, hl.of_same hs rfl rfl, h.busy, rfl⟩

/-- After the root scan every Gray object waits. -/
theorem Quiet.scanned {s s₁ : St} {fuel : Nat} (h : Quiet s)
    (h₁ : St.doMarkRoots fuel ⟨s.mem, s.heap.withPhase .marking⟩ [] = some s₁) :
    Tri s₁.mem (waiting [] s₁.heap.grayQueue) := by
  obtain ⟨l, hl⟩ := h.wf.listed
  obtain rfl := St.doMarkRoots_some (s := ⟨s.mem, s.heap.withPhase .marking⟩) hl.seg h₁
  have h0 : Tri s.mem (waiting [] s.heap.grayQueue) := by
    refine ⟨fun a b ha hb => ?_, fun a ha hg => ?_⟩
    · rw [h.white a ha] at hb
      cases hb
    · rw [h.white a ha] at hg
      cases hg
  have hscan := tri_scanRoots l s.mem [] h0
  simpa [waiting] using hscan

theorem Quiet.complete_of_pos {s : St} (h : Quiet s) (hb : 0 < s.heap.options.incrementalWorkBudget) :
    CompleteWhenDone s := by
  refine ⟨fun fuel s₁ bs h₁ hdone => ?_, fun fuel s₁ s₂ h₁ h₂ => ?_⟩
  · have htri := markCalls_rule tri_process bs (h.scanned h₁)
    obtain ⟨_, hq, he⟩ := St.doMarkWithTracer_zero (s := markCalls bs s₁) (t := []) hb (by simpa [St.doMarkIncremental] using hdone)
    show NothingLeft ((markCalls bs s₁).doMarkWithTracer [] s.heap.options.incrementalWorkBudget).1
    rw [he]
    exact htri.nothingLeft hq
  · obtain ⟨l, hl⟩ := h.wf.listed
    obtain ⟨_, _, _, hopt⟩ := h.scan hl h₁
    obtain ⟨htri, hh⟩ := doMarkWorkFull_rule tri_process fuel s₁ s₂ [] h₂ (by rw [hopt]; exact hb) (h.scanned h₁)
    have hq : s₂.heap.grayQueue = [] := by rw [hh]; rfl
    refine Tri.nothingLeft ?_ hq
    rw [hq]
    exact htri.mono (Set.empty_subset _)

/-! ## Nothing to do -/

/-- A call with no budget, or with nothing queued, does nothing. -/
theorem St.doMarkWithTracer_idle {s : St} {b : Nat} (h : b = 0 ∨ s.heap.grayQueue = []) :
    s.doMarkWithTracer [] b = (s, [], 0) := by
  have hloop : doMarkLoop b s [] 0 = (s, [], 0) := by
    cases b with
    | zero => rfl
    | succ b =>
      have hq := h.resolve_left (by omega)
      have hnext : s.nextWork [] = none := by simp [nextWork, stealWork, stealFrom, hq]
      simp [doMarkLoop, hnext]
  simp [doMarkWithTracer, hloop]

/-- So the loop of `do_mark_work_full` ends at once. -/
theorem doMarkWorkFull_idle {s : St} {fuel : Nat} (hbusy : s.heap.nBusyMarking = 0)
    (h : s.heap.options.incrementalWorkBudget = 0 ∨ s.heap.grayQueue = []) :
    doMarkWorkFull (fuel + 1) s [] = some s := by
  simp [doMarkWorkFull, St.doMarkWithTracer_idle h, hbusy]

theorem markCalls_idle (bs : List Nat) {s : St} (h : s.heap.grayQueue = []) : markCalls bs s = s := by
  induction bs with
  | nil => rfl
  | cons b bs ih =>
    have hcall : (s.doMarkIncremental b).1 = s := by
      simp [St.doMarkIncremental, St.doMarkWithTracer_idle (.inr h)]
    show markCalls bs (s.doMarkIncremental b).1 = s
    rw [hcall]
    exact ih

/-- Without a root the scan finds nothing. -/
theorem Quiet.scan_unrooted {s s₁ : St} {fuel : Nat} (h : Quiet s) (hr : ∀ a, ¬ s.mem.Rooted a)
    (h₁ : St.doMarkRoots fuel ⟨s.mem, s.heap.withPhase .marking⟩ [] = some s₁) :
    s₁.heap.grayQueue = [] ∧ s₁.mem.color = s.mem.color := by
  obtain ⟨l, hl⟩ := h.wf.listed
  obtain rfl := St.doMarkRoots_some (s := ⟨s.mem, s.heap.withPhase .marking⟩) hl.seg h₁
  have hscan : ∀ x, _ := fun x => scanRoots_unrooted (x := x) l s.mem [] fun hx => by
    by_contra h0
    exact hr x ⟨(hl.alive x).1 hx, Nat.pos_of_ne_zero h0⟩
  have ht : (scanRoots l s.mem []).2 = [] := List.eq_nil_iff_forall_not_mem.2 fun x hx => by cases (hscan x).2 hx
  exact ⟨by simp [ht, h.queue], funext fun x => (hscan x).1⟩

theorem Quiet.complete_of_unrooted {s : St} (h : Quiet s) (hr : ∀ a, ¬ s.mem.Rooted a) : CompleteWhenDone s := by
  refine ⟨fun fuel s₁ bs h₁ _ => ?_, fun fuel s₁ s₂ h₁ h₂ => ?_⟩
  · obtain ⟨hq, _⟩ := h.scan_unrooted hr h₁
    show NothingLeft ((markCalls bs s₁).doMarkWithTracer [] s.heap.options.incrementalWorkBudget).1
    rw [markCalls_idle bs hq, St.doMarkWithTracer_idle (.inr hq)]
    exact (h.scanned h₁).nothingLeft hq
  · obtain ⟨hq, _⟩ := h.scan_unrooted hr h₁
    have hleft := (h.scanned h₁).nothingLeft hq
    obtain ⟨l, hl⟩ := h.wf.listed
    obtain ⟨_, _, hbusy, _⟩ := h.scan hl h₁
    cases fuel with
    | zero => cases h₂
    | succ fuel =>
      rw [doMarkWorkFull_idle hbusy (.inr hq)] at h₂
      cases h₂
      exact hleft

/-! ## No budget -/

/-- The scan queues every White root. -/
theorem mem_scanRoots (l : List Addr) (m : Mem) (t : Tracer) {x : Addr}
    (h : x ∈ t ∨ (x ∈ l ∧ 0 < m.rootCount x ∧ m.color x = .white)) : x ∈ (scanRoots l m t).2 := by
  induction l generalizing m t with
  | nil => exact h.resolve_right (by simp)
  | cons a l ih =>
    simp only [scanRoots]
    apply ih
    rw [(m.scanRoot_same t a).rootCount]
    rcases m.scanRoot_cases t a with ⟨_, _, e⟩ | ⟨hn, e⟩ <;> rw [e]
    · by_cases hxa : x = a
      · exact .inl (by simp [hxa])
      · refine h.imp (List.mem_cons_of_mem a) ?_
        rintro ⟨hx, hr, hw⟩
        exact ⟨(List.mem_cons.1 hx).resolve_left hxa, hr, by simp [hxa, hw]⟩
    · refine h.imp id ?_
      rintro ⟨hx, hr, hw⟩
      refine ⟨(List.mem_cons.1 hx).resolve_left ?_, hr, hw⟩
      rintro rfl
      exact hn ⟨hr, hw⟩

/-- With budget 0 the first call returns true, and the roots are queued. -/
theorem Quiet.not_complete {s : St} (h : Quiet s) (hb : s.heap.options.incrementalWorkBudget = 0) {a : Addr}
    (ha : s.mem.Rooted a) : ¬ CompleteWhenDone s := by
  intro hc
  obtain ⟨l, hl⟩ := h.wf.listed
  have h₁ := (St.doMarkRoots_eq (s := ⟨s.mem, s.heap.withPhase .marking⟩) hl.seg l.length []).trans
    (if_pos (Nat.le_refl _))
  have hleft := hc.incremental l.length _ [] h₁ (by
    simp [markCalls, St.doMarkIncremental, St.doMarkWithTracer_idle (.inl hb)])
  have hmem := mem_scanRoots l s.mem [] (.inr ⟨(hl.alive a).2 ha.1, ha.2, h.white a ha.1⟩)
  have hq := hleft.1
  simp only [markCalls, List.foldl_nil, St.doMarkIncremental, St.doMarkWithTracer_idle (.inl hb),
    Heap.withQueue_grayQueue] at hq
  rw [List.append_eq_nil_iff] at hq
  rw [hq.1] at hmem
  cases hmem

theorem Quiet.complete_iff {s : St} (h : Quiet s) :
    CompleteWhenDone s ↔ 0 < s.heap.options.incrementalWorkBudget ∨ ∀ a, ¬ s.mem.Rooted a := by
  constructor
  · intro hc
    by_contra hn
    push Not at hn
    obtain ⟨hb, a, ha⟩ := hn
    exact h.not_complete (by omega) ha hc
  · rintro (hb | hr)
    · exact h.complete_of_pos hb
    · exact h.complete_of_unrooted hr

/-! ## Two budgets -/

/-- It ends whatever the budget is: at once, or with the marked objects used up. -/
theorem Quiet.forceCollect_ends {s : St} (h : Quiet s) : ∃ fuel s' live, s.forceCollect fuel = some (s', live) := by
  obtain ⟨l, hl⟩ := h.wf.listed
  by_cases hb : s.heap.options.incrementalWorkBudget = 0
  swap
  · exact forceCollect_total h.idle hl.seg hl.alive h.wf.sane h.busy (Nat.pos_of_ne_zero hb)
  obtain ⟨s₁, h₁⟩ : ∃ s₁, St.doMarkRoots (l.length + 1) ⟨s.mem, s.heap.withPhase .marking⟩ [] = some s₁ :=
    ⟨_, (St.doMarkRoots_eq (s := ⟨s.mem, s.heap.withPhase .marking⟩) hl.seg _ []).trans (if_pos (Nat.le_succ _))⟩
  obtain ⟨_, hl₁, hbusy, hopt⟩ := h.scan hl h₁
  have h₂ : doMarkWorkFull (l.length + 1) s₁ [] = some s₁ := doMarkWorkFull_idle hbusy (.inl (by rw [hopt]; exact hb))
  obtain ⟨_, hyes⟩ := sweepAndFinish_spec hl₁.seg (fun x hx => (hl₁.alive x).1 hx) (l.length + 1)
  obtain ⟨m', hd', live, _, _, e⟩ := hyes (Nat.le_succ _)
  exact ⟨_, _, _, forceCollect_of h.idle h₁ h₂ e⟩

/-- What a collection leaves depends on the budget only through its sign. -/
theorem Quiet.survivors_of_pos {s s' : St} {l : List Addr} {fuel live : Nat} (h : Quiet s) (hl : Listed s l)
    (hb : 0 < s.heap.options.incrementalWorkBudget) (hf : s.forceCollect fuel = some (s', live)) (x : Addr) :
    s'.mem.alive x = true ↔ s.mem.alive x = true ∧
      ¬ (x ∈ l ∧ ¬ Marked s.mem s.heap.grayQueue l x ∧ s.mem.rootCount x = 0) := by
  obtain ⟨⟨m₁, hs, hm, _, hsw, _⟩, _⟩ := forceCollect_spec h.idle hl.seg (fun x hx => (hl.alive x).1 hx) hb hf
  rw [hsw.alive x, hs.alive, Bool.and_eq_true, decide_eq_true_eq, mem_dead_marked hs hm]

/-- Without a root everything goes. -/
theorem Quiet.survivors_of_unrooted {s s' : St} {fuel live : Nat} (h : Quiet s) (hr : ∀ a, ¬ s.mem.Rooted a)
    (hf : s.forceCollect fuel = some (s', live)) (x : Addr) : s'.mem.alive x = false := by
  obtain ⟨l, hl⟩ := h.wf.listed
  obtain ⟨_, s₁, s₂, h₁, h₂, hsweep⟩ := (forceCollect_some hf).resolve_left fun hno => hno.1 h.idle
  obtain ⟨hq, hc⟩ := h.scan_unrooted hr h₁
  obtain ⟨hs, hl₁, hbusy, _⟩ := h.scan hl h₁
  cases fuel with
  | zero => cases h₂
  | succ fuel =>
    rw [doMarkWorkFull_idle hbusy (.inr hq)] at h₂
    cases h₂
    obtain ⟨hsw, _, _⟩ := sweepAndFinish_some hl₁.seg (fun x hx => (hl₁.alive x).1 hx) hsweep
    rw [hsw.alive x, hs.alive]
    cases ha : s.mem.alive x with
    | false => rfl
    | true =>
      have hdead : x ∈ dead s₁.mem l := by
        refine mem_dead.2 ⟨(hl.alive x).2 ha, by rw [hc]; exact h.white x ha, ?_⟩
        rw [hs.rootCount]
        by_contra h0
        exact hr x ⟨ha, Nat.pos_of_ne_zero h0⟩
      simp [hdead]

/-- Two budgets, one heap. -/
def SameFreed (s : St) (b b' : Nat) : Prop :=
  ∀ fuel fuel' s' s'' live live', (s.withWorkBudget b).forceCollect fuel = some (s', live) →
    (s.withWorkBudget b').forceCollect fuel' = some (s'', live') → s'.mem.alive = s''.mem.alive

/-- **When marking is declared complete too early.** Take a heap that is White, has nothing queued and no
other thread on it, and two values of `incremental_work_budget`. With either of them `force_collect` ends.
Marking is declared complete only with no work left, and the two collections free the same objects, iff
both budgets are positive or nothing is rooted. -/
theorem marking_complete_iff (s : St) (h : Quiet s) (b b' : Nat) :
    (∀ n, ∃ fuel s' live, (s.withWorkBudget n).forceCollect fuel = some (s', live)) ∧
    ((CompleteWhenDone (s.withWorkBudget b) ∧ CompleteWhenDone (s.withWorkBudget b') ∧ SameFreed s b b') ↔
      (0 < b ∧ 0 < b') ∨ ∀ a, ¬ s.mem.Rooted a) := by
  refine ⟨fun n => (h.withWorkBudget n).forceCollect_ends, ?_⟩
  rw [(h.withWorkBudget b).complete_iff, (h.withWorkBudget b').complete_iff]
  constructor
  · rintro ⟨hb, hb', _⟩
    by_cases hr : ∀ a, ¬ s.mem.Rooted a
    · exact .inr hr
    · exact .inl ⟨hb.resolve_right hr, hb'.resolve_right hr⟩
  · rintro (⟨hb, hb'⟩ | hr)
    · refine ⟨.inl hb, .inl hb', fun fuel fuel' s' s'' live live' hf hf' => ?_⟩
      obtain ⟨l, hl⟩ := h.wf.listed
      funext x
      rw [Bool.eq_iff_iff, (h.withWorkBudget b).survivors_of_pos (hl.of_same (.refl _) rfl rfl) hb hf,
        (h.withWorkBudget b').survivors_of_pos (hl.of_same (.refl _) rfl rfl) hb' hf']
      rfl
    · refine ⟨.inr hr, .inr hr, fun fuel fuel' s' s'' live live' hf hf' => ?_⟩
      funext x
      rw [(h.withWorkBudget b).survivors_of_unrooted hr hf, (h.withWorkBudget b').survivors_of_unrooted hr hf']

/-- Object 1 has a root and points to 2, which has none. -/
def rootedPair : St :=
  (((St.fresh .default).mutate (.allocate 2 (.leaf 40))).mutate (.allocate 1 (.node 48 [2]))).mutate (.dropRoot 2)

theorem quiet_rootedPair : Quiet rootedPair := by
  refine ⟨?_, rfl, rfl, ?_, rfl⟩
  · refine WF.mutate (WF.mutate (WF.mutate (wf_fresh _) (fun _ h => h) ?_) (fun _ h => h) ?_) (fun _ h => h) ?_
    · exact ⟨rfl, by decide⟩
    · exact ⟨by decide, by decide⟩
    · exact ⟨by decide, by decide⟩
  · exact St.mutate_white (by decide) (St.mutate_white (by decide) (St.mutate_white (by decide) fun _ _ => rfl))

theorem marking_complete_iff_pair : CompleteWhenDone (rootedPair.withWorkBudget 1) ∧ SameFreed rootedPair 1 100 := by
  obtain ⟨_, hiff⟩ := marking_complete_iff rootedPair quiet_rootedPair 1 100
  obtain ⟨hone, _, hsame⟩ := hiff.2 (.inl ⟨by decide, by decide⟩)
  exact ⟨hone, hsame⟩

/-- With `incremental_work_budget` 0 the first marking call returns true while object 1 is queued, and
`force_collect` frees the reachable object 2, which it keeps with budget 1. -/
theorem marking_declared_complete_early : rootedPair.mem.Reachable 2 ∧
    ¬ CompleteWhenDone (rootedPair.withWorkBudget 0) ∧ ¬ SameFreed rootedPair 0 1 := by
  refine ⟨?_, ?_, fun hsame => ?_⟩
  · exact Mem.Reachable.next (Mem.Rooted.reachable (a := 1) ⟨by decide, by decide⟩) (by decide : (2 : Addr) ∈ [2])
  · exact (quiet_rootedPair.withWorkBudget 0).not_complete rfl (a := 1) ⟨by decide, by decide⟩
  · have h₀ : (rootedPair.withWorkBudget 0).forceCollect 4 = some (_, _) := Option.eq_some_of_isSome (by decide)
    have h₁ : (rootedPair.withWorkBudget 1).forceCollect 4 = some (_, _) := Option.eq_some_of_isSome (by decide)
    have heq := congrFun (hsame 4 4 _ _ _ _ h₀ h₁) 2
    exact absurd heq (by decide)

end Abfall
