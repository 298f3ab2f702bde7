import Abfall.Incremental
import Abfall.MarkLog
/-!
# Collection cycles that complete or abort, between mutator operations

| here | there |
| --- | --- |
| `Step.start`     | `try_start_marking` and the root scan, by `try_mark_full` (`heap.rs:398-413`) or by the background thread (`:622-625`) |
| `Step.mark`      | one marking call with a budget of at least `least`: of `do_mark_work_full` (`:494`) or `do_mark_incremental` (`:634`) |
| `Step.busyCheck` | `yield_once_if_marking_busy` after a call that found no work (`:496`, `:637`) |
| `Step.abort`     | the background thread is stopped inside its marking loop (`:629-632`) |
| `Step.sweep`     | `sweep_and_finish` (`:415`) |
| `Step.mutate`    | a whole mutator operation that meets `ok` |

Nothing is assumed of when a cycle starts, so the cycles of the background thread and those of
`force_collect` are all runs of these steps (`forceCollect_run`), those of a heap with
`incremental_work_budget` 0 when `least` is 0. Colors and the gray queue outlive a
cycle: `abort` leaves both, and a barrier between the last marking call and the sweep leaves queued
objects that the sweep makes White again.

`queue_never_dangles`: such entries are still never freed. A sweep starts only after a call that found
the queue empty, so what is queued at the sweep was shaded since, and survives it.
-/
namespace Abfall.Cycles
open Chain Transition
open Incremental (BgPc Sys)

inductive Op
  | start (fuel : Nat)
  | mark (workBudget : Nat)
  | busyCheck
  | abort
  | sweep (fuel : Nat)
  | mutate (op : MutOp)

inductive Step (least : Nat) (ok : St → MutOp → Prop) : Sys → Op → Sys → Prop
  | start {s s' : St} {h : Heap} (fuel : Nat) : s.heap.tryStartMarking = (h, true) →
      St.doMarkRoots fuel ⟨s.mem, h⟩ [] = some s' → Step least ok ⟨s, .waiting⟩ (.start fuel) ⟨s', .marking⟩
  | mark {s : St} (b : Nat) : least ≤ b →
      Step least ok ⟨s, .marking⟩ (.mark b)
        ⟨(s.doMarkIncremental b).1, if (s.doMarkIncremental b).2 then .found else .marking⟩
  | busyCheck {s : St} :
      Step least ok ⟨s, .found⟩ .busyCheck ⟨s, if 0 < s.heap.nBusyMarking then .marking else .complete⟩
  | abort {s : St} : Step least ok ⟨s, .marking⟩ .abort ⟨⟨s.mem, s.heap.finishGc⟩, .waiting⟩
  | sweep {s s' : St} {live : Nat} (fuel : Nat) : s.sweepAndFinish fuel = some (s', live) →
      Step least ok ⟨s, .complete⟩ (.sweep fuel) ⟨s', .waiting⟩
  | mutate {s : St} {pc : BgPc} (op : MutOp) : ok s op → Step least ok ⟨s, pc⟩ (.mutate op) ⟨s.mutate op, pc⟩

variable {least : Nat} {ok : St → MutOp → Prop}

/-! ## `force_collect` is such a cycle -/

theorem Step.mark_found {s : St} {b : Nat} (hb : least ≤ b) (hw : (s.doMarkWithTracer [] b).2.2 = 0) :
    Step least ok ⟨s, .marking⟩ (.mark b) ⟨(s.doMarkWithTracer [] b).1, .found⟩ := by
  simpa [St.doMarkIncremental, hw] using (Step.mark b hb : Step least ok ⟨s, .marking⟩ (.mark b) _)

theorem Step.mark_more {s : St} {b : Nat} (hb : least ≤ b) (hw : (s.doMarkWithTracer [] b).2.2 ≠ 0) :
    Step least ok ⟨s, .marking⟩ (.mark b) ⟨(s.doMarkWithTracer [] b).1, .marking⟩ := by
  simpa [St.doMarkIncremental, hw] using (Step.mark b hb : Step least ok ⟨s, .marking⟩ (.mark b) _)

theorem workFull_run : ∀ (fuel : Nat) (s s' : St), doMarkWorkFull fuel s [] = some s' →
    least ≤ s.heap.options.incrementalWorkBudget → ∃ tr, Run (Step least ok) ⟨s, .marking⟩ tr ⟨s', .complete⟩
  | 0, _, _, h, _ => by cases h
  | fuel + 1, s, s', h, hb => by
    have hheap := s.doMarkWithTracer_heap [] s.heap.options.incrementalWorkBudget
    simp only [doMarkWorkFull, s.doMarkWithTracer_tracer] at h
    by_cases hw : (s.doMarkWithTracer [] s.heap.options.incrementalWorkBudget).2.2 = 0
    · -- a call that found nothing, and the read of the busy counter
      have hcheck : Step least ok ⟨(s.doMarkWithTracer [] s.heap.options.incrementalWorkBudget).1, .found⟩ _ _ :=
        .busyCheck
      split at h
      · rename_i hbusy
        obtain ⟨tr, hr⟩ := workFull_run fuel _ s' h (by rw [hheap]; exact hb)
        rw [if_pos (hbusy.resolve_left (by omega))] at hcheck
        exact ⟨_, .cons (Step.mark_found hb hw) (.cons hcheck hr)⟩
      · rename_i hbusy
        cases h
        rw [if_neg fun hlt => hbusy (.inr hlt)] at hcheck
        exact ⟨_, .cons (Step.mark_found hb hw) (.cons hcheck (.nil _))⟩
    · rw [if_pos (.inl (by omega))] at h
      obtain ⟨tr, hr⟩ := workFull_run fuel _ s' h (by rw [hheap]; exact hb)
      exact ⟨_, .cons (Step.mark_more hb hw) hr⟩

/-- A `force_collect` that finds the heap Idle is a complete cycle. -/
theorem forceCollect_run {fuel live : Nat} {s s' : St} {l : List Addr} (hl : Listed s l)
    (hidle : s.heap.phase = .idle) (hb : least ≤ s.heap.options.incrementalWorkBudget)
    (h : s.forceCollect fuel = some (s', live)) : ∃ tr, Run (Step least ok) ⟨s, .waiting⟩ tr ⟨s', .waiting⟩ := by
  have hstart : s.heap.tryStartMarking = (s.heap.withPhase .marking, true) := by simp [Heap.tryStartMarking, hidle]
  obtain ⟨_, s₁, s₂, h₁, h₂, hsweep⟩ := (forceCollect_some h).resolve_left fun hno => hno.1 hidle
  have hs₁ := St.doMarkRoots_some (s := ⟨s.mem, s.heap.withPhase .marking⟩) hl.seg h₁
  obtain ⟨tr, hr⟩ : ∃ tr, Run (Step least ok) ⟨s₁, .marking⟩ tr ⟨s₂, .complete⟩ :=
    workFull_run fuel s₁ s₂ h₂ (by rw [hs₁]; exact hb)
  exact ⟨_, (Run.cons (.start fuel hstart h₁) hr).snoc (.sweep fuel hsweep)⟩

/-! ## What every cycle keeps -/

def BgPc.phase : BgPc → GcPhase
  | .waiting => .idle
  | _ => .marking

structure Base (p : Sys) : Prop where
  listed : ∃ l, Listed p.st l
  phase : p.st.heap.phase = BgPc.phase p.pc

theorem base_fresh (o : GcOptions) : Base ⟨.fresh o, .waiting⟩ := ⟨(wf_fresh o).listed, rfl⟩

theorem base_step (hok : ∀ s op, ok s op → op.Allowed (fun _ => True) s) {p p' : Sys} {op : Op} (hi : Base p)
    (h : Step least ok p op p') : Base p' := by
  obtain ⟨l, hl⟩ := hi.listed
  cases h with
  | @start s s' h fuel hst hr =>
    obtain ⟨_, rfl⟩ := Heap.tryStartMarking_true hst
    obtain rfl := St.doMarkRoots_some (s := ⟨s.mem, s.heap.withPhase .marking⟩) hl.seg hr
    exact ⟨⟨l, hl.of_same (scanRoots_same l _ []) rfl rfl⟩, rfl⟩
  | @mark s b _ =>
    have hh : (s.doMarkIncremental b).1.heap = _ := s.doMarkWithTracer_heap [] b
    refine ⟨⟨l, hl.of_same (doMarkWithTracer_same s [] b) (by rw [hh]; rfl) (by rw [hh]; rfl)⟩, ?_⟩
    rw [hh]
    have hp : s.heap.phase = .marking := hi.phase
    split <;> exact hp
  | @busyCheck s =>
    refine ⟨⟨l, hl⟩, ?_⟩
    have hp : s.heap.phase = .marking := hi.phase
    split <;> exact hp
  | abort => exact ⟨⟨l, hl.of_same (.refl _) rfl rfl⟩, rfl⟩
  | @sweep s s' live fuel hs =>
    obtain ⟨hsw, hlive, hh⟩ := sweepAndFinish_some hl.seg (fun x hx => (hl.alive x).1 hx) hs
    refine ⟨⟨_, hl.swept (h := s'.heap) hsw rfl ?_⟩, ?_⟩
    · rw [hh]; exact hlive
    · rw [hh]; rfl
  | mutate op ha => exact ⟨hl.mutate (hok _ _ ha), (St.mutate_phase _ op).trans hi.phase⟩

/-! ## The gray queue -/

/-- What waits in the queues is allocated and nothing was dereferenced that is not, over the objects of
`m₀`; and where `c` says so, what waits is shaded. -/
structure Live (c : Prop) (m₀ m : Mem) (W : Set Addr) : Prop where
  same : m₀.SameObjects m
  fault : m.fault = false
  alive : ∀ x ∈ W, m₀.alive x = true
  shaded : c → ∀ x ∈ W, m.color x ≠ .white

variable {c : Prop} {m₀ m : Mem} {V W : Set Addr}

theorem Live.mono {W' : Set Addr} (h : Live c m₀ m W) (hw : W' ⊆ W) : Live c m₀ m W' :=
  ⟨h.same, h.fault, fun x hx => h.alive x (hw hx), fun hc x hx => h.shaded hc x (hw hx)⟩

theorem Live.touch {a : Addr} (h : Live c m₀ m W) (ha : m₀.alive a = true) : Live c m₀ (m.touch a) W :=
  ⟨h.same.trans (m.touch_same a), touch_fault h.fault (by rw [h.same.alive]; exact ha), h.alive, h.shaded⟩

/-- Any color but White may be given to an allocated object, which may then wait. -/
theorem Live.shade {a : Addr} {col : Color} (h : Live c m₀ m W) (ha : m₀.alive a = true) (hc : col ≠ .white) :
    Live c m₀ (m.setColor a col) (insert a W) := by
  refine ⟨h.same.trans (Mem.setColor_same m a col), h.fault, ?_, fun hcc => ?_⟩
  · rintro x (rfl | hx)
    · exact ha
    · exact h.alive x hx
  · intro x hx
    rw [Mem.setColor_color]
    split
    · exact hc
    · rename_i hxa
      exact h.shaded hcc x (hx.resolve_left hxa)

theorem Live.mark {t : Tracer} {p : Addr} (h : Live c m₀ m (V ∪ {x | x ∈ t})) (hp : m₀.alive p = true) :
    Live c m₀ (m.mark t p).1 (V ∪ {x | x ∈ (m.mark t p).2}) := by
  rcases m.mark_cases t p with ⟨_, e⟩ | ⟨_, e⟩ | ⟨_, e⟩ <;> rw [e]
  · exact ((h.touch hp).shade hp (by decide)).mono (Set.subset_insert p _)
  · refine ((h.touch hp).shade hp (by decide)).mono ?_
    rintro x (hx | hx)
    · exact .inr (.inl hx)
    · exact (List.mem_cons.1 hx).imp id .inr
  · exact h.touch hp

theorem Live.markAll {t : Tracer} {ps : List Addr} (h : Live c m₀ m (V ∪ {x | x ∈ t}))
    (hp : ∀ p ∈ ps, m₀.alive p = true) :
    Live c m₀ (Mem.markAll ps m t).1 (V ∪ {x | x ∈ (Mem.markAll ps m t).2}) :=
  Mem.markAll_rule (K := fun m' t' => Live c m₀ m' (V ∪ {x | x ∈ t'})) (fun _ _ p hps hk => hk.mark (hp p hps)) h

/-- Processing a waiting object whose pointers are to allocated objects. -/
theorem live_process (m : Mem) (t q : List Addr) (a : Addr) (hR : ∀ b, m₀.Edge a b → m₀.alive b = true)
    (h : Live c m₀ m (insert a (waiting t q))) :
    Live c m₀ (m.processObject t a).1 (waiting (m.processObject t a).2 q) := by
  have ha : m₀.alive a = true := h.alive a (Set.mem_insert a _)
  have h0 : Live c m₀ (m.touch a) ({x | x ∈ q} ∪ {x | x ∈ t}) :=
    (h.touch ha).mono fun x hx => .inr hx.symm
  have htr : Live c m₀ ((m.touch a).trace t a).1 ({x | x ∈ q} ∪ {x | x ∈ ((m.touch a).trace t a).2}) := by
    unfold Mem.trace
    split
    · exact h0
    · refine h0.markAll fun p hp => hR p ?_
      rw [← h0.same.edge]
      exact hp
  exact (htr.shade ha (by decide)).mono fun x hx => .inr hx.symm

theorem Live.scanRoots {q : List Addr} : ∀ (l : List Addr) (m : Mem) (t : Tracer),
    (∀ a ∈ l, m₀.alive a = true) → Live c m₀ m (waiting t q) →
    Live c m₀ (scanRoots l m t).1 (waiting (scanRoots l m t).2 q)
  | [], _, _, _, h => h
  | a :: l, m, t, hl, h => by
    have ha := hl a (by simp)
    simp only [Abfall.scanRoots]
    refine Live.scanRoots l _ _ (fun b hb => hl b (by simp [hb])) ?_
    rcases m.scanRoot_cases t a with ⟨_, _, e⟩ | ⟨_, e⟩ <;> rw [e]
    · refine ((h.touch ha).shade ha (by decide)).mono ?_
      rintro x (hx | hx)
      · exact (List.mem_cons.1 hx).imp id .inl
      · exact .inr (.inr hx)
    · exact h.touch ha

/-- The pointers a mutator's operation dereferences: the one `GcPtr::root` counts, and those the
barrier of `GcCell::set` traces. -/
def operands : MutOp → List Addr
  | .root a => [a]
  | .set _ _ vals => vals
  | _ => []

/-- The mutators root and store pointers to allocated objects. -/
def InUse (s : St) (op : MutOp) : Prop := op.Allowed (fun _ => True) s ∧ ∀ p ∈ operands op, s.mem.alive p = true

/-- The objects whose `vtable.trace` an operation calls. -/
def Op.traces (p : Sys) : Op → List Addr
  | .mark b => traced (doMarkLog b p.st [])
  | .mutate (.allocate _ _) => traced p.st.assistLog
  | _ => []

/-- Every `GcPtr` that a trace of the operation follows is to an allocated object. -/
def TracesLive (p : Sys) (op : Op) : Prop := ∀ a ∈ op.traces p, ∀ b, p.st.mem.Edge a b → p.st.mem.alive b = true

/-- Marking has found no work since the root scan. -/
def Drained (pc : BgPc) : Prop := pc = .found ∨ pc = .complete

structure QueueLive (p : Sys) : Prop extends Base p where
  live : Live (Drained p.pc) p.st.mem p.st.mem (waiting [] p.st.heap.grayQueue)

/-- A marking call processes allocated objects only. -/
theorem QueueLive.doMark {p : Sys} (h : QueueLive p) {b : Nat} (hok : TracesLive p (.mark b)) :
    Live (Drained p.pc) p.st.mem (p.st.doMarkWithTracer [] b).1.mem
      (waiting [] (p.st.doMarkWithTracer [] b).1.heap.grayQueue) ∧
    ∀ a ∈ traced (doMarkLog b p.st []), p.st.mem.alive a = true :=
  St.doMarkWithTracer_rule_log (fun m t q a => live_process m t q a) (fun _ _ a h => h.alive a (Set.mem_insert a _))
    b hok h.live

theorem QueueLive.assist {p : Sys} (h : QueueLive p) {a : Addr} {d : Data}
    (hok : TracesLive p (.mutate (.allocate a d))) :
    Live (Drained p.pc) p.st.mem p.st.assist.mem (waiting [] p.st.assist.heap.grayQueue) ∧
    ∀ a ∈ traced p.st.assistLog, p.st.mem.alive a = true :=
  St.assist_rule_log (fun m t q a => live_process m t q a) (fun _ _ a h => h.alive a (Set.mem_insert a _)) hok h.live

/-- The memory `m` itself may take the place of the one it has the objects of. -/
theorem Live.rebase (h : Live c m₀ m W) : Live c m m W :=
  ⟨.refl m, h.fault, fun x hx => by rw [h.same.alive]; exact h.alive x hx, h.shaded⟩

theorem Live.push {s : St} {a : Addr} {d : Data} (h : Live c s.mem s.mem W) (ha : s.mem.alive a = false) :
    Live c (s.push a d).mem (s.push a d).mem W := by
  refine ⟨.refl _, h.fault, fun x hx => St.push_alive.2 (.inr (h.alive x hx)), fun hc x hx => ?_⟩
  have hxa : x ≠ a := by
    rintro rfl
    have := h.alive x hx
    simp [ha] at this
  show Function.update s.mem.color a .white x ≠ .white
  rw [Function.update_of_ne hxa]
  exact h.shaded hc x hx

theorem Live.mutate {p : Sys} {op : MutOp} (h : QueueLive p) (ha : InUse p.st op) (hok : TracesLive p (.mutate op)) :
    Live (Drained p.pc) (p.st.mutate op).mem (p.st.mutate op).mem (waiting [] (p.st.mutate op).heap.grayQueue) := by
  obtain ⟨ha, hin⟩ := ha
  cases op with
  | allocate a d =>
    have hassist := (h.assist hok).1
    exact hassist.rebase.push (by rw [hassist.same.alive]; exact ha.1)
  | clone a => exact ⟨.refl _, touch_fault h.live.fault ha.1, h.live.alive, h.live.shaded⟩
  | dropRoot a => exact ⟨.refl _, touch_fault h.live.fault ha.1, h.live.alive, h.live.shaded⟩
  | root a => exact ⟨.refl _, touch_fault h.live.fault (hin a (by simp [operands])), h.live.alive, h.live.shaded⟩
  | set o k vals =>
    have hb : Live (Drained p.pc) p.st.mem (p.st.barrier [] vals).1.mem
        (waiting [] (p.st.barrier [] vals).1.heap.grayQueue) := by
      rcases p.st.barrier_cases vals with e | ⟨_, e⟩ <;> rw [e]
      · exact h.live
      · have h0 : Live (Drained p.pc) p.st.mem p.st.mem ({x | x ∈ p.st.heap.grayQueue} ∪ {x | x ∈ ([] : Tracer)}) :=
          h.live.mono fun x hx => hx.symm
        refine (h0.markAll hin).mono ?_
        rintro x (hx | hx)
        · cases hx
        · exact (List.mem_append.1 hx).symm
    have hal : (p.st.barrier [] vals).1.mem.alive o = true := by rw [hb.same.alive]; exact ha.1
    exact ⟨.refl _, touch_fault hb.fault hal, fun x hx => hb.rebase.alive x hx, hb.shaded⟩

theorem queueLive_step {p p' : Sys} {op : Op} (hi : QueueLive p) (h : Step 1 InUse p op p') (hok : TracesLive p op) :
    QueueLive p' := by
  refine ⟨base_step (fun _ _ h => h.1) hi.toBase h, ?_⟩
  obtain ⟨l, hl⟩ := hi.listed
  cases h with
  | @start s s' h fuel hst hr =>
    obtain ⟨_, rfl⟩ := Heap.tryStartMarking_true hst
    obtain rfl := St.doMarkRoots_some (s := ⟨s.mem, s.heap.withPhase .marking⟩) hl.seg hr
    have hscan := Live.scanRoots l s.mem [] (fun a ha => (hl.alive a).1 ha) hi.live
    have hw : waiting [] ((scanRoots l s.mem []).2 ++ s.heap.grayQueue) =
        waiting (scanRoots l s.mem []).2 s.heap.grayQueue := by ext x; simp [waiting]
    refine ⟨.refl _, hscan.fault, fun x hx => hscan.rebase.alive x ?_, fun hd => by simp [Drained] at hd⟩
    rw [← hw]
    exact hx
  | @mark s b hb =>
    have hmark := (hi.doMark hok).1.rebase
    have e : (s.doMarkIncremental b).1 = (s.doMarkWithTracer [] b).1 := rfl
    refine ⟨.refl _, hmark.fault, hmark.alive, fun hd x hx => ?_⟩
    -- the collector leaves `marking` only with an empty queue
    by_cases hw : (s.doMarkWithTracer [] b).2.2 = 0
    · obtain ⟨_, hq, es⟩ := St.doMarkWithTracer_zero hb hw
      simp only [e, es, hq] at hx
      simp [waiting] at hx
    · simp [St.doMarkIncremental, hw, Drained] at hd
  | @busyCheck s => exact ⟨.refl _, hi.live.fault, hi.live.alive, fun _ => hi.live.shaded (.inl rfl)⟩
  | abort => exact ⟨.refl _, hi.live.fault, hi.live.alive, fun hd => by simp [Drained] at hd⟩
  | @sweep s s' live fuel hs =>
    obtain ⟨hsw, _, hh⟩ := sweepAndFinish_some hl.seg (fun x hx => (hl.alive x).1 hx) hs
    refine ⟨.refl _, hsw.fault.trans hi.live.fault, fun x hx => ?_, fun hd => by simp [Drained] at hd⟩
    have hx' : x ∈ waiting [] s.heap.grayQueue := by rw [hh] at hx; exact hx
    have hnd : x ∉ dead s.mem l := fun hd => hi.live.shaded (.inr rfl) x hx' (mem_dead.1 hd).2.1
    have hal : s.mem.alive x = true := hi.live.alive x hx'
    simp [hsw.alive x, hal, hnd]
  | mutate op ha => exact Live.mutate hi ha hok

theorem queueLive_fresh (o : GcOptions) : QueueLive ⟨.fresh o, .waiting⟩ := by
  have hq : ∀ x, x ∉ waiting [] (St.fresh o).heap.grayQueue := by rintro x (hx | hx) <;> cases hx
  exact ⟨base_fresh o, .refl _, rfl, fun x hx => absurd hx (hq x), fun _ x hx => absurd hx (hq x)⟩

/-- **The gray queue never dangles.** In every run from a fresh heap in which the traces follow
pointers to allocated objects, every queued object is allocated; every object that a marking call or
an assist processed was; and no header was dereferenced that was not. -/
theorem queue_never_dangles (o : GcOptions) (p : Sys) (tr : List (Sys × Op))
    (h : Run (Step 1 InUse) ⟨.fresh o, .waiting⟩ tr p) (htr : ∀ e ∈ tr, TracesLive e.1 e.2) :
    (∀ x ∈ p.st.heap.grayQueue, p.st.mem.alive x = true) ∧ p.st.mem.fault = false ∧
    ∀ e ∈ tr, ∀ a ∈ e.2.traces e.1, e.1.st.mem.alive a = true := by
  have hkeep : ∀ u op u', QueueLive u → Step 1 InUse u op u' → TracesLive u op → QueueLive u' :=
    fun _ _ _ hi hst hok => queueLive_step hi hst hok
  have hp : QueueLive p := h.inv hkeep (queueLive_fresh o) htr
  refine ⟨fun x hx => hp.live.alive x (.inr hx), hp.live.fault, fun e he => ?_⟩
  have hi := h.inv_before hkeep (queueLive_fresh o) htr e he
  obtain ⟨u, op⟩ := e
  cases op with
  | mark b => exact (hi.doMark (htr _ he)).2
  | mutate op =>
    cases op with
    | allocate a d => exact (hi.assist (htr _ he)).2
    | _ => intro a ha; cases ha
  | _ => intro a ha; cases ha

/-- Marking is complete when `2` is allocated and stored into `1`. The barrier queues it, the sweep makes
it White, and it is still in the queue when the cycle is over. -/
theorem queue_never_dangles_stale : ∃ (p : Sys) (tr : List (Sys × Op)),
    Run (Step 1 InUse) ⟨.fresh .default, .waiting⟩ tr p ∧ (∀ e ∈ tr, TracesLive e.1 e.2) ∧
    p.pc = .waiting ∧ p.st.heap.grayQueue = [2] ∧ p.st.mem.color 2 = .white ∧ p.st.mem.alive 2 = true := by
  have h₁ := Run.snoc (Run.nil _ : Run (Step 1 InUse) ⟨.fresh .default, .waiting⟩ [] _)
    (Step.mutate (.allocate 1 (.node 48 [])) ⟨⟨rfl, fun _ _ => trivial⟩, fun q hq => by cases hq⟩)
  have h₂ := h₁.snoc (Step.start 1 rfl (Option.eq_some_of_isSome (by decide)))
  have h₃ := h₂.snoc (Step.mark_more (b := 5) (by decide) (by decide))
  have h₄ := h₃.snoc (Step.mark_found (b := 5) (by decide) (by decide))
  have h₅ := h₄.snoc
    (Step.mutate (.allocate 2 (.node 48 [])) ⟨⟨by decide, fun _ _ => trivial⟩, fun q hq => by cases hq⟩)
  have h₆ := h₅.snoc (Step.mutate (.set 1 0 [2]) ⟨⟨by decide, by decide, fun _ _ => trivial⟩, by decide⟩)
  have h₇ := h₆.snoc Step.busyCheck
  have h₈ := h₇.snoc (Step.sweep 2 (Option.eq_some_of_isSome (by decide)))
  have hq := queue_never_dangles .default _ _ h₈
  refine ⟨_, _, h₈, ?traces, rfl, by decide, by decide, (hq ?traces).1 2 (by decide)⟩
  intro e he
  simp only [List.nil_append, List.cons_append, List.mem_cons, List.not_mem_nil, or_false] at he
  rcases he with rfl | rfl | rfl | rfl | rfl | rfl | rfl | rfl
  all_goals
    show ∀ a ∈ Op.traces _ _, ∀ b ∈ Mem.ptrs _ a, Mem.alive _ b = true
    decide

end Abfall.Cycles
