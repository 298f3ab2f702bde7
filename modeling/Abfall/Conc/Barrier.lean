import Abfall.Tricolor
/-!
# `GcCell::set`, step by step, against collection cycles

`GcCell::set` (`cell.rs:44-59`) is six steps: count in, check the phase, shade the new value, merge,
count out, store. Only the first five are bracketed by `n_busy_marking`. Any number of threads run it,
with a context on this heap, beside a collector that goes through cycle after cycle: roots one by one,
objects traced and blackened one by one, swept one by one.

| here | there |
| --- | --- |
| `SetPc.entered`, `refused` | `check_is_marking_and_increment_busy` (`heap.rs:362-370`), its false branch |
| `SetPc.shade`, `merge`, `leave` | `new_ref.trace`, `merge_work`, `decrement_busy_marking` |
| `SetPc.store` | `*self.value.get() = new_value` is next |
| `CollectorPc.call`, `ret` | inside `do_mark_with_tracer` (`heap.rs:439-472`), returned |
| `CollectorPc.sweep` | the loop of `do_sweep` (`heap.rs:526-553`) |

`Sys.cycle` numbers the cycles and a set remembers in which of them its check saw Marking; the source
has neither, and no step looks at them.

With nobody in between, the steps of a set are `St.setCell` (`run_set`) and the steps of a cycle are
`St.forceCollect` (`run_forceCollect`).
-/
namespace Abfall.Barrier
open Chain Transition

abbrev ThreadId := Nat

/-- A call of `set` on the `cell`-th cell of the object `owner`. -/
structure SetCall where
  owner : Addr
  cell : Nat
  vals : List Addr

inductive SetPc
  | out
  | entered (c : SetCall)
  | refused (c : SetCall)
  | shade (c : SetCall) (seen : Nat) (todo : List Addr) (localGray : Tracer)
  | merge (c : SetCall) (seen : Nat) (localGray : Tracer)
  | leave (c : SetCall) (seen : Nat)
  | store (c : SetCall) (seen : Option Nat)

namespace SetPc

def call : SetPc → Option SetCall
  | .out => none
  | .entered c | .refused c | .shade c _ _ _ | .merge c _ _ | .leave c _ | .store c _ => some c

/-- The cycle in which the check saw Marking. -/
def seen : SetPc → Option Nat
  | .shade _ n _ _ | .merge _ n _ | .leave _ n => some n
  | .store _ n => n
  | _ => none

/-- The pointers still to shade. -/
def todo : SetPc → List Addr
  | .shade _ _ todo _ => todo
  | _ => []

end SetPc

inductive CollectorPc
  | rest
  | scan (current : Option Addr) (tracer : Tracer)
  | call (tracer : Tracer) (workBudget workDone : Nat)
  | ret (workDone : Nat)
  | busyLoad
  | exit
  | sweep (current : Option Addr) (prev : PrevNext) (freed : Nat)
  /-- `do_sweep` has stored Idle; `update_threshold` and the second `finish_gc` are next. -/
  | finishing (liveBytes : Nat)

/-- The phase the collector stored last. -/
def CollectorPc.phase : CollectorPc → GcPhase
  | .rest | .finishing _ => .idle
  | .sweep _ _ _ => .sweeping
  | _ => .marking

structure Sys where
  st : St
  cycle : Nat
  collector : CollectorPc
  threads : ThreadId → SetPc

namespace Sys

def setSt (s : Sys) (st : St) : Sys := { s with st := st }

def setCollector (s : Sys) (p : CollectorPc) : Sys := { s with collector := p }

def setThread (s : Sys) (i : ThreadId) (p : SetPc) : Sys := { s with threads := Function.update s.threads i p }

theorem setThread_threads (s : Sys) (i : ThreadId) (p : SetPc) :
    (s.setThread i p).threads = Function.update s.threads i p := rfl

theorem setThread_again (s : Sys) (st : St) (i : ThreadId) (p q : SetPc) :
    ((s.setThread i p).setSt st).setThread i q = (s.setSt st).setThread i q := by
  simp only [setThread, setSt, Function.update_idem]

theorem setThread_eq_self {s : Sys} {i : ThreadId} {p : SetPc} (h : s.threads i = p) : s.setThread i p = s := by
  unfold setThread
  rw [← h, Function.update_eq_self]

/-- The budget of a call of `do_mark_with_tracer`. -/
def budget (s : Sys) : Nat := s.st.heap.options.incrementalWorkBudget

end Sys

inductive Label
  | tryStart
  | scan
  | scanMerge
  | process
  | steal
  | noWork
  | spent
  | again
  | found
  | busyLoad
  | startSweeping
  | sweep
  | finishSweep
  | finish
  | call (i : ThreadId) (c : SetCall)
  | check (i : ThreadId)
  | back (i : ThreadId)
  | shade (i : ThreadId)
  | merge (i : ThreadId)
  | leave (i : ThreadId)
  | store (i : ThreadId)

inductive Step : Sys → Label → Sys → Prop
  | tryStart {s : Sys} {h : Heap} : s.collector = .rest → s.st.heap.tryStartMarking = (h, true) →
      Step s .tryStart ⟨⟨s.st.mem, h⟩, s.cycle + 1, .scan s.st.heap.head [], s.threads⟩
  | scan {s : Sys} {a : Addr} {t : Tracer} : s.collector = .scan (some a) t →
      Step s .scan ((s.setSt ⟨(s.st.mem.scanRoot t a).1, s.st.heap⟩).setCollector
        (.scan (s.st.mem.next a) (s.st.mem.scanRoot t a).2))
  | scanMerge {s : Sys} {t : Tracer} : s.collector = .scan none t →
      Step s .scanMerge ((s.setSt (s.st.mergeWork t)).setCollector (.call [] s.budget 0))
  | process {s : Sys} {p : Addr} {t : Tracer} {b n : Nat} : s.collector = .call (p :: t) b n → n < b →
      Step s .process ((s.setSt ⟨(s.st.mem.processObject t p).1, s.st.heap⟩).setCollector
        (.call (s.st.mem.processObject t p).2 b (n + 1)))
  | steal {s : Sys} {st : St} {t : Tracer} {b n : Nat} : s.collector = .call [] b n → n < b →
      s.st.stealWork [] 8 = some (st, t) → Step s .steal ((s.setSt st).setCollector (.call t b n))
  | noWork {s : Sys} {b n : Nat} : s.collector = .call [] b n → n < b → s.st.stealWork [] 8 = none →
      Step s .noWork (s.setCollector (.ret n))
  | spent {s : Sys} {t : Tracer} {b n : Nat} : s.collector = .call t b n → ¬ n < b →
      Step s .spent ((s.setSt (if t = [] then s.st else s.st.mergeWork t)).setCollector (.ret n))
  | again {s : Sys} {n : Nat} : s.collector = .ret n → 0 < n →
      Step s .again (s.setCollector (.call [] s.budget 0))
  | found {s : Sys} : s.collector = .ret 0 → Step s .found (s.setCollector .busyLoad)
  | busy {s : Sys} : s.collector = .busyLoad → 0 < s.st.heap.nBusyMarking →
      Step s .busyLoad (s.setCollector (.call [] s.budget 0))
  | quiet {s : Sys} : s.collector = .busyLoad → s.st.heap.nBusyMarking = 0 → Step s .busyLoad (s.setCollector .exit)
  | startSweeping {s : Sys} : s.collector = .exit →
      Step s .startSweeping ((s.setSt ⟨s.st.mem, s.st.heap.startSweeping⟩).setCollector (.sweep s.st.heap.head .head 0))
  | drop {s : Sys} {a : Addr} {prev : PrevNext} {freed : Nat} : s.collector = .sweep (some a) prev freed →
      s.st.mem.isWhite a = true →
      Step s .sweep ((s.setSt ⟨((St.storePrev ⟨s.st.mem.touch a, s.st.heap⟩ prev (s.st.mem.next a)).mem).drop a,
          (St.storePrev ⟨s.st.mem.touch a, s.st.heap⟩ prev (s.st.mem.next a)).heap⟩).setCollector
        (.sweep (s.st.mem.next a) prev (freed + (s.st.mem.data a).size)))
  | reset {s : Sys} {a : Addr} {prev : PrevNext} {freed : Nat} : s.collector = .sweep (some a) prev freed →
      s.st.mem.isWhite a = false →
      Step s .sweep ((s.setSt ⟨(s.st.mem.touch a).setColor a .white, s.st.heap⟩).setCollector
        (.sweep (s.st.mem.next a) (.nextOf a) freed))
  | finishSweep {s : Sys} {prev : PrevNext} {freed : Nat} : s.collector = .sweep none prev freed →
      Step s .finishSweep
        ((s.setSt ⟨s.st.mem, (s.st.heap.withBytes (s.st.heap.bytesAllocated - freed)).finishGc⟩).setCollector
          (.finishing (s.st.heap.bytesAllocated - freed)))
  | finish {s : Sys} {live : Nat} : s.collector = .finishing live →
      Step s .finish ((s.setSt ⟨s.st.mem, (s.st.heap.updateThreshold live).finishGc⟩).setCollector .rest)
  | call {s : Sys} (i : ThreadId) (c : SetCall) : s.threads i = .out → s.st.mem.alive c.owner = true →
      c.cell < (s.st.mem.data c.owner).cells.length → (∀ p ∈ c.vals, s.st.mem.Reachable p) →
      Step s (.call i c) ((s.setSt ⟨s.st.mem, s.st.heap.withBusy (s.st.heap.nBusyMarking + 1)⟩).setThread i (.entered c))
  | seen {s : Sys} (i : ThreadId) {c : SetCall} : s.threads i = .entered c → s.st.heap.isMarking = true →
      Step s (.check i) (s.setThread i (.shade c s.cycle c.vals []))
  | unseen {s : Sys} (i : ThreadId) {c : SetCall} : s.threads i = .entered c → s.st.heap.isMarking = false →
      Step s (.check i) (s.setThread i (.refused c))
  | back {s : Sys} (i : ThreadId) {c : SetCall} : s.threads i = .refused c →
      Step s (.back i) ((s.setSt ⟨s.st.mem, s.st.heap.decrementBusyMarking⟩).setThread i (.store c none))
  | shade {s : Sys} (i : ThreadId) {c : SetCall} {n : Nat} {v : Addr} {todo : List Addr} {t : Tracer} :
      s.threads i = .shade c n (v :: todo) t →
      Step s (.shade i) ((s.setSt ⟨(s.st.mem.mark t v).1, s.st.heap⟩).setThread i (.shade c n todo (s.st.mem.mark t v).2))
  | shaded {s : Sys} (i : ThreadId) {c : SetCall} {n : Nat} {t : Tracer} : s.threads i = .shade c n [] t →
      Step s (.shade i) (s.setThread i (.merge c n t))
  | merge {s : Sys} (i : ThreadId) {c : SetCall} {n : Nat} {t : Tracer} : s.threads i = .merge c n t →
      Step s (.merge i) ((s.setSt (s.st.mergeWork t)).setThread i (.leave c n))
  | leave {s : Sys} (i : ThreadId) {c : SetCall} {n : Nat} : s.threads i = .leave c n →
      Step s (.leave i) ((s.setSt ⟨s.st.mem, s.st.heap.decrementBusyMarking⟩).setThread i (.store c (some n)))
  | store {s : Sys} (i : ThreadId) {c : SetCall} {n : Option Nat} : s.threads i = .store c n →
      Step s (.store i) ((s.setSt (s.st.storeCell c.owner c.cell c.vals)).setThread i .out)

/-! ## Without interference: whole operations -/

def Steps : Sys → Sys → Prop := Relation.ReflTransGen fun a b => ∃ l, Step a l b

theorem Step.run {s s' : Sys} {l : Label} (h : Step s l s') : Steps s s' := .single ⟨l, h⟩

theorem run_shade {i : ThreadId} {c : SetCall} {n : Nat} (todo : List Addr) (s : Sys) (t : Tracer) :
    Steps (s.setThread i (.shade c n todo t))
      ((s.setSt ⟨(Mem.markAll todo s.st.mem t).1, s.st.heap⟩).setThread i
        (.shade c n [] (Mem.markAll todo s.st.mem t).2)) := by
  induction todo generalizing s t with
  | nil => exact .refl
  | cons v todo ih =>
    have hpc : (s.setThread i (.shade c n (v :: todo) t)).threads i = .shade c n (v :: todo) t :=
      Function.update_self _ _ _
    have h₁ := Step.shade i hpc
    rw [Sys.setThread_again] at h₁
    exact h₁.run.trans (ih (s.setSt ⟨(s.st.mem.mark t v).1, s.st.heap⟩) (s.st.mem.mark t v).2)

/-- One step of thread `i` from `p`, with the heap going from `r` to `r'`. -/
theorem run_thread (s : Sys) {i : ThreadId} (p : SetPc) {q : SetPc} {l : Label} (r r' : St)
    (h : ((s.setSt r).setThread i p).threads i = p →
      Step ((s.setSt r).setThread i p) l ((((s.setSt r).setThread i p).setSt r').setThread i q)) :
    Steps ((s.setSt r).setThread i p) ((s.setSt r').setThread i q) := by
  have hpc : ((s.setSt r).setThread i p).threads i = p := Function.update_self _ _ _
  have hst := h hpc
  rw [Sys.setThread_again] at hst
  exact hst.run

/-- **A set that nobody interrupts is `St.setCell`.** -/
theorem run_set {s : Sys} {i : ThreadId} {c : SetCall} (hi : s.threads i = .out) (ho : s.st.mem.alive c.owner = true)
    (hk : c.cell < (s.st.mem.data c.owner).cells.length) (hv : ∀ p ∈ c.vals, s.st.mem.Reachable p) :
    Steps s (s.setSt (s.st.setCell c.owner c.cell c.vals)) := by
  let r₁ : St := ⟨s.st.mem, s.st.heap.withBusy (s.st.heap.nBusyMarking + 1)⟩
  have hcall : Steps s ((s.setSt r₁).setThread i (.entered c)) := (Step.call i c hi ho hk hv).run
  have hstore : ∀ (r : St) (n : Option Nat), Steps ((s.setSt r).setThread i (.store c n))
      (s.setSt (r.storeCell c.owner c.cell c.vals)) := by
    intro r n
    have h := run_thread s (.store c n) r _ (Step.store i)
    have e := Sys.setThread_eq_self (s := s.setSt (r.storeCell c.owner c.cell c.vals)) hi
    rw [← e]
    exact h
  unfold St.setCell
  by_cases hm : s.st.heap.phase = .marking
  · have hmark : r₁.heap.isMarking = true := by simpa [Heap.isMarking, r₁] using hm
    let m := Mem.markAll c.vals s.st.mem []
    let r₂ : St := ⟨m.1, r₁.heap⟩
    rw [St.barrier_of_marking hm]
    have hseen := run_thread s (.entered c) r₁ r₁ fun hpc => Step.seen i hpc hmark
    have hshade := run_shade (i := i) (c := c) (n := s.cycle) c.vals (s.setSt r₁) []
    have hdone := run_thread s (.shade c s.cycle [] m.2) r₂ r₂ (Step.shaded i)
    have hmerge := run_thread s (.merge c s.cycle m.2) r₂ _ (Step.merge i)
    have hleave := run_thread s (.leave c s.cycle) (r₂.mergeWork m.2) _ (Step.leave i)
    exact hcall.trans (hseen.trans (hshade.trans (hdone.trans (hmerge.trans (hleave.trans (hstore _ _))))))
  · have hmark : r₁.heap.isMarking = false := by simpa [Heap.isMarking, r₁] using hm
    rw [St.barrier_of_not_marking hm]
    have hunseen := run_thread s (.entered c) r₁ r₁ fun hpc => Step.unseen i hpc hmark
    have hback := run_thread s (.refused c) r₁ _ (Step.back i)
    exact hcall.trans (hunseen.trans (hback.trans (hstore _ _)))

section
variable {n : Nat} {f : ThreadId → SetPc}

theorem run_scan {h : Heap} {m' : Mem} {t' : Tracer} (fuel : Nat) (m : Mem) (t : Tracer) (p : Option Addr)
    (hr : markRootsLoop fuel m t p = some (m', t')) :
    Steps ⟨⟨m, h⟩, n, .scan p t, f⟩ ⟨⟨m', h⟩, n, .scan none t', f⟩ := by
  induction fuel generalizing m t p with
  | zero =>
    cases p with
    | none => cases hr; exact .refl
    | some a => cases hr
  | succ fuel ih =>
    cases p with
    | none => cases hr; exact .refl
    | some a =>
      simp only [markRootsLoop] at hr
      rw [(m.scanRoot_same t a).next] at hr
      have hscan : Step ⟨⟨m, h⟩, n, .scan (some a) t, f⟩ .scan _ := Step.scan rfl
      exact hscan.run.trans (ih _ _ _ hr)

/-- Getting the next object, as in `St.nextWork`. -/
theorem run_next {st st' : St} {t t' : Tracer} {p : Addr} {b d : Nat} (hb : d < b)
    (hw : st.nextWork t = some (p, st', t')) :
    Steps ⟨st, n, .call t b d, f⟩ ⟨st', n, .call (p :: t') b d, f⟩ := by
  cases t with
  | cons x t =>
    cases hw
    exact .refl
  | nil =>
    simp only [St.nextWork] at hw
    cases hst : st.stealWork [] 8 with
    | none => simp [hst] at hw
    | some r =>
      obtain ⟨st₁, t₁⟩ := r
      simp only [hst] at hw
      cases t₁ with
      | nil => cases hw
      | cons y t₁ =>
        cases hw
        have hsteal : Step ⟨st, n, .call [] b d, f⟩ .steal _ := Step.steal rfl hb hst
        exact hsteal.run

theorem run_loop (k : Nat) (st : St) (t : Tracer) (d : Nat) :
    Steps ⟨st, n, .call t (d + k) d, f⟩
      ⟨(doMarkLoop k st t d).1, n, .call (doMarkLoop k st t d).2.1 (d + k) (doMarkLoop k st t d).2.2, f⟩ := by
  induction k generalizing st t d with
  | zero => exact .refl
  | succ k ih =>
    simp only [doMarkLoop]
    cases hw : st.nextWork t with
    | none => exact .refl
    | some r =>
      obtain ⟨p, st', t'⟩ := r
      have hnext := run_next (n := n) (f := f) (b := d + (k + 1)) (d := d) (by omega) hw
      have hproc : Step ⟨st', n, .call (p :: t') (d + (k + 1)) d, f⟩ .process _ := Step.process rfl (by omega)
      have e : d + (k + 1) = d + 1 + k := by omega
      have htail := ih ⟨(st'.mem.processObject t' p).1, st'.heap⟩ (st'.mem.processObject t' p).2 (d + 1)
      rw [← e] at htail
      exact hnext.trans (hproc.run.trans htail)

theorem run_call (st : St) (t : Tracer) (b : Nat) :
    Steps ⟨st, n, .call t b 0, f⟩ ⟨(st.doMarkWithTracer t b).1, n, .ret (st.doMarkWithTracer t b).2.2, f⟩ := by
  have hloop := run_loop (n := n) (f := f) b st t 0
  have hdone := doMarkLoop_done b st t 0
  have hret : st.doMarkWithTracer t b = if (doMarkLoop b st t 0).2.1 = [] then doMarkLoop b st t 0 else
      ((doMarkLoop b st t 0).1.mergeWork (doMarkLoop b st t 0).2.1, [], (doMarkLoop b st t 0).2.2) := rfl
  rw [hret]
  rw [Nat.zero_add] at hloop hdone
  refine hloop.trans ?_
  generalize doMarkLoop b st t 0 = r at hdone ⊢
  obtain ⟨st', t', d⟩ := r
  by_cases hd : d < b
  · obtain ⟨ht, hq⟩ := hdone.resolve_left (by simp only; omega)
    simp only at ht hq
    subst ht
    have hno : Step ⟨st', n, .call [] b d, f⟩ .noWork _ := Step.noWork rfl hd (by simp [St.stealWork, stealFrom, hq])
    exact hno.run
  · have hsp : Step ⟨st', n, .call t' b d, f⟩ .spent _ := Step.spent rfl hd
    by_cases ht : t' = []
    · rw [if_pos ht] at hsp ⊢
      exact hsp.run
    · rw [if_neg ht] at hsp ⊢
      exact hsp.run

theorem run_full (fuel : Nat) (st st' : St) (hr : doMarkWorkFull fuel st [] = some st') :
    Steps ⟨st, n, .call [] st.heap.options.incrementalWorkBudget 0, f⟩ ⟨st', n, .exit, f⟩ := by
  induction fuel generalizing st with
  | zero => cases hr
  | succ fuel ih =>
    simp only [doMarkWorkFull, St.doMarkWithTracer_tracer] at hr
    have hcall := run_call (n := n) (f := f) st [] st.heap.options.incrementalWorkBudget
    have hopt : (st.doMarkWithTracer [] st.heap.options.incrementalWorkBudget).1.heap.options = st.heap.options := by
      rw [St.doMarkWithTracer_heap]
      rfl
    generalize st.doMarkWithTracer [] st.heap.options.incrementalWorkBudget = r at hr hcall hopt
    refine hcall.trans ?_
    split at hr
    · rename_i hbusy
      have htail := ih r.1 hr
      by_cases hd : 0 < r.2.2
      · have hagain : Step ⟨r.1, n, .ret r.2.2, f⟩ .again _ := Step.again rfl hd
        exact hagain.run.trans htail
      · have hzero : r.2.2 = 0 := by omega
        rw [hzero]
        have hfound : Step ⟨r.1, n, .ret 0, f⟩ .found _ := Step.found rfl
        have hload : Step ⟨r.1, n, .busyLoad, f⟩ .busyLoad _ := Step.busy rfl (hbusy.resolve_left hd)
        exact hfound.run.trans (hload.run.trans htail)
    · rename_i hquiet
      cases hr
      have hzero : r.2.2 = 0 := by omega
      rw [hzero]
      have hfound : Step ⟨r.1, n, .ret 0, f⟩ .found _ := Step.found rfl
      have hload : Step ⟨r.1, n, .busyLoad, f⟩ .busyLoad _ := Step.quiet rfl (by show r.1.heap.nBusyMarking = 0; omega)
      exact hfound.run.trans hload.run

theorem run_sweep {st' : St} {freed' : Nat} (fuel : Nat) (st : St) (p : Option Addr) (prev : PrevNext) (freed : Nat)
    (hr : sweepLoop fuel st p prev freed = some (st', freed')) :
    ∃ prev', Steps ⟨st, n, .sweep p prev freed, f⟩ ⟨st', n, .sweep none prev' freed', f⟩ := by
  induction fuel generalizing st p prev freed with
  | zero =>
    cases p with
    | none => cases hr; exact ⟨prev, .refl⟩
    | some a => cases hr
  | succ fuel ih =>
    cases p with
    | none => cases hr; exact ⟨prev, .refl⟩
    | some a =>
      simp only [sweepLoop] at hr
      split at hr
      · rename_i hw
        have hdrop : Step ⟨st, n, .sweep (some a) prev freed, f⟩ .sweep _ := Step.drop rfl hw
        -- the store leaves the object's size alone
        have hsize : (St.storePrev ⟨st.mem.touch a, st.heap⟩ prev ((st.mem.touch a).next a)).mem.data = st.mem.data := by
          cases prev <;> rfl
        rw [hsize] at hr
        obtain ⟨prev', htail⟩ := ih _ _ _ _ hr
        exact ⟨prev', hdrop.run.trans htail⟩
      · rename_i hw
        have hreset : Step ⟨st, n, .sweep (some a) prev freed, f⟩ .sweep _ :=
          Step.reset rfl (Bool.eq_false_of_not_eq_true hw)
        obtain ⟨prev', htail⟩ := ih _ _ _ _ hr
        exact ⟨prev', hreset.run.trans htail⟩

theorem run_markFull {fuel : Nat} {st st' : St} (hr : st.tryMarkFull fuel = some (st', true)) :
    Steps ⟨st, n, .rest, f⟩ ⟨st', n + 1, .exit, f⟩ := by
  unfold St.tryMarkFull at hr
  cases hs : st.heap.tryStartMarking with
  | mk h started =>
    cases started with
    | false => simp [hs] at hr
    | true =>
      simp only [hs, ↓reduceIte, Option.bind_eq_bind, Option.bind_eq_some_iff, St.doMarkRoots,
        Option.map_eq_some_iff] at hr
      obtain ⟨_, ⟨⟨m, t⟩, hscan, rfl⟩, st₂, hfull, e⟩ := hr
      cases e
      have hhead : h.head = st.heap.head := by rw [(Heap.tryStartMarking_true hs).2]; rfl
      rw [hhead] at hscan
      have hstart : Step ⟨st, n, .rest, f⟩ .tryStart _ := Step.tryStart rfl hs
      have hmerge : Step ⟨⟨m, h⟩, n + 1, .scan none t, f⟩ .scanMerge _ := Step.scanMerge rfl
      exact hstart.run.trans ((run_scan fuel _ _ _ hscan).trans (hmerge.run.trans (run_full fuel _ _ hfull)))

theorem run_sweepAndFinish {fuel live : Nat} {st st' : St} (hr : st.sweepAndFinish fuel = some (st', live)) :
    Steps ⟨st, n, .exit, f⟩ ⟨st', n, .rest, f⟩ := by
  simp only [St.sweepAndFinish, St.doSweep, Option.map_eq_some_iff] at hr
  obtain ⟨_, ⟨⟨st₁, freed⟩, hloop, rfl⟩, e⟩ := hr
  cases e
  have hstart : Step ⟨st, n, .exit, f⟩ .startSweeping _ := Step.startSweeping rfl
  obtain ⟨prev, hsweep⟩ := run_sweep (n := n) (f := f) fuel _ _ _ _ hloop
  have hend : Step ⟨st₁, n, .sweep none prev freed, f⟩ .finishSweep _ := Step.finishSweep rfl
  exact hstart.run.trans (hsweep.trans (hend.run.trans (Step.finish rfl).run))

/-- **A cycle that nobody interrupts is `St.forceCollect`.** -/
theorem run_forceCollect {fuel live : Nat} {st st' : St} (hidle : st.heap.phase = .idle)
    (hr : st.forceCollect fuel = some (st', live)) : Steps ⟨st, n, .rest, f⟩ ⟨st', n + 1, .rest, f⟩ := by
  simp only [St.forceCollect, Option.bind_eq_bind, Option.bind_eq_some_iff] at hr
  obtain ⟨⟨st₁, started⟩, hmark, hr⟩ := hr
  cases started with
  | false =>
    simp only [St.tryMarkFull, Heap.tryStartMarking, hidle, ↓reduceIte, Option.bind_eq_bind,
      Option.bind_eq_some_iff] at hmark
    obtain ⟨_, _, _, _, e⟩ := hmark
    cases e
  | true =>
    simp only [↓reduceIte] at hr
    exact (run_markFull hmark).trans (run_sweepAndFinish hr)

end

end Abfall.Barrier
