import Abfall.Basic
import Abfall.Conc.StartStop
/-!
# How `background_gc_thread` stops

| here | there |
| --- | --- |
| `Thread`, `Local` | `background_gc_thread` (`heap.rs:614-649`): the points at which it looks at the guard or the phase, and the steps between them |
| `Local.wait`, `Step.timeout`, `Local.wake` | `wait_stopped` (`:66-73`), as in `Abfall.Conc.StartStop` |
| `Local.check`, `Local.abort` | `is_stopped` at the head of the marking loop, `finish_gc` and the return (`:629-632`) |
| `Step.started`, `taken`, `joined` | `start` and `stop` (`:40-64`); a join returns when the thread is done |
| `Step.other`      | what `force_collect` of another thread does to the phase |

What marking finds, whether a collection is due and whether a mutator is busy are left open: a step may go either
way. There may be several threads at a time, one for each generation, since a new one can be started
before the old one is joined.

`stop_is_prompt` is about the time between `stop` taking the handle and its join: the thread can always go on, and
after at most six more steps it is done. A timeout that comes just before the stop makes `wait_stopped` return false
(`:71-72`), so the thread may even begin a cycle, but only to abort it at the first check.
-/
namespace Abfall.Background
open Transition

abbrev ThreadId := Nat

/-- Where a background thread stands. -/
inductive Thread
  | absent
  /-- About to call `wait_stopped`. -/
  | waiting
  | parked
  | woken (timedOut : Bool)
  /-- `wait_stopped` has returned false. -/
  | deciding
  | scanning
  /-- At the head of the marking loop. -/
  | checking
  | aborting
  | marking
  /-- Marking has found nothing; `yield_once_if_marking_busy`. -/
  | busyTest
  | sweeping
  /-- In the loop of `do_sweep`. -/
  | walking
  /-- `do_sweep` has returned. -/
  | finishing
  | done
deriving DecidableEq, Repr

inductive Act
  | wait
  | wake
  | skip
  | begin
  | scan
  | check
  | abort
  | mark (complete : Bool)
  | busy (yielded : Bool)
  | startSweep
  | endSweep
  | finish
deriving DecidableEq, Repr

/-- One step of a thread that sees its generation `stopped` or not, with the phase before and after. -/
inductive Local (stopped : Bool) : GcPhase → Thread → Act → Thread → GcPhase → Prop
  | wait {p : GcPhase} : Local stopped p .waiting .wait (if stopped then .done else .parked) p
  | wake {p : GcPhase} {timedOut : Bool} :
      Local stopped p (.woken timedOut) .wake (if timedOut then .deciding else .done) p
  | skip {p : GcPhase} : Local stopped p .deciding .skip .waiting p
  | begin : Local stopped .idle .deciding .begin .scanning .marking
  | scan {p : GcPhase} : Local stopped p .scanning .scan .checking p
  | check {p : GcPhase} : Local stopped p .checking .check (if stopped then .aborting else .marking) p
  | abort {p : GcPhase} : Local stopped p .aborting .abort .done .idle
  | mark {p : GcPhase} (complete : Bool) :
      Local stopped p .marking (.mark complete) (if complete then .busyTest else .checking) p
  | busy {p : GcPhase} (yielded : Bool) :
      Local stopped p .busyTest (.busy yielded) (if yielded then .checking else .sweeping) p
  | startSweep {p : GcPhase} : Local stopped p .sweeping .startSweep .walking .sweeping
  | endSweep {p : GcPhase} : Local stopped p .walking .endSweep .finishing .idle
  | finish {p : GcPhase} : Local stopped p .finishing .finish .waiting .idle

inductive Caller
  | idle
  | joining (c : Nat)
deriving DecidableEq, Repr

structure Sys where
  guard : StartStop
  phase : GcPhase
  /-- By generation. -/
  thread : Nat → Thread
  caller : ThreadId → Caller

def Thread.notified : Thread → Thread
  | .parked => .woken false
  | t => t

inductive Label
  | started (i : ThreadId) (c : Nat)
  | taken (i : ThreadId) (c : Nat)
  | joined (i : ThreadId) (c : Nat)
  | timeout (c : Nat)
  | bg (c : Nat) (act : Act)
  | other (phase : GcPhase)
deriving DecidableEq, Repr

inductive Step : Sys → Label → Sys → Prop
  | started {s : Sys} (i : ThreadId) {g : StartStop} {c : Nat} : s.caller i = .idle → s.guard.start = (g, some c) →
      Step s (.started i c) { s with guard := g, thread := Function.update s.thread c .waiting }
  | taken {s : Sys} (i : ThreadId) {g : StartStop} {c : Nat} : s.caller i = .idle → s.guard.stop = (g, some c) →
      Step s (.taken i c) { s with
        guard := g
        thread := fun b => (s.thread b).notified
        caller := Function.update s.caller i (.joining c) }
  | joined {s : Sys} (i : ThreadId) {c : Nat} : s.caller i = .joining c → s.thread c = .done →
      Step s (.joined i c) { s with caller := Function.update s.caller i .idle }
  | timeout {s : Sys} {c : Nat} : s.thread c = .parked →
      Step s (.timeout c) { s with thread := Function.update s.thread c (.woken true) }
  | bg {s : Sys} {c : Nat} {act : Act} {t : Thread} {p : GcPhase} :
      Local (s.guard.isStopped c) s.phase (s.thread c) act t p →
      Step s (.bg c act) { s with phase := p, thread := Function.update s.thread c t }
  | other {s : Sys} (p : GcPhase) : Step s (.other p) { s with phase := p }

def Start (s : Sys) : Prop :=
  s.guard = StartStop.new ∧ (∀ c, s.thread c = .absent) ∧ ∀ i, s.caller i = .idle

/-! ## The guard and the threads -/

structure Inv (s : Sys) : Prop where
  handle : ∀ g, s.guard.handle = some g → g = s.guard.counter ∧ s.thread g ≠ .absent
  created : ∀ c, s.thread c ≠ .absent → c ≤ s.guard.counter
  /-- Who is parked will be notified. -/
  parked : ∀ c, s.thread c = .parked → s.guard.isStopped c = false

/-- A thread whose handle was taken. -/
structure Stopped (c : Nat) (s : Sys) : Prop where
  inv : Inv s
  stopped : s.guard.isStopped c = true
  present : s.thread c ≠ .absent

theorem inv_start {s : Sys} (h : Start s) : Inv s := by
  obtain ⟨hg, ht, _⟩ := h
  refine ⟨fun g hh => ?_, fun c hc => absurd (ht c) hc, fun c hc => ?_⟩
  · rw [hg] at hh
    cases hh
  · rw [ht c] at hc
    cases hc

theorem start_some {g g' : StartStop} {c : Nat} (h : g.start = (g', some c)) :
    g.handle = none ∧ c = g.counter + 1 ∧ g' = ⟨c, some c⟩ := by
  unfold StartStop.start at h
  split at h
  · cases h
  · rename_i hno
    cases h
    exact ⟨by simpa using hno, rfl, rfl⟩

theorem stop_some {g g' : StartStop} {c : Nat} (h : g.stop = (g', some c)) : g.handle = some c ∧ g' = ⟨g.counter, none⟩ := by
  unfold StartStop.stop at h
  cases hh : g.handle with
  | none => rw [hh] at h; cases h
  | some d => rw [hh] at h; cases h; exact ⟨rfl, rfl⟩

theorem local_present {stopped : Bool} {p p' : GcPhase} {t t' : Thread} {act : Act} (h : Local stopped p t act t' p') :
    t ≠ .absent ∧ t' ≠ .absent ∧ (t' = .parked → stopped = false) := by
  cases h with
  | wait => cases stopped <;> simp
  | @wake _ timedOut => cases timedOut <;> simp
  | check => cases stopped <;> simp
  | mark complete => cases complete <;> simp
  | busy yielded => cases yielded <;> simp
  | _ => simp

theorem notified_eq {t : Thread} : t.notified ≠ .parked ∧ (t.notified = .absent ↔ t = .absent) := by
  cases t <;> simp [Thread.notified]

theorem step_inv {s s' : Sys} {l : Label} (hi : Inv s) (h : Step s l s') : Inv s' := by
  cases h with
  | @started i g c _ hst =>
    obtain ⟨hnone, rfl, rfl⟩ := start_some hst
    refine ⟨fun g hg => ?_, fun c hc => ?_, fun c hc => ?_⟩
    · cases hg
      exact ⟨rfl, by simp⟩
    · by_cases hcc : c = s.guard.counter + 1
      · exact Nat.le_of_eq hcc
      · have := hi.created c (by simpa [Function.update_of_ne hcc] using hc)
        show c ≤ s.guard.counter + 1
        omega
    · -- the generation before was stopped, so nobody is parked
      by_cases hcc : c = s.guard.counter + 1
      · simp [hcc] at hc
      · have := hi.parked c (by simpa [Function.update_of_ne hcc] using hc)
        simp [StartStop.isStopped, hnone] at this
  | @taken i g c _ hst =>
    obtain ⟨_, rfl⟩ := stop_some hst
    refine ⟨fun g hg => (by cases hg), fun c hc => hi.created c fun e => hc (notified_eq.2.2 e), fun c hc => ?_⟩
    exact absurd hc notified_eq.1
  | joined => exact ⟨hi.handle, hi.created, hi.parked⟩
  | @timeout c hp =>
    refine ⟨fun g hg => ?_, fun b hb => ?_, fun b hb => ?_⟩
    · obtain ⟨e, hne⟩ := hi.handle g hg
      refine ⟨e, ?_⟩
      by_cases hgc : g = c
      · simp [hgc]
      · simpa [Function.update_of_ne hgc] using hne
    · by_cases hbc : b = c
      · exact hi.created b (by rw [hbc, hp]; decide)
      · exact hi.created b (by simpa [Function.update_of_ne hbc] using hb)
    · by_cases hbc : b = c
      · simp [hbc] at hb
      · exact hi.parked b (by simpa [Function.update_of_ne hbc] using hb)
  | @bg c act t p hl =>
    obtain ⟨hpre, hpost, hpark⟩ := local_present hl
    refine ⟨fun g hg => ?_, fun b hb => ?_, fun b hb => ?_⟩
    · obtain ⟨e, hne⟩ := hi.handle g hg
      refine ⟨e, ?_⟩
      by_cases hgc : g = c
      · simpa [hgc] using hpost
      · simpa [Function.update_of_ne hgc] using hne
    · by_cases hbc : b = c
      · exact hi.created b (by rw [hbc]; exact hpre)
      · exact hi.created b (by simpa [Function.update_of_ne hbc] using hb)
    · by_cases hbc : b = c
      · subst hbc
        exact hpark (by simpa using hb)
      · exact hi.parked b (by simpa [Function.update_of_ne hbc] using hb)
  | other => exact ⟨hi.handle, hi.created, hi.parked⟩

/-- A stopped generation stays stopped. -/
theorem stopped_step {s s' : Sys} {l : Label} {c : Nat} (h : Stopped c s) (hst : Step s l s') : Stopped c s' := by
  refine ⟨step_inv h.inv hst, ?_, ?_⟩
  · cases hst with
    | @started i g d _ hst =>
      obtain ⟨_, rfl, rfl⟩ := start_some hst
      have hle := h.inv.created c h.present
      have hne : s.guard.counter + 1 ≠ c := by omega
      simp [StartStop.isStopped, hne]
    | @taken i g d _ hst =>
      obtain ⟨_, rfl⟩ := stop_some hst
      simp [StartStop.isStopped]
    | _ => exact h.stopped
  · cases hst with
    | @started i g d _ hst =>
      by_cases hcd : c = d
      · simp [hcd]
      · simpa [Function.update_of_ne hcd] using h.present
    | @taken i g d _ hst => exact fun e => h.present (notified_eq.2.1 e)
    | @timeout d hp =>
      by_cases hcd : c = d
      · simp [hcd]
      · simpa [Function.update_of_ne hcd] using h.present
    | @bg d act t p hl =>
      by_cases hcd : c = d
      · simpa [hcd] using (local_present hl).2.1
      · simpa [Function.update_of_ne hcd] using h.present
    | _ => exact h.present

/-! ## The rest of a stopped thread's way -/

/-- The steps a stopped thread makes at most. -/
def Thread.rank : Thread → Nat
  | .marking => 6
  | .busyTest => 5
  | .sweeping => 4
  | .walking => 3
  | .finishing => 2
  | .woken true => 5
  | .deciding => 4
  | .scanning => 3
  | .checking => 2
  | .aborting => 1
  | .waiting => 1
  | .woken false => 1
  | _ => 0

/-- Whether it can still begin a cycle or sweep one. -/
def Thread.cycles : Thread → Nat
  | .woken true => 1
  | .deciding => 1
  | .marking => 1
  | .busyTest => 1
  | .sweeping => 1
  | _ => 0

def Thread.marks : Thread → Nat
  | .marking => 1
  | _ => 0

def Act.marks : Act → Nat
  | .mark _ => 1
  | _ => 0

/-- The first step of a cycle, or of its sweep. -/
def Act.cycles : Act → Nat
  | .begin => 1
  | .startSweep => 1
  | _ => 0

/-- What the steps of thread `c` weigh. -/
def Label.weight (c : Nat) (w : Act → Nat) : Label → Nat
  | .bg b act => if b = c then w act else 0
  | _ => 0

def total (c : Nat) (w : Act → Nat) (tr : List (Sys × Label)) : Nat := (tr.map fun e => e.2.weight c w).sum

/-- A potential of a stopped thread bounds what its steps weigh: nobody else moves it. -/
theorem total_le {c : Nat} (w : Act → Nat) (pot : Thread → Nat)
    (hl : ∀ p t act t' p', Local true p t act t' p' → w act + pot t' ≤ pot t) {s t : Sys} {tr : List (Sys × Label)}
    (hs : Stopped c s) (h : Run Step s tr t) : total c w tr + pot (t.thread c) ≤ pot (s.thread c) := by
  have hstep : ∀ s l s', Stopped c s → Step s l s' →
      Stopped c s' ∧ l.weight c w + pot (s'.thread c) ≤ pot (s.thread c) + 0 := by
    intro s l s' hi hst
    refine ⟨stopped_step hi hst, ?_⟩
    have hpark : s.thread c ≠ .parked := fun e => by have := hi.inv.parked c e; simp [hi.stopped] at this
    cases hst with
    | @started i g d _ hst =>
      obtain ⟨_, rfl, _⟩ := start_some hst
      have hle := hi.inv.created c hi.present
      have hne : c ≠ s.guard.counter + 1 := by omega
      simp [Label.weight, Function.update_of_ne hne]
    | taken =>
      have hsame : (s.thread c).notified = s.thread c := by
        cases ht : s.thread c with
        | parked => exact absurd ht hpark
        | _ => rfl
      simp [Label.weight, hsame]
    | @timeout d hp =>
      have hne : c ≠ d := fun e => hpark (by rw [e]; exact hp)
      simp [Label.weight, Function.update_of_ne hne]
    | @bg d act t p hlocal =>
      by_cases hcd : d = c
      · subst hcd
        rw [hi.stopped] at hlocal
        simpa [Label.weight] using hl _ _ _ _ _ hlocal
      · simp [Label.weight, hcd, Function.update_of_ne (Ne.symm hcd)]
    | _ => simp [Label.weight]
  have hrun := (h.potential (I := Stopped c) (fun _ l => l.weight c w) (fun _ _ => 0) (fun s => pot (s.thread c)) hstep hs).2
  simpa [total] using hrun

theorem local_measures {p p' : GcPhase} {t t' : Thread} {act : Act} (h : Local true p t act t' p') :
    1 + t'.rank ≤ t.rank ∧ act.marks + t'.marks ≤ t.marks ∧ act.cycles + t'.cycles ≤ t.cycles := by
  cases h with
  | @wake _ timedOut => cases timedOut <;> decide
  | mark complete => cases complete <;> decide
  | busy yielded => cases yielded <;> decide
  | _ => decide

theorem measures_le (t : Thread) : t.rank ≤ 6 ∧ t.marks ≤ 1 ∧ t.cycles ≤ 1 := by
  cases t with
  | woken timedOut => cases timedOut <;> decide
  | _ => decide

/-- A thread that is neither parked nor done can go on. -/
theorem local_enabled (stopped : Bool) (p : GcPhase) {t : Thread} (hp : t ≠ .parked) (hd : t ≠ .done) (ha : t ≠ .absent) :
    ∃ act t' p', Local stopped p t act t' p' := by
  cases t with
  | absent => exact absurd rfl ha
  | parked => exact absurd rfl hp
  | done => exact absurd rfl hd
  | waiting => exact ⟨_, _, _, .wait⟩
  | woken timedOut => exact ⟨_, _, _, .wake⟩
  | deciding => exact ⟨_, _, _, .skip⟩
  | scanning => exact ⟨_, _, _, .scan⟩
  | checking => exact ⟨_, _, _, .check⟩
  | aborting => exact ⟨_, _, _, .abort⟩
  | marking => exact ⟨_, _, _, .mark true⟩
  | busyTest => exact ⟨_, _, _, .busy true⟩
  | sweeping => exact ⟨_, _, _, .startSweep⟩
  | walking => exact ⟨_, _, _, .endSweep⟩
  | finishing => exact ⟨_, _, _, .finish⟩

theorem stopped_of_taken {s s' : Sys} {i : ThreadId} {c : Nat} (hi : Inv s) (h : Step s (.taken i c) s') : Stopped c s' := by
  refine ⟨step_inv hi h, ?_, ?_⟩
  · cases h with
    | taken _ _ hst =>
      obtain ⟨_, rfl⟩ := stop_some hst
      simp [StartStop.isStopped]
  · cases h with
    | taken _ _ hst =>
      obtain ⟨hh, _⟩ := stop_some hst
      exact fun e => (hi.handle c hh).2 (notified_eq.2.1 e)

/-- **`stop` is prompt.** Once a `stop` has taken the handle of generation `c`, whatever the other threads do, the thread
of `c` makes at most six more steps, of which at most one is a marking call, and it begins one more cycle or
sweeps the one it is in, but not both. Until it is done it can always make its next step, and when it is done
the join returns. -/
theorem stop_is_prompt (s s' t : Sys) (i : ThreadId) (c : Nat) (tr : List (Sys × Label)) (hs : Reach Step Start s)
    (hst : Step s (.taken i c) s') (h : Run Step s' tr t) :
    total c (fun _ => 1) tr ≤ 6 ∧ total c Act.marks tr ≤ 1 ∧ total c Act.cycles tr ≤ 1 ∧
    (t.thread c ≠ .done → ∃ act t', Step t (.bg c act) t') ∧
    (t.thread c = .done → t.caller i = .joining c → ∃ t', Step t (.joined i c) t') := by
  have hi : Inv s := hs.inv (I := Inv) (fun _ => inv_start) fun _ _ _ => step_inv
  have hstop : Stopped c s' := stopped_of_taken hi hst
  have hend : Stopped c t := h.keeps (I := Stopped c) (fun _ _ _ hs hst => stopped_step hs hst) hstop
  have hrank := total_le (fun _ => 1) Thread.rank (fun _ _ _ _ _ hl => (local_measures hl).1) hstop h
  have hmarks := total_le Act.marks Thread.marks (fun _ _ _ _ _ hl => (local_measures hl).2.1) hstop h
  have hcycles := total_le Act.cycles Thread.cycles (fun _ _ _ _ _ hl => (local_measures hl).2.2) hstop h
  obtain ⟨hr, hm, hc⟩ := measures_le (s'.thread c)
  refine ⟨by omega, by omega, by omega, fun hd => ?_, fun hd hj => ⟨_, .joined i hj hd⟩⟩
  have hpark : t.thread c ≠ .parked := fun e => by have := hend.inv.parked c e; simp [hend.stopped] at this
  obtain ⟨act, t', p', hl⟩ := local_enabled (t.guard.isStopped c) t.phase hpark hd hend.present
  exact ⟨act, _, .bg hl⟩

/-- The wait times out just before the stop: the thread begins a cycle, aborts it, and is joined. -/
theorem stop_is_prompt_timeout : ∃ (s s' t : Sys) (tr : List (Sys × Label)), Reach Step Start s ∧
    Step s (.taken 0 1) s' ∧ Run Step s' tr t ∧ total 1 (fun _ => 1) tr = 5 ∧ total 1 Act.cycles tr = 1 ∧
    t.phase = .idle ∧ ∃ t', Step t (.joined 0 1) t' := by
  let s₁ : Sys := ⟨⟨1, some 1⟩, .idle, Function.update (fun _ => .absent) 1 .waiting, fun _ => .idle⟩
  have h₁ : Reach Step Start s₁ :=
    .step (.init ⟨rfl, fun _ => rfl, fun _ => rfl⟩) (.started (s := ⟨.new, .idle, fun _ => .absent, fun _ => .idle⟩) 0 rfl rfl)
  let s₂ : Sys := { s₁ with thread := Function.update s₁.thread 1 .parked }
  have h₂ : Reach Step Start s₂ := h₁.step (.bg (c := 1) .wait)
  let s₃ : Sys := { s₂ with thread := Function.update s₂.thread 1 (.woken true) }
  have h₃ : Reach Step Start s₃ := h₂.step (.timeout (c := 1) rfl)
  -- the handle is taken while the thread is about to return from its wait
  let s' : Sys := ⟨⟨1, none⟩, .idle, fun b => (s₃.thread b).notified, Function.update s₃.caller 0 (.joining 1)⟩
  have ht : Step s₃ (.taken 0 1) s' := .taken 0 rfl rfl
  have r₁ : Run Step s' _ _ := .snoc (.nil _) (.bg (c := 1) (t := .deciding) .wake)
  have r₂ : Run Step s' _ _ := r₁.snoc (.bg (c := 1) (t := .scanning) .begin)
  have r₃ : Run Step s' _ _ := r₂.snoc (.bg (c := 1) (t := .checking) .scan)
  have r₄ : Run Step s' _ _ := r₃.snoc (.bg (c := 1) (t := .aborting) .check)
  have r₅ : Run Step s' _ _ := r₄.snoc (.bg (c := 1) (t := .done) .abort)
  refine ⟨s₃, s', _, _, h₃, ht, r₅, rfl, rfl, rfl, ?_⟩
  exact (stop_is_prompt s₃ s' _ 0 1 _ h₃ ht r₅).2.2.2.2 rfl rfl

end Abfall.Background
