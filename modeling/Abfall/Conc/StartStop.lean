import Abfall.Transition
import Mathlib.Logic.Function.Basic
import Mathlib.Data.List.Nodup
/-!
# The start/stop protocol of the background thread

| here | there |
| --- | --- |
| `StartStop`     | what the mutex of `StartStopJoinHandle` guards (`heap.rs:27-30`): the counter, and the `JoinHandle` by the generation of its thread |
| `StartStop.start`, `stop`, `isStopped`, `isStarted` | the mutex sections of the methods (`heap.rs:40-86`) |
| `Step.stop`, `Step.join` | the two parts of `stop` (`:52-64`): take the handle and notify, then join without the mutex |
| `Step.waitNow`, `waitPark`, `timeout`, `waitEnd` | `wait_stopped` (`:66-73`): the check, the wait, a timeout, and the return with the mutex held again |

A `StopCondition` is the generation that `start` passes to the new thread, so a call can only name
generations that were created. The condition variable wakes a waiter by `notify_all` or by the
timeout, never spuriously; a waiter that has timed out may find its generation stopped when it gets
the mutex, and still returns `false`.
-/
namespace Abfall
open Transition

structure StartStop where
  counter : Nat
  handle : Option Nat
deriving DecidableEq, Repr

namespace StartStop

def new : StartStop := ⟨0, none⟩

/-- The new generation, if there is one. -/
def start (g : StartStop) : StartStop × Option Nat :=
  if g.handle.isSome then (g, none) else (⟨g.counter + 1, some (g.counter + 1)⟩, some (g.counter + 1))

/-- The generation whose handle was taken, if there is one. -/
def stop (g : StartStop) : StartStop × Option Nat := (⟨g.counter, none⟩, g.handle)

/-- The stop condition of generation `c`. -/
def isStopped (g : StartStop) (c : Nat) : Bool := g.handle.isNone || g.counter != c

def isStarted (g : StartStop) : Bool := g.handle.isSome

end StartStop

namespace StartStop.Proto

abbrev ThreadId := Nat

inductive Pc
  | idle
  /-- In `handle.join()`, with the handle of generation `g`. -/
  | joining (g : Nat)
  /-- Parked in `condvar.wait_for`. -/
  | parked (c : Nat)
  /-- Woken up, and about to take the mutex again. -/
  | woken (c : Nat) (timedOut : Bool)
deriving DecidableEq, Repr

structure Sys where
  guard : StartStop
  pc : ThreadId → Pc

def Sys.setPc (s : Sys) (i : ThreadId) (p : Pc) : Sys := { s with pc := Function.update s.pc i p }

/-- `notify_all`. -/
def Pc.notified : Pc → Pc
  | .parked c => .woken c false
  | p => p

def Sys.notifyAll (s : Sys) : Sys := { s with pc := fun i => (s.pc i).notified }

inductive Label
  /-- `start` returned true and has created this generation. -/
  | started (i : ThreadId) (c : Nat)
  | notStarted (i : ThreadId)
  /-- `stop` has taken the handle of this generation. -/
  | taken (i : ThreadId) (c : Nat)
  | notTaken (i : ThreadId)
  | joined (i : ThreadId) (c : Nat)
  /-- The first section of `wait_stopped` returned true. -/
  | waitNow (i : ThreadId) (c : Nat)
  | waitPark (i : ThreadId) (c : Nat)
  | timeout (i : ThreadId)
  /-- `wait_stopped` returns after its wait. -/
  | waitEnd (i : ThreadId) (c : Nat) (result : Bool)
  | isStopped (i : ThreadId) (c : Nat) (result : Bool)
  | isStarted (i : ThreadId) (result : Bool)
deriving DecidableEq, Repr

/-- `c` is a generation that a `start` has created. -/
def Created (g : StartStop) (c : Nat) : Prop := 1 ≤ c ∧ c ≤ g.counter

inductive Step : Sys → Label → Sys → Prop
  | started {s : Sys} (i : ThreadId) {g : StartStop} {c : Nat} : s.pc i = .idle → s.guard.start = (g, some c) →
      Step s (.started i c) { s with guard := g }
  | notStarted {s : Sys} (i : ThreadId) {g : StartStop} : s.pc i = .idle → s.guard.start = (g, none) →
      Step s (.notStarted i) { s with guard := g }
  | taken {s : Sys} (i : ThreadId) {g : StartStop} {c : Nat} : s.pc i = .idle → s.guard.stop = (g, some c) →
      Step s (.taken i c) (({ s with guard := g } : Sys).notifyAll.setPc i (.joining c))
  | notTaken {s : Sys} (i : ThreadId) {g : StartStop} : s.pc i = .idle → s.guard.stop = (g, none) →
      Step s (.notTaken i) { s with guard := g }
  | joined {s : Sys} (i : ThreadId) {c : Nat} : s.pc i = .joining c → Step s (.joined i c) (s.setPc i .idle)
  | waitNow {s : Sys} (i : ThreadId) {c : Nat} : s.pc i = .idle → Created s.guard c → s.guard.isStopped c = true →
      Step s (.waitNow i c) s
  | waitPark {s : Sys} (i : ThreadId) {c : Nat} : s.pc i = .idle → Created s.guard c → s.guard.isStopped c = false →
      Step s (.waitPark i c) (s.setPc i (.parked c))
  | timeout {s : Sys} (i : ThreadId) {c : Nat} : s.pc i = .parked c →
      Step s (.timeout i) (s.setPc i (.woken c true))
  | waitEnd {s : Sys} (i : ThreadId) {c : Nat} {timedOut : Bool} : s.pc i = .woken c timedOut →
      Step s (.waitEnd i c (!timedOut)) (s.setPc i .idle)
  | isStopped {s : Sys} (i : ThreadId) {c : Nat} : s.pc i = .idle → Created s.guard c →
      Step s (.isStopped i c (s.guard.isStopped c)) s
  | isStarted {s : Sys} (i : ThreadId) : s.pc i = .idle → Step s (.isStarted i s.guard.isStarted) s

/-- `StartStopJoinHandle::new`, with every thread outside. -/
def Start (s : Sys) : Prop := s.guard = StartStop.new ∧ ∀ i, s.pc i = .idle

/-! ## What has happened in a run -/

def Label.starts : Label → Option Nat
  | .started _ c => some c
  | _ => none

def Label.stops : Label → Option Nat
  | .taken _ c => some c
  | _ => none

def Label.joins : Label → Option Nat
  | .joined _ c => some c
  | _ => none

/-- The generations that were created, stopped and joined, in order. -/
def created (tr : List (Sys × Label)) : List Nat := tr.filterMap fun e => e.2.starts

def stopped (tr : List (Sys × Label)) : List Nat := tr.filterMap fun e => e.2.stops

def joined (tr : List (Sys × Label)) : List Nat := tr.filterMap fun e => e.2.joins

/-- A run with the created (`C`), stopped (`T`) and joined (`J`) generations so far. -/
structure Inv (C T J : List Nat) (s : Sys) : Prop where
  created : ∀ c, c ∈ C ↔ Created s.guard c
  nodupC : C.Nodup
  /-- The handle is that of the newest generation. -/
  handle : ∀ c, s.guard.handle = some c → c = s.guard.counter ∧ Created s.guard c
  stopped : ∀ c, c ∈ T ↔ Created s.guard c ∧ s.guard.handle ≠ some c
  nodupT : T.Nodup
  nodupJ : J.Nodup
  /-- A handle is joined by the call that took it, once. -/
  joining : ∀ i c, s.pc i = .joining c → c ∈ T ∧ c ∉ J
  joinedStopped : ∀ c ∈ J, c ∈ T
  apart : ∀ i j c, s.pc i = .joining c → s.pc j = .joining c → i = j
  parked : ∀ i c, s.pc i = .parked c → s.guard.handle = some c
  woken : ∀ i c, s.pc i = .woken c false → c ∈ T

variable {C T J : List Nat} {s s' : Sys} {i j : ThreadId}

theorem setPc_pc (s : Sys) (i : ThreadId) (p : Pc) : (s.setPc i p).pc = Function.update s.pc i p := rfl

theorem isStopped_iff {g : StartStop} {c : Nat} (hh : ∀ c, g.handle = some c → c = g.counter ∧ Created g c) :
    g.isStopped c = false ↔ g.handle = some c := by
  unfold StartStop.isStopped
  cases hg : g.handle with
  | none => simp
  | some d =>
    have hd := (hh d hg).1
    simp only [Option.isNone_some, Bool.false_or, bne_eq_false_iff_eq, Option.some.injEq]
    omega

theorem Start.inv (h : Start s) : Inv [] [] [] s := by
  have hpc : ∀ {i p}, s.pc i = p → p = .idle := fun hp => hp.symm.trans (h.2 _)
  have hnone : ∀ c, ¬ Created s.guard c := by
    rintro c ⟨h1, h2⟩
    rw [h.1] at h2
    simp only [StartStop.new] at h2
    omega
  refine ⟨fun c => ?_, List.nodup_nil, fun c hc => ?_, fun c => ?_, List.nodup_nil, List.nodup_nil, fun i c hp => ?_,
    fun c hc => ?_, fun i j c hp => ?_, fun i c hp => ?_, fun i c hp => ?_⟩
  · simp [hnone c]
  · rw [h.1] at hc; cases hc
  · simp [hnone c]
  · cases hpc hp
  · cases hc
  · cases hpc hp
  · cases hpc hp
  · cases hpc hp

/-- A thread moves outside the mutex. -/
theorem Inv.move {p : Pc} (hi : Inv C T J s) (hj : ∀ c, p ≠ .joining c)
    (hp : ∀ c, p = .parked c → s.guard.handle = some c) (hw : ∀ c, p = .woken c false → c ∈ T) :
    Inv C T J (s.setPc i p) := by
  have hold : ∀ {k q}, (s.setPc i p).pc k = q → (k = i ∧ q = p) ∨ s.pc k = q := by
    intro k q hk
    rcases update_cases id hk with ⟨hki, hk⟩ | ⟨_, hk⟩
    · exact .inl ⟨hki, hk.symm⟩
    · exact .inr hk
  refine ⟨hi.created, hi.nodupC, hi.handle, hi.stopped, hi.nodupT, hi.nodupJ, fun k c hk => ?_, hi.joinedStopped,
    fun k l c hk hl => ?_, fun k c hk => ?_, fun k c hk => ?_⟩
  · rcases hold hk with ⟨_, e⟩ | hk
    · exact absurd e.symm (hj c)
    · exact hi.joining k c hk
  · rcases hold hk with ⟨_, e⟩ | hk
    · exact absurd e.symm (hj c)
    · rcases hold hl with ⟨_, e⟩ | hl
      · exact absurd e.symm (hj c)
      · exact hi.apart k l c hk hl
  · rcases hold hk with ⟨_, e⟩ | hk
    · exact hp c e.symm
    · exact hi.parked k c hk
  · rcases hold hk with ⟨_, e⟩ | hk
    · exact hw c e.symm
    · exact hi.woken k c hk

/-- A successful `start`: the previous generation has been stopped, the new one is the newest. -/
theorem Inv.started {g : StartStop} {c : Nat} (hi : Inv C T J s) (hg : s.guard.start = (g, some c)) :
    Inv (C ++ [c]) T J { s with guard := g } := by
  have hnone : s.guard.handle = none := by
    cases hh : s.guard.handle with
    | none => rfl
    | some d => simp [StartStop.start, hh] at hg
  simp only [StartStop.start, hnone, Option.isSome_none, Bool.false_eq_true, if_false, Prod.mk.injEq,
    Option.some.injEq] at hg
  obtain ⟨rfl, rfl⟩ := hg
  have hcr : ∀ c, Created ⟨s.guard.counter + 1, some (s.guard.counter + 1)⟩ c ↔
      Created s.guard c ∨ c = s.guard.counter + 1 := by
    intro c
    simp only [Created]
    omega
  have hfresh : s.guard.counter + 1 ∉ C := by
    rw [hi.created]
    simp [Created]
  refine ⟨fun c => ?_, ?_, fun c hc => ?_, fun c => ?_, hi.nodupT, hi.nodupJ, hi.joining, hi.joinedStopped, hi.apart,
    fun k c hk => ?_, hi.woken⟩
  · rw [List.mem_append, List.mem_singleton, hi.created, hcr]
  · rw [List.nodup_append]
    exact ⟨hi.nodupC, by simp, by rintro a ha b hb rfl; rw [List.mem_singleton.1 hb] at ha; exact hfresh ha⟩
  · obtain rfl := Option.some.inj hc
    exact ⟨rfl, (hcr _).2 (.inr rfl)⟩
  · rw [hi.stopped c, hcr, hnone]
    simp only [ne_eq, reduceCtorEq, not_false_eq_true, and_true, Option.some.injEq]
    simp only [Created]
    omega
  · have := hi.parked k c hk
    rw [hnone] at this
    cases this

/-- A `stop` that takes the handle: only waiters of that generation are parked, and all are woken. -/
theorem Inv.taken {g : StartStop} {c : Nat} (hi : Inv C T J s) (hg : s.guard.stop = (g, some c)) :
    Inv C (T ++ [c]) J (({ s with guard := g } : Sys).notifyAll.setPc i (.joining c)) := by
  have hh : s.guard.handle = some c := congrArg Prod.snd hg
  obtain rfl : (⟨s.guard.counter, none⟩ : StartStop) = g := congrArg Prod.fst hg
  have hnew : c ∉ T := fun hc => ((hi.stopped c).1 hc).2 hh
  have hcur := hi.handle c hh
  -- where a thread was before
  have hold : ∀ {k q}, (({ s with guard := ⟨s.guard.counter, none⟩ } : Sys).notifyAll.setPc i (.joining c)).pc k = q →
      (k = i ∧ q = .joining c) ∨ (k ≠ i ∧ (s.pc k).notified = q) := by
    intro k q hk
    rcases update_cases id hk with ⟨hki, hk⟩ | hk
    · exact .inl ⟨hki, hk.symm⟩
    · exact .inr hk
  have hjoin : ∀ {k d}, (s.pc k).notified = .joining d → s.pc k = .joining d := by
    intro k d hk
    cases hp : s.pc k with
    | joining e => rw [hp] at hk; exact hk
    | _ => rw [hp] at hk; cases hk
  refine ⟨hi.created, hi.nodupC, fun d hd => ?_, fun d => ?_, ?_, hi.nodupJ, fun k d hk => ?_, fun d hd => ?_,
    fun k l d hk hl => ?_, fun k d hk => ?_, fun k d hk => ?_⟩
  · cases hd
  · rw [List.mem_append, List.mem_singleton, hi.stopped]
    show _ ↔ Created s.guard d ∧ (none : Option Nat) ≠ some d
    rw [hh]
    simp only [ne_eq, Option.some.injEq, reduceCtorEq, not_false_eq_true, and_true]
    constructor
    · rintro (⟨hd, _⟩ | rfl)
      · exact hd
      · exact hcur.2
    · intro hd
      by_cases hdc : d = c
      · exact .inr hdc
      · exact .inl ⟨hd, fun e => hdc e.symm⟩
  · rw [List.nodup_append]
    exact ⟨hi.nodupT, by simp, by rintro a ha b hb rfl; rw [List.mem_singleton.1 hb] at ha; exact hnew ha⟩
  · rcases hold hk with ⟨_, e⟩ | ⟨_, hk⟩
    · cases e
      exact ⟨by simp, fun hc => hnew (hi.joinedStopped c hc)⟩
    · obtain ⟨h1, h2⟩ := hi.joining k d (hjoin hk)
      exact ⟨List.mem_append_left _ h1, h2⟩
  · exact List.mem_append_left _ (hi.joinedStopped d hd)
  · rcases hold hk with ⟨hki, e⟩ | ⟨_, hk⟩ <;> rcases hold hl with ⟨hli, e'⟩ | ⟨_, hl⟩
    · rw [hki, hli]
    · cases e
      exact absurd (hi.joining l c (hjoin hl)).1 hnew
    · cases e'
      exact absurd (hi.joining k c (hjoin hk)).1 hnew
    · exact hi.apart k l d (hjoin hk) (hjoin hl)
  · rcases hold hk with ⟨_, e⟩ | ⟨_, hk⟩
    · cases e
    · cases hp : s.pc k <;> rw [hp] at hk <;> cases hk
  · rcases hold hk with ⟨_, e⟩ | ⟨_, hk⟩
    · cases e
    · cases hp : s.pc k with
      | parked e =>
        rw [hp] at hk
        cases hk
        have := hi.parked k d hp
        rw [hh] at this
        obtain rfl := Option.some.inj this
        simp
      | woken e b =>
        rw [hp] at hk
        cases hk
        exact List.mem_append_left _ (hi.woken k d hp)
      | _ => rw [hp] at hk; cases hk

/-- The call that took a handle has joined its thread. -/
theorem Inv.joined {c : Nat} (hi : Inv C T J s) (hpc : s.pc i = .joining c) : Inv C T (J ++ [c]) (s.setPc i .idle) := by
  have hm := hi.move (i := i) (p := .idle) (fun _ h => by cases h) (fun _ h => by cases h) fun _ h => by cases h
  obtain ⟨hT, hJ⟩ := hi.joining i c hpc
  refine ⟨hm.created, hm.nodupC, hm.handle, hm.stopped, hm.nodupT, ?_, fun k d hk => ?_, fun d hd => ?_, hm.apart,
    hm.parked, hm.woken⟩
  · rw [List.nodup_append]
    exact ⟨hi.nodupJ, by simp, by rintro a ha b hb rfl; rw [List.mem_singleton.1 hb] at ha; exact hJ ha⟩
  · obtain ⟨h1, h2⟩ := hm.joining k d hk
    refine ⟨h1, fun hd => ?_⟩
    rcases List.mem_append.1 hd with hd | hd
    · exact h2 hd
    · obtain rfl := List.mem_singleton.1 hd
      have hki : k ≠ i := by
        rintro rfl
        rw [setPc_pc, Function.update_self] at hk
        cases hk
      rw [setPc_pc, Function.update_of_ne hki] at hk
      exact hki (hi.apart k i d hk hpc)
  · rcases List.mem_append.1 hd with hd | hd
    · exact hi.joinedStopped d hd
    · rw [List.mem_singleton.1 hd]; exact hT

theorem Inv.same (hi : Inv C T J s) {g : StartStop} (hg : g = s.guard) : Inv C T J { s with guard := g } := by
  subst hg
  exact hi

theorem step_inv {l : Label} (hi : Inv C T J s) (h : Step s l s') :
    Inv (C ++ l.starts.toList) (T ++ l.stops.toList) (J ++ l.joins.toList) s' := by
  cases h with
  | started i _ hg => simpa [Label.starts, Label.stops, Label.joins] using hi.started hg
  | @notStarted i g _ hg =>
    have hsame : g = s.guard := by
      unfold StartStop.start at hg
      split at hg <;> cases hg
      rfl
    simpa [Label.starts, Label.stops, Label.joins] using hi.same hsame
  | taken i _ hg => simpa [Label.starts, Label.stops, Label.joins] using hi.taken hg
  | @notTaken i g _ hg =>
    have hnone : s.guard.handle = none := congrArg Prod.snd hg
    have hfst : (⟨s.guard.counter, none⟩ : StartStop) = g := congrArg Prod.fst hg
    have hsame : g = s.guard := by rw [← hfst, ← hnone]
    simpa [Label.starts, Label.stops, Label.joins] using hi.same hsame
  | joined i hpc => simpa [Label.starts, Label.stops, Label.joins] using hi.joined hpc
  | waitNow i => simpa [Label.starts, Label.stops, Label.joins] using hi
  | waitPark i _ _ hst =>
    have := (isStopped_iff hi.handle).1 hst
    have hm := hi.move (i := i) (p := .parked _) (fun _ h => by cases h) (fun d h => by cases h; exact this)
      fun _ h => by cases h
    simpa [Label.starts, Label.stops, Label.joins] using hm
  | @timeout i c _ =>
    have hm := hi.move (i := i) (p := .woken c true) (fun _ h => by cases h) (fun _ h => by cases h)
      fun _ h => by cases h
    simpa [Label.starts, Label.stops, Label.joins] using hm
  | waitEnd i _ =>
    have hm := hi.move (i := i) (p := .idle) (fun _ h => by cases h) (fun _ h => by cases h) fun _ h => by cases h
    simpa [Label.starts, Label.stops, Label.joins] using hm
  | isStopped i => simpa [Label.starts, Label.stops, Label.joins] using hi
  | isStarted i => simpa [Label.starts, Label.stops, Label.joins] using hi

theorem run_inv {s₀ : Sys} {tr : List (Sys × Label)} (h : Run Step s₀ tr s) (h₀ : Start s₀) :
    Inv (created tr) (stopped tr) (StartStop.Proto.joined tr) s := by
  induction h with
  | nil => exact h₀.inv
  | @snoc u v l tr _ hst ih =>
    have hs := step_inv ih hst
    have hfm : ∀ f : Label → Option Nat, (tr ++ [(u, l)]).filterMap (fun e => f e.2) =
        tr.filterMap (fun e => f e.2) ++ (f l).toList := by
      intro f
      cases hf : f l <;> simp [hf]
    simpa only [created, stopped, StartStop.Proto.joined, hfm] using hs

/-- **The start/stop protocol.** In every interleaving the stop condition of a created generation is true
exactly when a `stop` has taken its handle, so it is false until then and true ever after, whatever is
started later. At most one generation is not stopped. Each generation is created by one `start`, and
its handle is taken by at most one `stop` and joined at most once. `wait_stopped` returns true only
for a stopped generation, and for a stopped generation neither it nor `is_stopped` gives any other
answer. -/
theorem start_stop_protocol (s₀ s : Sys) (tr : List (Sys × Label)) (h₀ : Start s₀) (h : Run Step s₀ tr s) :
    (∀ c ∈ created tr, s.guard.isStopped c = true ↔ c ∈ stopped tr) ∧
    (∀ c ∈ created tr, ∀ d ∈ created tr, c ∉ stopped tr → d ∉ stopped tr → c = d) ∧
    (created tr).Nodup ∧ (stopped tr).Nodup ∧ (StartStop.Proto.joined tr).Nodup ∧
    (∀ c ∈ StartStop.Proto.joined tr, c ∈ stopped tr) ∧ (∀ c ∈ stopped tr, c ∈ created tr) ∧
    (∀ l s', Step s l s' → ∀ i c, l = .waitNow i c ∨ l = .waitEnd i c true → c ∈ stopped tr) ∧
    ∀ c ∈ stopped tr, ∀ l s', Step s l s' → ∀ i, l ≠ .waitPark i c ∧ l ≠ .isStopped i c false := by
  have hi := run_inv h h₀
  have hcond : ∀ c, Created s.guard c → (s.guard.isStopped c = true ↔ c ∈ stopped tr) := by
    intro c hc
    rw [hi.stopped c, ← Bool.not_eq_false, isStopped_iff hi.handle]
    simp [hc]
  refine ⟨fun c hc => hcond c ((hi.created c).1 hc), fun c hc d hd hcs hds => ?_, hi.nodupC, hi.nodupT, hi.nodupJ,
    hi.joinedStopped, fun c hc => (hi.created c).2 ((hi.stopped c).1 hc).1, fun l s' hst i c hl => ?_,
    fun c hc l s' hst i => ⟨?_, ?_⟩⟩
  · -- both have the handle
    have hh : ∀ x ∈ created tr, x ∉ stopped tr → s.guard.handle = some x := by
      intro x hx hxs
      by_contra hne
      exact hxs ((hi.stopped x).2 ⟨(hi.created x).1 hx, hne⟩)
    exact Option.some.inj ((hh c hc hcs).symm.trans (hh d hd hds))
  · rcases hl with rfl | rfl
    · cases hst with
      | waitNow _ _ hc hstop => exact (hcond c hc).1 hstop
    · generalize hb : true = b at hst
      cases hst with
      | @waitEnd _ _ timedOut hpc =>
        obtain rfl : timedOut = false := by simpa using hb
        exact hi.woken i c hpc
  · rintro rfl
    cases hst with
    | waitPark _ _ hcr hstop =>
      rw [(hcond c hcr).2 hc] at hstop
      cases hstop
  · rintro rfl
    generalize hb : false = b at hst
    cases hst with
    | isStopped _ _ hcr =>
      rw [(hcond c hcr).2 hc] at hb
      cases hb

/-- Thread `1` waits for the end of generation 1. Thread `2` stops it, and thread `0` starts generation 2
before thread `1` has the mutex again: its wait still reports the stop. -/
theorem start_stop_protocol_restart : ∃ (s₀ s s' : Sys) (tr : List (Sys × Label)), Start s₀ ∧ Run Step s₀ tr s ∧
    created tr = [1, 2] ∧ s.guard.isStopped 2 = false ∧ s.guard.isStopped 1 = true ∧
    Step s (.waitEnd 1 1 true) s' ∧ 1 ∈ stopped tr := by
  let s₀ : Sys := ⟨.new, fun _ => .idle⟩
  have h₀ : Start s₀ := ⟨rfl, fun _ => rfl⟩
  have r₁ := Run.snoc (Run.nil s₀) (Step.started 0 rfl rfl)
  have r₂ := r₁.snoc (Step.waitPark 1 rfl ⟨Nat.le_refl 1, Nat.le_refl 1⟩ rfl)
  have r₃ := r₂.snoc (Step.taken 2 rfl rfl)
  have r₄ := r₃.snoc (Step.started 0 rfl rfl)
  have hproto := start_stop_protocol s₀ _ _ h₀ r₄
  refine ⟨s₀, _, _, _, h₀, r₄, rfl, rfl, (hproto.1 1 (by decide)).2 (by decide), @Step.waitEnd _ 1 1 false rfl, ?_⟩
  exact hproto.2.2.2.2.2.2.2.1 _ _ (@Step.waitEnd _ 1 1 false rfl) 1 1 (.inr rfl)

end StartStop.Proto
end Abfall
