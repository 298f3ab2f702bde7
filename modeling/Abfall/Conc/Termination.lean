import Abfall.Conc.Worker
/-!
# Leaving the marking loop

The collector ends marking after two observations: a call of `do_mark_with_tracer` that found no work,
and then `n_busy_marking == 0` (`heap.rs:486-501`, `:634-643`). Assisting allocators and write barriers
count themselves in before they check the phase and out after they have merged
(`check_is_marking_and_increment_busy`, `decrement_busy_marking`, `heap.rs:362-374`).

| here | there |
| --- | --- |
| `CollectorPc.scan p t` | `do_mark_roots`: the list from `p` on is still to be scanned |
| `CollectorPc.call w`   | inside `do_mark_with_tracer` |
| `CollectorPc.busyLoad` | the call returned 0, `yield_once_if_marking_busy` is next |
| `CollectorPc.exit`     | 0 was loaded: out of the loop, `start_sweeping` is next |
| `ThreadPc.assist w`    | the mutator assist of `allocate` (`heap.rs:282-285`), Marking was seen |
| `ThreadPc.shade`, `merge` | `GcCell::set` (`cell.rs:50-55`): `new_ref.trace`, `merge_work`, Marking was seen |

A thread can shade, merge and count itself out between the two observations, or come in and still see
Marking after them. `quiet_iff` says that these are the only two ways in which work is left behind.
-/
namespace Abfall.Termination
open Transition

abbrev ThreadId := Nat

inductive CollectorPc
  | rest
  | scan (current : Option Addr) (tracer : Tracer)
  | call (w : Worker)
  | busyLoad
  | exit
  | swept
deriving DecidableEq, Repr

/-- What a thread enters its section for. -/
inductive Section
  | assist (workBudget : Nat)
  | barrier (vals : List Addr)
deriving DecidableEq, Repr

inductive ThreadPc
  | out
  /-- Counted in; the phase check is next. -/
  | entered (k : Section)
  /-- The phase was not Marking; counting out is next. -/
  | refused
  | assist (w : Worker)
  | shade (vals : List Addr) (localGray : Tracer)
  | merge (localGray : Tracer)
  /-- `decrement_busy_marking` is next. -/
  | leave
deriving DecidableEq, Repr

structure Sys where
  head : Option Addr
  shared : Shared
  phase : GcPhase
  nBusyMarking : Nat
  collector : CollectorPc
  threads : ThreadId → ThreadPc

/-- What the collector holds. -/
def CollectorPc.held : CollectorPc → List Addr
  | .scan _ t => t
  | .call w => w.held
  | _ => []

/-- What a thread holds in its local tracer or is processing. -/
def ThreadPc.held : ThreadPc → List Addr
  | .assist w => w.held
  | .shade _ t => t
  | .merge t => t
  | _ => []

/-- Inside a section, and the phase check saw Marking. -/
def ThreadPc.SawMarking : ThreadPc → Prop
  | .assist _ | .shade _ _ | .merge _ | .leave => True
  | _ => False

namespace Sys

def setThread (s : Sys) (i : ThreadId) (p : ThreadPc) : Sys := { s with threads := Function.update s.threads i p }

theorem setThread_threads (s : Sys) (i : ThreadId) (p : ThreadPc) :
    (s.setThread i p).threads = Function.update s.threads i p := rfl

def setCollector (s : Sys) (p : CollectorPc) : Sys := { s with collector := p }

def setShared (s : Sys) (sh : Shared) : Sys := { s with shared := sh }

def setBusy (s : Sys) (n : Nat) : Sys := { s with nBusyMarking := n }

end Sys

inductive Label
  | tryStart
  | scan
  | scanMerge (workBudget : Nat)
  | work
  | again (workBudget : Nat)
  | noWork
  | busyLoad (workBudget : Nat)
  | startSweeping
  | enter (i : ThreadId) (k : Section)
  | check (i : ThreadId)
  | run (i : ThreadId)
  | leave (i : ThreadId)

inductive Step : Sys → Label → Sys → Prop
  | tryStart {s : Sys} : s.collector = .rest → s.phase = .idle →
      Step s .tryStart ({ s with phase := .marking }.setCollector (.scan s.head []))
  | scan {s : Sys} {a : Addr} {t : Tracer} : s.collector = .scan (some a) t →
      Step s .scan ((s.setShared ⟨(s.shared.mem.scanRoot t a).1, s.shared.queue⟩).setCollector
        (.scan (s.shared.mem.next a) (s.shared.mem.scanRoot t a).2))
  | scanMerge {s : Sys} {t : Tracer} (b : Nat) : 1 ≤ b → s.collector = .scan none t →
      Step s (.scanMerge b) ((s.setShared ⟨s.shared.mem, t ++ s.shared.queue⟩).setCollector (.call (.call [] b)))
  | work {s : Sys} {sh' : Shared} {w w' : Worker} : s.collector = .call w → Worker.Step s.shared w sh' w' →
      Step s .work ((s.setShared sh').setCollector (.call w'))
  | again {s : Sys} {w : Worker} (b : Nat) : 1 ≤ b → s.collector = .call w → w.pc = .ret → 0 < w.workDone →
      Step s (.again b) (s.setCollector (.call (.call [] b)))
  | noWork {s : Sys} {w : Worker} : s.collector = .call w → w.pc = .ret → w.workDone = 0 →
      Step s .noWork (s.setCollector .busyLoad)
  | busy {s : Sys} (b : Nat) : 1 ≤ b → s.collector = .busyLoad → 0 < s.nBusyMarking →
      Step s (.busyLoad b) (s.setCollector (.call (.call [] b)))
  | quiet {s : Sys} (b : Nat) : s.collector = .busyLoad → s.nBusyMarking = 0 →
      Step s (.busyLoad b) (s.setCollector .exit)
  | startSweeping {s : Sys} : s.collector = .exit →
      Step s .startSweeping ({ s with phase := .sweeping }.setCollector .swept)
  | enter {s : Sys} (i : ThreadId) (k : Section) : s.threads i = .out →
      Step s (.enter i k) ((s.setBusy (s.nBusyMarking + 1)).setThread i (.entered k))
  | seenAssist {s : Sys} (i : ThreadId) {b : Nat} : s.threads i = .entered (.assist b) → s.phase = .marking →
      Step s (.check i) (s.setThread i (.assist (.call [] b)))
  | seenBarrier {s : Sys} (i : ThreadId) {vals : List Addr} : s.threads i = .entered (.barrier vals) →
      s.phase = .marking → Step s (.check i) (s.setThread i (.shade vals []))
  | refused {s : Sys} (i : ThreadId) {k : Section} : s.threads i = .entered k → s.phase ≠ .marking →
      Step s (.check i) (s.setThread i .refused)
  | assist {s : Sys} {sh' : Shared} {w w' : Worker} (i : ThreadId) : s.threads i = .assist w →
      Worker.Step s.shared w sh' w' → Step s (.run i) ((s.setShared sh').setThread i (.assist w'))
  | assisted {s : Sys} {w : Worker} (i : ThreadId) : s.threads i = .assist w → w.pc = .ret →
      Step s (.run i) (s.setThread i .leave)
  | shade {s : Sys} (i : ThreadId) {v : Addr} {vals : List Addr} {t : Tracer} : s.threads i = .shade (v :: vals) t →
      Step s (.run i) ((s.setShared ⟨(s.shared.mem.mark t v).1, s.shared.queue⟩).setThread i
        (.shade vals (s.shared.mem.mark t v).2))
  | shaded {s : Sys} (i : ThreadId) {t : Tracer} : s.threads i = .shade [] t → Step s (.run i) (s.setThread i (.merge t))
  | merge {s : Sys} (i : ThreadId) {t : Tracer} : s.threads i = .merge t →
      Step s (.run i) ((s.setShared ⟨s.shared.mem, t ++ s.shared.queue⟩).setThread i .leave)
  | leave {s : Sys} (i : ThreadId) : s.threads i = .leave ∨ s.threads i = .refused →
      Step s (.leave i) ((s.setBusy (s.nBusyMarking - 1)).setThread i .out)

/-- Before a cycle: any graph and any colors, what is Gray is queued, and no thread is in a section. -/
structure Start (s : Sys) : Prop where
  gray : ∀ x, s.shared.mem.color x = .gray → x ∈ s.shared.queue
  phase : s.phase = .idle
  busy : s.nBusyMarking = 0
  collector : s.collector = .rest
  threads : ∀ i, s.threads i = .out

/-- When the collector has left the loop: nothing is queued, no thread holds anything, no object is
Gray, and no thread that has seen Marking is still inside. -/
def Quiet (s : Sys) : Prop := s.collector = .exit →
  s.shared.queue = [] ∧ (∀ i, (s.threads i).held = []) ∧ (∀ x, s.shared.mem.color x ≠ .gray) ∧
  ∀ i, ¬ (s.threads i).SawMarking

/-- The collector reads 0 only when nothing is queued, and no phase check sees Marking once it has. -/
def InTime (s : Sys) : Label → Prop
  | .busyLoad _ => s.nBusyMarking = 0 → s.shared.queue = []
  | .check _ => s.phase = .marking → s.collector ≠ .exit
  | _ => True

/-! ## Counting -/

/-- The counter counts the threads inside a section. -/
def Counted (threads : ThreadId → ThreadPc) (n : Nat) : Prop :=
  ∃ S : Finset ThreadId, (∀ i, i ∈ S ↔ threads i ≠ .out) ∧ S.card = n

section
variable {threads : ThreadId → ThreadPc} {n : Nat} {i : ThreadId} {p : ThreadPc}

theorem Counted.enter (h : Counted threads n) (hi : threads i = .out) (hp : p ≠ .out) :
    Counted (Function.update threads i p) (n + 1) := by
  obtain ⟨S, hS, hn⟩ := h
  have hi' : i ∉ S := fun hm => (hS i).1 hm hi
  refine ⟨insert i S, fun j => ?_, by rw [Finset.card_insert_of_notMem hi', hn]⟩
  by_cases hj : j = i
  · subst hj; simp [hp]
  · simp [hj, hS]

theorem Counted.leave (h : Counted threads n) (hi : threads i ≠ .out) :
    Counted (Function.update threads i .out) (n - 1) := by
  obtain ⟨S, hS, hn⟩ := h
  refine ⟨S.erase i, fun j => ?_, by rw [Finset.card_erase_of_mem ((hS i).2 hi), hn]⟩
  by_cases hj : j = i
  · subst hj; simp
  · simp [hj, hS]

theorem Counted.stay (h : Counted threads n) (hi : threads i ≠ .out) (hp : p ≠ .out) :
    Counted (Function.update threads i p) n := by
  obtain ⟨S, hS, hn⟩ := h
  refine ⟨S, fun j => ?_, hn⟩
  by_cases hj : j = i
  · subst hj; simp [hS, hi, hp]
  · simp [hj, hS]

theorem Counted.none_inside (h : Counted threads 0) (j : ThreadId) : threads j = .out := by
  obtain ⟨S, hS, hn⟩ := h
  obtain rfl := Finset.card_eq_zero.1 hn
  by_contra hj
  exact Finset.notMem_empty j ((hS j).2 hj)

end

/-! ## Where Gray objects wait -/

def Waits (s : Sys) (x : Addr) : Prop :=
  x ∈ s.shared.queue ∨ x ∈ s.collector.held ∨ ∃ i, x ∈ (s.threads i).held

def GrayWaits (s : Sys) : Prop := ∀ x, s.shared.mem.color x = .gray → Waits s x

/-- A step of thread `i` that accounts for the queue and for what `i` holds. -/
theorem GrayWaits.thread {s : Sys} {i : ThreadId} {p : ThreadPc} {r : Shared} {n : Nat} (h : GrayWaits s)
    (hg : ∀ x, r.mem.color x = .gray → (x ∈ r.queue ∨ x ∈ p.held) ∨
      (s.shared.mem.color x = .gray ∧ x ∉ s.shared.queue ∧ x ∉ (s.threads i).held)) :
    GrayWaits (((s.setShared r).setBusy n).setThread i p) := by
  intro x hx
  rcases hg x hx with (hq | hp) | ⟨hgray, hq, hi⟩
  · exact .inl hq
  · exact .inr (.inr ⟨i, by rw [Sys.setThread_threads, Function.update_self]; exact hp⟩)
  · rcases h x hgray with hw | hw | ⟨j, hw⟩
    · exact absurd hw hq
    · exact .inr (.inl hw)
    · -- another thread has it
      have hj : j ≠ i := by
        rintro rfl
        exact hi hw
      exact .inr (.inr ⟨j, by rw [Sys.setThread_threads, Function.update_of_ne hj]; exact hw⟩)

/-- The same for a step of the collector. -/
theorem GrayWaits.collector {s : Sys} {p : CollectorPc} {r : Shared} (h : GrayWaits s)
    (hg : ∀ x, r.mem.color x = .gray → (x ∈ r.queue ∨ x ∈ p.held) ∨
      (s.shared.mem.color x = .gray ∧ x ∉ s.shared.queue ∧ x ∉ s.collector.held)) :
    GrayWaits ((s.setShared r).setCollector p) := by
  intro x hx
  rcases hg x hx with (hq | hp) | ⟨hgray, hq, hc⟩
  · exact .inl hq
  · exact .inr (.inl hp)
  · rcases h x hgray with hw | hw | hw
    · exact absurd hw hq
    · exact absurd hw hc
    · exact .inr (.inr hw)

/-- The condition of the two lemmas above, for a step that gives nothing away. -/
theorem kept {m m' : Mem} {q q' k k' : List Addr} (hgray : ∀ x, m'.color x = .gray → m.color x = .gray ∨ x ∈ k')
    (hkeep : ∀ x, x ∈ q ∨ x ∈ k → x ∈ q' ∨ x ∈ k') (x : Addr) (hx : m'.color x = .gray) :
    (x ∈ q' ∨ x ∈ k') ∨ (m.color x = .gray ∧ x ∉ q ∧ x ∉ k) := by
  rcases hgray x hx with hg | hk
  · by_cases hw : x ∈ q ∨ x ∈ k
    · exact .inl (hkeep x hw)
    · exact .inr ⟨hg, fun hq => hw (.inl hq), fun hk => hw (.inr hk)⟩
  · exact .inl (.inr hk)

/-! ## The invariant -/

structure Inv (s : Sys) : Prop where
  counted : Counted s.threads s.nBusyMarking
  gray : GrayWaits s
  assist : ∀ i w, s.threads i = .assist w → w.Settled
  call : ∀ w, s.collector = .call w → w.Settled
  exit : s.collector = .exit → s.shared.queue = [] ∧ ∀ i, ¬ (s.threads i).SawMarking

theorem Start.inv {s : Sys} (h : Start s) : Inv s where
  counted := ⟨∅, fun i => by simp [h.threads i], by simp [h.busy]⟩
  gray := fun x hx => .inl (h.gray x hx)
  assist := fun i w hi => by rw [h.threads i] at hi; cases hi
  call := fun w hw => by rw [h.collector] at hw; cases hw
  exit := fun he => by rw [h.collector] at he; cases he

theorem sawMarking_of_held {p : ThreadPc} (h : p.held ≠ []) : p.SawMarking := by
  cases p with
  | assist w => trivial
  | shade vals t => trivial
  | merge t => trivial
  | _ => exact absurd rfl h

theorem Inv.quiet {s : Sys} (h : Inv s) : Quiet s := by
  intro he
  obtain ⟨hq, hsaw⟩ := h.exit he
  have hheld : ∀ i, (s.threads i).held = [] := by
    intro i
    by_contra hne
    exact hsaw i (sawMarking_of_held hne)
  refine ⟨hq, hheld, fun x hx => ?_, hsaw⟩
  rcases h.gray x hx with hw | hw | ⟨i, hw⟩
  · rw [hq] at hw; cases hw
  · rw [he] at hw; cases hw
  · rw [hheld i] at hw; cases hw

/-- A step of the collector that does not leave the loop. -/
theorem Inv.collectorStep {s : Sys} {p : CollectorPc} {r : Shared} (h : Inv s) (hset : ∀ w, p = .call w → w.Settled)
    (hp : p ≠ .exit) (hg : ∀ x, r.mem.color x = .gray → (x ∈ r.queue ∨ x ∈ p.held) ∨
      (s.shared.mem.color x = .gray ∧ x ∉ s.shared.queue ∧ x ∉ s.collector.held)) :
    Inv ((s.setShared r).setCollector p) where
  counted := h.counted
  gray := h.gray.collector hg
  assist := h.assist
  call := hset
  exit := fun he => absurd he hp

/-- A step of thread `i`. -/
theorem Inv.threadStep {s : Sys} {i : ThreadId} {p : ThreadPc} {r : Shared} {n : Nat} (h : Inv s)
    (hc : Counted (Function.update s.threads i p) n) (hset : ∀ w, p = .assist w → w.Settled)
    (hexit : s.collector = .exit → r.queue = [] ∧ ¬ p.SawMarking)
    (hg : ∀ x, r.mem.color x = .gray → (x ∈ r.queue ∨ x ∈ p.held) ∨
      (s.shared.mem.color x = .gray ∧ x ∉ s.shared.queue ∧ x ∉ (s.threads i).held)) :
    Inv (((s.setShared r).setBusy n).setThread i p) where
  counted := hc
  gray := h.gray.thread hg
  assist := by
    intro j w hj
    by_cases hji : j = i
    · subst hji
      exact hset w (by rw [← hj, Sys.setThread_threads, Function.update_self])
    · exact h.assist j w (by rw [← hj, Sys.setThread_threads, Function.update_of_ne hji]; rfl)
  call := h.call
  exit := by
    intro he
    obtain ⟨hq, hsaw⟩ := hexit he
    refine ⟨hq, fun j => ?_⟩
    by_cases hji : j = i
    · subst hji
      rw [Sys.setThread_threads, Function.update_self]
      exact hsaw
    · rw [Sys.setThread_threads, Function.update_of_ne hji]
      exact (h.exit he).2 j

theorem settled_call (b : Nat) : (Worker.call [] b).Settled := fun h => by cases h

theorem held_ret {w : Worker} (h : w.Settled) (hr : w.pc = .ret) : w.held = [] := by
  simp only [Worker.held, hr]
  exact h hr

/-- The collector goes on with empty hands and touches nothing shared. -/
theorem Inv.collectorPc {s : Sys} {p : CollectorPc} (h : Inv s) (hheld : s.collector.held = [])
    (hset : ∀ w, p = .call w → w.Settled) (hp : p ≠ .exit) : Inv (s.setCollector p) := by
  refine h.collectorStep (r := s.shared) hset hp (kept (fun x hx => .inl hx) ?_)
  intro x hx
  rw [hheld] at hx
  exact hx.imp id fun hx => absurd hx List.not_mem_nil

/-- Thread `i` goes on with what it holds and touches nothing shared. -/
theorem Inv.threadPc {s : Sys} {i : ThreadId} {p : ThreadPc} {n : Nat} (h : Inv s)
    (hc : Counted (Function.update s.threads i p) n) (hheld : ∀ x ∈ (s.threads i).held, x ∈ p.held)
    (hset : ∀ w, p = .assist w → w.Settled) (hexit : s.collector = .exit → ¬ p.SawMarking) :
    Inv ((s.setBusy n).setThread i p) := by
  refine h.threadStep (r := s.shared) hc hset (fun he => ⟨(h.exit he).1, hexit he⟩) (kept (fun x hx => .inl hx) ?_)
  intro x hx
  exact hx.imp id fun hx => hheld x hx

theorem ne_out_of_sawMarking {p : ThreadPc} (h : p.SawMarking) : p ≠ .out := by
  rintro rfl
  exact h

/-- A step of a thread that has seen Marking, up to `decrement_busy_marking`. -/
theorem Inv.inside {s : Sys} {i : ThreadId} {p : ThreadPc} {r : Shared} (h : Inv s) (hi : (s.threads i).SawMarking)
    (hp : p.SawMarking) (hset : ∀ w, p = .assist w → w.Settled)
    (hg : ∀ x, r.mem.color x = .gray → (x ∈ r.queue ∨ x ∈ p.held) ∨
      (s.shared.mem.color x = .gray ∧ x ∉ s.shared.queue ∧ x ∉ (s.threads i).held)) :
    Inv ((s.setShared r).setThread i p) :=
  h.threadStep (n := s.nBusyMarking) (h.counted.stay (ne_out_of_sawMarking hi) (ne_out_of_sawMarking hp)) hset
    (fun he => absurd hi ((h.exit he).2 i)) hg

/-- The phase check. -/
theorem Inv.checked {s : Sys} {i : ThreadId} {k : Section} {p : ThreadPc} (h : Inv s) (hi : s.threads i = .entered k)
    (hp : p ≠ .out) (hset : ∀ w, p = .assist w → w.Settled) (hexit : s.collector = .exit → ¬ p.SawMarking) :
    Inv (s.setThread i p) := by
  refine h.threadPc (n := s.nBusyMarking) (h.counted.stay (by simp [hi]) hp) ?_ hset hexit
  intro x hx
  rw [hi] at hx
  cases hx

theorem step_inv {s s' : Sys} {l : Label} (h : Inv s) (hst : Step s l s') (hok : InTime s l) : Inv s' := by
  cases hst with
  | tryStart hc _ =>
    have hinv := h.collectorPc (p := .scan s.head []) (by rw [hc]; rfl) (fun w hw => by cases hw) (by simp)
    exact ⟨hinv.counted, hinv.gray, hinv.assist, hinv.call, hinv.exit⟩
  | @scan a t hc =>
    refine h.collectorStep (fun w hw => by cases hw) (by simp) (kept (fun x hx => s.shared.mem.scanRoot_gray t a hx) ?_)
    intro x hx
    rw [hc] at hx
    exact hx.imp id fun hx => s.shared.mem.scanRoot_tracer t a hx
  | @scanMerge t b _ hc =>
    refine h.collectorStep (fun w hw => by cases hw; exact settled_call b) (by simp) (kept (fun x hx => .inl hx) ?_)
    intro x hx
    rw [hc] at hx
    exact .inl (List.mem_append.2 hx.symm)
  | @work sh' w w' hc hw =>
    refine h.collectorStep (fun v hv => by cases hv; exact hw.settled) (by simp) ?_
    intro x hx
    rw [hc]
    refine (hw.gray hx).imp id ?_
    rintro ⟨hg, hn⟩
    exact ⟨hg, fun hq => hn (.inl hq), fun hq => hn (.inr hq)⟩
  | @again w b _ hc hr _ =>
    have hheld : s.collector.held = [] := by rw [hc]; exact held_ret (h.call w hc) hr
    exact h.collectorPc hheld (fun v hv => by cases hv; exact settled_call b) (by simp)
  | @noWork w hc hr _ =>
    have hheld : s.collector.held = [] := by rw [hc]; exact held_ret (h.call w hc) hr
    exact h.collectorPc hheld (fun v hv => by cases hv) (by simp)
  | busy b _ hc _ =>
    exact h.collectorPc (by rw [hc]; rfl) (fun v hv => by cases hv; exact settled_call b) (by simp)
  | quiet b hc hn =>
    -- 0 was read: every thread is outside
    have hcount := h.counted
    rw [hn] at hcount
    have hinv := h.collectorPc (p := .rest) (by rw [hc]; rfl) (fun v hv => by cases hv) (by simp)
    refine ⟨hinv.counted, hinv.gray, hinv.assist, fun v hv => (by cases hv), fun _ => ⟨hok hn, fun i => ?_⟩⟩
    show ¬ (s.threads i).SawMarking
    rw [hcount.none_inside i]
    exact id
  | startSweeping hc =>
    have hinv := h.collectorPc (p := .swept) (by rw [hc]; rfl) (fun v hv => by cases hv) (by simp)
    exact ⟨hinv.counted, hinv.gray, hinv.assist, hinv.call, hinv.exit⟩
  | enter i k hi =>
    refine h.threadPc (h.counted.enter hi (by simp)) ?_ (fun w hw => by cases hw) (fun _ hs => hs)
    intro x hx
    rw [hi] at hx
    cases hx
  | @seenAssist i b hi hm =>
    exact h.checked hi (by simp) (fun w hw => by cases hw; exact settled_call b) (fun he => absurd he (hok hm))
  | seenBarrier i hi hm => exact h.checked hi (by simp) (fun w hw => by cases hw) (fun he => absurd he (hok hm))
  | refused i hi _ => exact h.checked hi (by simp) (fun w hw => by cases hw) (fun _ hs => hs)
  | @assist sh' w w' i hi hw =>
    refine h.inside (by rw [hi]; trivial) trivial (fun v hv => by cases hv; exact hw.settled) ?_
    intro x hx
    rw [hi]
    refine (hw.gray hx).imp id ?_
    rintro ⟨hg, hn⟩
    exact ⟨hg, fun hq => hn (.inl hq), fun hq => hn (.inr hq)⟩
  | @assisted w i hi hr =>
    have hheld : (s.threads i).held = [] := by rw [hi]; exact held_ret (h.assist i w hi) hr
    refine h.inside (r := s.shared) (by rw [hi]; trivial) trivial (fun w hw => by cases hw)
      (kept (fun x hx => .inl hx) ?_)
    intro x hx
    rw [hheld] at hx
    exact hx
  | @shade i v vals t hi =>
    refine h.inside (by rw [hi]; trivial) trivial (fun w hw => by cases hw)
      (kept (fun x hx => s.shared.mem.mark_gray t v hx) ?_)
    intro x hx
    rw [hi] at hx
    exact hx.imp id fun hx => s.shared.mem.mark_tracer t v hx
  | @shaded i t hi =>
    refine h.inside (r := s.shared) (by rw [hi]; trivial) trivial (fun w hw => by cases hw)
      (kept (fun x hx => .inl hx) ?_)
    intro x hx
    rw [hi] at hx
    exact hx
  | @merge i t hi =>
    refine h.inside (by rw [hi]; trivial) trivial (fun w hw => by cases hw) (kept (fun x hx => .inl hx) ?_)
    intro x hx
    rw [hi] at hx
    exact .inl (List.mem_append.2 hx.symm)
  | leave i hi =>
    refine h.threadPc (h.counted.leave ?_) ?_ (fun w hw => by cases hw) (fun _ hs => hs)
    · rcases hi with hi | hi <;> simp [hi]
    · intro x hx
      rcases hi with hi | hi <;> rw [hi] at hx <;> cases hx

/-- **Marking is over when the collector leaves the loop**, exactly in the runs where the two
observations come in time. -/
theorem quiet_iff (s t : Sys) (tr : List (Sys × Label)) (hs : Start s) (hrun : Run Step s tr t) :
    ((∀ e ∈ tr, Quiet e.1) ∧ Quiet t) ↔ ∀ e ∈ tr, InTime e.1 e.2 := by
  refine run_iff_of_inv hrun hs.inv (fun _ _ _ h hst hok => step_inv h hst hok) (fun _ h => h.quiet) ?_
  intro u l u' _ hst h
  cases hst with
  | quiet b _ _ => exact fun _ => (h rfl).1
  | busy b _ _ hn => exact fun h0 => absurd h0 (by omega)
  | seenAssist i _ _ =>
    intro _ he
    refine (h he).2.2.2 i ?_
    rw [Sys.setThread_threads, Function.update_self]
    trivial
  | seenBarrier i _ _ =>
    intro _ he
    refine (h he).2.2.2 i ?_
    rw [Sys.setThread_threads, Function.update_self]
    trivial
  | refused i _ hm => exact fun h0 => absurd h0 hm
  | _ => trivial

/-- `1` is rooted and stores a pointer to `2`. -/
def graph : Mem := (((Mem.empty.newBox 2 (.node 48 [])).setRootCount 2 0).newBox 1 (.node 48 [2])).setNext 1 (some 2)

def begin : Sys := ⟨some 1, ⟨graph, []⟩, .idle, 0, .rest, fun _ => .out⟩

theorem start_begin : Start begin where
  gray := by
    intro x hx
    have hw : graph.color x = .white := by
      simp only [graph, Mem.newBox, Mem.setNext, Mem.setRootCount, Mem.empty, Function.update_apply]
      split
      · rfl
      · split <;> rfl
    exact absurd (hw.symm.trans hx) (by decide)
  phase := rfl
  busy := rfl
  collector := rfl
  threads := fun _ => rfl

/-- Thread `0` has stored a pointer to `2` and counted itself out before the collector's last call. -/
theorem quiet_iff_barrier : ∃ tr t, Run Step begin tr t ∧ t.collector = .exit ∧ t.shared.mem.color 2 = .black ∧
    Quiet t := by
  have h₁ := (Run.nil begin).snoc (Step.tryStart rfl rfl)
  have h₂ := h₁.snoc (Step.enter 0 (.barrier [2]) rfl)
  have h₃ := h₂.snoc (Step.seenBarrier 0 rfl rfl)
  have h₄ := h₃.snoc (Step.shade 0 rfl)
  have h₅ := h₄.snoc (Step.shaded 0 rfl)
  have h₆ := h₅.snoc (Step.merge 0 rfl)
  have h₇ := h₆.snoc (Step.leave 0 (.inl rfl))
  have h₈ := h₇.snoc (Step.scan rfl)
  have h₉ := h₈.snoc (Step.scan rfl)
  have h₁₀ := h₉.snoc (Step.scanMerge 2 (by decide) rfl)
  have h₁₁ := h₁₀.snoc (Step.work rfl (Worker.Step.steal (by decide) rfl))
  have h₁₂ := h₁₁.snoc (Step.work rfl (Worker.Step.pop (by decide)))
  have h₁₃ := h₁₂.snoc (Step.work rfl Worker.Step.blacken)
  have h₁₄ := h₁₃.snoc (Step.work rfl (Worker.Step.pop (by decide)))
  have h₁₅ := h₁₄.snoc (Step.work rfl Worker.Step.mark)
  have h₁₆ := h₁₅.snoc (Step.work rfl Worker.Step.blacken)
  have h₁₇ := h₁₆.snoc (Step.work rfl (Worker.Step.spent (by decide)))
  have h₁₈ := h₁₇.snoc (Step.again 2 (by decide) rfl rfl (by decide))
  have h₁₉ := h₁₈.snoc (Step.work rfl (Worker.Step.noWork (by decide) rfl))
  have h₂₀ := h₁₉.snoc (Step.noWork rfl rfl rfl)
  have h₂₁ := h₂₀.snoc (Step.quiet 2 rfl rfl)
  refine ⟨_, _, h₂₁, rfl, by decide, ((quiet_iff _ _ _ start_begin h₂₁).2 ?_).2⟩
  intro e he
  simp only [List.nil_append, List.cons_append, List.mem_cons, List.not_mem_nil, or_false] at he
  rcases he with rfl | rfl | rfl | rfl | rfl | rfl | rfl | rfl | rfl | rfl | rfl | rfl | rfl | rfl | rfl | rfl | rfl |
    rfl | rfl | rfl | rfl
  case inr.inr.inl => exact fun _ he => by cases he
  any_goals trivial
  -- the last load
  exact fun _ => rfl

/-- The barrier of thread `0` shades `2` and is held up. The collector marks `1`, finds no more work
and is about to load the counter; thread `0` merges `2` and counts itself out. The collector reads 0
and leaves the loop, with `2` Gray in the queue. -/
theorem work_left_behind : ∃ s tr t, Start s ∧ Run Step s tr t ∧ t.collector = .exit ∧ t.shared.queue = [2] ∧
    t.shared.mem.color 2 = .gray ∧ ¬ Quiet t := by
  have h₁ := (Run.nil begin).snoc (Step.tryStart rfl rfl)
  have h₂ := h₁.snoc (Step.enter 0 (.barrier [2]) rfl)
  have h₃ := h₂.snoc (Step.seenBarrier 0 rfl rfl)
  have h₄ := h₃.snoc (Step.shade 0 rfl)
  have h₅ := h₄.snoc (Step.scan rfl)
  have h₆ := h₅.snoc (Step.scan rfl)
  have h₇ := h₆.snoc (Step.scanMerge 1 (by decide) rfl)
  have h₈ := h₇.snoc (Step.work rfl (Worker.Step.steal (by decide) rfl))
  have h₉ := h₈.snoc (Step.work rfl (Worker.Step.pop (by decide)))
  have h₁₀ := h₉.snoc (Step.work rfl Worker.Step.mark)
  have h₁₁ := h₁₀.snoc (Step.work rfl Worker.Step.blacken)
  have h₁₂ := h₁₁.snoc (Step.work rfl (Worker.Step.spent (by decide)))
  have h₁₃ := h₁₂.snoc (Step.again 1 (by decide) rfl rfl (by decide))
  have h₁₄ := h₁₃.snoc (Step.work rfl (Worker.Step.noWork (by decide) rfl))
  have h₁₅ := h₁₄.snoc (Step.noWork rfl rfl rfl)
  have h₁₆ := h₁₅.snoc (Step.shaded 0 rfl)
  have h₁₇ := h₁₆.snoc (Step.merge 0 rfl)
  have h₁₈ := h₁₇.snoc (Step.leave 0 (.inl rfl))
  have h₁₉ := h₁₈.snoc (Step.quiet 1 rfl rfl)
  refine ⟨_, _, _, start_begin, h₁₉, rfl, rfl, by decide, fun h => ?_⟩
  have hq := (h rfl).1
  cases hq

end Abfall.Termination
