import Abfall.Basic
import Abfall.Transition
/-!
# Collectors and the phase

Any number of threads call `force_collect` or `collect`, and one of them is the background thread. A
cycle is entered by a compare-exchange, `Idle → Marking` (`heap.rs:377`); every way out is a plain
store of Idle: at the end of `do_sweep` (`heap.rs:557`), again at the end of `sweep_and_finish`
(`:418`), and when the background thread is stopped (`:631`).

| here | there |
| --- | --- |
| `Pc.marking`   | after a successful `try_start_marking`: the root scan and the marking loop |
| `Pc.sweeping`  | after the store of Sweeping: the sweep loop |
| `Pc.swept`     | the loop is over, `finish_gc` of `do_sweep` is next |
| `Pc.finishing` | `update_threshold`, then the second `finish_gc` |

The second store of Idle can fall into the cycle that another thread has started meanwhile.
`phase_truthful_iff` says that a run keeps the phase truthful iff no store of Idle does that.
-/
namespace Abfall.Phase
open Transition

inductive ThreadId
  | background
  | caller (i : Nat)
deriving DecidableEq, Repr

inductive Pc
  | out
  | marking
  | sweeping
  | swept
  | finishing
deriving DecidableEq, Repr

/-- Between a successful `try_start_marking` and the end of the sweep loop. -/
def Pc.Active (p : Pc) : Prop := p = .marking ∨ p = .sweeping

structure Sys where
  heap : Heap
  pc : ThreadId → Pc

def Sys.move (s : Sys) (i : ThreadId) (p : Pc) (h : Heap) : Sys := ⟨h, Function.update s.pc i p⟩

inductive Label
  | tryStart (i : ThreadId)
  | work (i : ThreadId)
  | startSweeping (i : ThreadId)
  | loopEnd (i : ThreadId)
  | finishSweep (i : ThreadId)
  | finish (i : ThreadId)
  | abort

inductive Step : Sys → Label → Sys → Prop
  | started {s : Sys} {h : Heap} (i : ThreadId) : s.pc i = .out → s.heap.tryStartMarking = (h, true) →
      Step s (.tryStart i) (s.move i .marking h)
  | refused {s : Sys} {h : Heap} (i : ThreadId) : s.pc i = .out → s.heap.tryStartMarking = (h, false) →
      Step s (.tryStart i) (s.move i .out h)
  /-- Marking an object, or sweeping one: the phase is not looked at. -/
  | work {s : Sys} (i : ThreadId) : (s.pc i).Active → Step s (.work i) s
  | startSweeping {s : Sys} (i : ThreadId) : s.pc i = .marking →
      Step s (.startSweeping i) (s.move i .sweeping s.heap.startSweeping)
  | loopEnd {s : Sys} (i : ThreadId) : s.pc i = .sweeping → Step s (.loopEnd i) (s.move i .swept s.heap)
  | finishSweep {s : Sys} (i : ThreadId) : s.pc i = .swept →
      Step s (.finishSweep i) (s.move i .finishing s.heap.finishGc)
  | finish {s : Sys} (i : ThreadId) : s.pc i = .finishing → Step s (.finish i) (s.move i .out s.heap.finishGc)
  | abort {s : Sys} : s.pc .background = .marking → Step s .abort (s.move .background .out s.heap.finishGc)

/-- No thread is inside a cycle. -/
structure Start (s : Sys) : Prop where
  phase : s.heap.phase = .idle
  pc : ∀ i, s.pc i = .out

/-- One collection at a time, and the phase says where it is. -/
structure Truthful (s : Sys) : Prop where
  one : ∀ i j, (s.pc i).Active → (s.pc j).Active → i = j
  marking : s.heap.phase = .marking ↔ ∃ i, s.pc i = .marking
  sweeping : ∀ i, s.pc i = .sweeping → s.heap.phase = .sweeping
  idle : s.heap.phase = .idle → ∀ i, ¬ (s.pc i).Active

/-- No thread but `i` is marking or in its sweep loop. -/
def Alone (s : Sys) (i : ThreadId) : Prop := ∀ j, j ≠ i → ¬ (s.pc j).Active

/-- Idle is stored only when no other thread is inside a cycle. -/
def Unshared (s : Sys) : Label → Prop
  | .finishSweep i => Alone s i
  | .finish i => Alone s i
  | .abort => Alone s .background
  | _ => True

theorem Start.truthful {s : Sys} (h : Start s) : Truthful s := by
  have hno : ∀ i, ¬ (s.pc i).Active := by
    intro i hi
    rw [h.pc] at hi
    rcases hi with hi | hi <;> cases hi
  refine ⟨fun i j hi => absurd hi (hno i), ?_, fun i hi => absurd (.inr hi) (hno i), fun _ => hno⟩
  constructor
  · intro hm
    rw [h.phase] at hm
    cases hm
  · rintro ⟨i, hi⟩
    exact absurd (.inl hi) (hno i)

/-- The store of Idle. -/
theorem truthful_idle {s : Sys} {i : ThreadId} {p : Pc} (ha : Alone s i) (hp : ¬ p.Active) :
    Truthful (s.move i p s.heap.finishGc) := by
  have hno : ∀ j, ¬ ((s.move i p s.heap.finishGc).pc j).Active := by
    intro j
    by_cases hj : j = i
    · subst hj
      simpa [Sys.move] using hp
    · simpa [Sys.move, hj] using ha j hj
  refine ⟨fun j _ hj => absurd hj (hno j), ?_, fun j hj => absurd (.inr hj) (hno j), fun _ => hno⟩
  constructor
  · intro hm
    cases hm
  · rintro ⟨j, hj⟩
    exact absurd (.inl hj) (hno j)

/-- A thread that enters Marking or Sweeping while no other is inside a cycle. -/
theorem truthful_enter {s : Sys} {i : ThreadId} {p : Pc} {h : Heap} (ha : Alone s i)
    (hp : (p = .marking ∧ h.phase = .marking) ∨ (p = .sweeping ∧ h.phase = .sweeping)) :
    Truthful (s.move i p h) := by
  have hself : (s.move i p h).pc i = p := Function.update_self _ _ _
  have hone : ∀ j, ((s.move i p h).pc j).Active → j = i := by
    intro j hj
    by_contra hne
    exact ha j hne (by simpa [Sys.move, hne] using hj)
  refine ⟨fun j k hj hk => (hone j hj).trans (hone k hk).symm, ?_, fun j hj => ?_, fun hidle => ?_⟩
  · constructor
    · intro hm
      rcases hp with ⟨hp, _⟩ | ⟨_, hs⟩
      · exact ⟨i, hself.trans hp⟩
      · exact absurd (hs.symm.trans hm) (by decide)
    · rintro ⟨j, hj⟩
      obtain rfl := hone j (.inl hj)
      rcases hp with ⟨_, hm⟩ | ⟨hp, _⟩
      · exact hm
      · rw [hself, hp] at hj; cases hj
  · obtain rfl := hone j (.inr hj)
    rcases hp with ⟨hp, _⟩ | ⟨_, hs⟩
    · rw [hself, hp] at hj; cases hj
    · exact hs
  · rcases hp with ⟨_, hm⟩ | ⟨_, hs⟩
    · exact absurd (hm.symm.trans hidle) (by decide)
    · exact absurd (hs.symm.trans hidle) (by decide)

theorem Truthful.alone {s : Sys} (h : Truthful s) {i : ThreadId} (hi : (s.pc i).Active) : Alone s i :=
  fun j hne hj => hne (h.one j i hj hi)

theorem step_truthful {s s' : Sys} {l : Label} (h : Truthful s) (hst : Step s l s') (hok : Unshared s l) :
    Truthful s' := by
  cases hst with
  | started i _ hs =>
    obtain ⟨hidle, rfl⟩ := Heap.tryStartMarking_true hs
    exact truthful_enter (fun j _ => h.idle hidle j) (.inl ⟨rfl, rfl⟩)
  | refused i hpc hs =>
    unfold Heap.tryStartMarking at hs
    split at hs
    · cases hs
    · cases hs
      have e : s.move i .out s.heap = s := by
        unfold Sys.move
        rw [← hpc, Function.update_eq_self]
      rw [e]
      exact h
  | work i _ => exact h
  | startSweeping i hpc => exact truthful_enter (h.alone (.inl hpc)) (.inr ⟨rfl, rfl⟩)
  | loopEnd i hpc =>
    have hsw := h.sweeping i hpc
    have hno : ∀ j, ¬ ((s.move i .swept s.heap).pc j).Active := by
      intro j
      by_cases hj : j = i
      · subst hj
        simp [Sys.move, Pc.Active]
      · simpa [Sys.move, hj] using h.alone (.inr hpc) j hj
    refine ⟨fun j _ hj => absurd hj (hno j), ?_, fun j hj => absurd (.inr hj) (hno j), fun _ => hno⟩
    constructor
    · intro hm
      exact absurd (hsw.symm.trans hm) (by decide)
    · rintro ⟨j, hj⟩
      exact absurd (.inl hj) (hno j)
  | finishSweep i _ => exact truthful_idle hok (by simp [Pc.Active])
  | finish i _ => exact truthful_idle hok (by simp [Pc.Active])
  | abort _ => exact truthful_idle hok (by simp [Pc.Active])

/-- After a store of Idle that leaves the phase truthful, no other thread is inside a cycle. -/
theorem alone_of_idle {s : Sys} {i : ThreadId} {p : Pc} (h : Truthful (s.move i p s.heap.finishGc)) : Alone s i := by
  intro j hj hact
  refine h.idle rfl j ?_
  simpa [Sys.move, hj] using hact

/-- **At most one collection at a time, and the phase tells the truth**, exactly in the runs where no
store of Idle falls into another thread's cycle. -/
theorem phase_truthful_iff (s t : Sys) (tr : List (Sys × Label)) (hs : Start s) (hrun : Run Step s tr t) :
    ((∀ e ∈ tr, Truthful e.1) ∧ Truthful t) ↔ ∀ e ∈ tr, Unshared e.1 e.2 := by
  refine run_iff_of_inv hrun hs.truthful (fun _ _ _ h hst hok => step_truthful h hst hok) (fun _ h => h) ?_
  intro u l u' _ hst h
  cases hst with
  | finishSweep i _ => exact alone_of_idle h
  | finish i _ => exact alone_of_idle h
  | abort _ => exact alone_of_idle h
  | _ => trivial

/-- A heap at rest. -/
def rest : Sys := ⟨.withOptions .default, fun _ => .out⟩

theorem start_rest : Start rest := ⟨rfl, fun _ => rfl⟩

/-- Two collections, one after the other. -/
theorem phase_truthful_iff_two : ∃ tr t, Run Step rest tr t ∧ t.pc (.caller 1) = .marking ∧ Truthful t := by
  have h₁ := (Run.nil rest).snoc (Step.started (.caller 0) rfl rfl)
  have h₂ := h₁.snoc (Step.startSweeping (.caller 0) rfl)
  have h₃ := h₂.snoc (Step.loopEnd (.caller 0) rfl)
  have h₄ := h₃.snoc (Step.finishSweep (.caller 0) rfl)
  have h₅ := h₄.snoc (Step.finish (.caller 0) rfl)
  have h₆ := h₅.snoc (Step.started (.caller 1) rfl rfl)
  refine ⟨_, _, h₆, by decide, ((phase_truthful_iff _ _ _ start_rest h₆).2 ?_).2⟩
  intro e he
  simp only [List.nil_append, List.cons_append, List.mem_cons, List.not_mem_nil, or_false] at he
  rcases he with rfl | rfl | rfl | rfl | rfl | rfl
  · trivial
  · trivial
  · trivial
  · intro j hj
    simp [Sys.move, rest, hj, Pc.Active]
  · intro j hj
    simp [Sys.move, rest, hj, Pc.Active]
  · trivial

/-- Caller `0` has finished its sweep and stored Idle once; caller `1` starts a cycle; caller `0`
stores Idle again. The phase is Idle while caller `1` is marking, and the background thread can start
a second cycle beside it. -/
theorem idle_while_marking : ∃ s tr t, Start s ∧ Run Step s tr t ∧ t.heap.phase = .marking ∧
    t.pc (.caller 1) = .marking ∧ t.pc .background = .marking ∧ ¬ Truthful t := by
  have h₁ := (Run.nil rest).snoc (Step.started (.caller 0) rfl rfl)
  have h₂ := h₁.snoc (Step.startSweeping (.caller 0) rfl)
  have h₃ := h₂.snoc (Step.loopEnd (.caller 0) rfl)
  have h₄ := h₃.snoc (Step.finishSweep (.caller 0) rfl)
  have h₅ := h₄.snoc (Step.started (.caller 1) rfl rfl)
  have h₆ := h₅.snoc (Step.finish (.caller 0) rfl)
  have h₇ := h₆.snoc (Step.started .background rfl rfl)
  refine ⟨_, _, _, start_rest, h₇, by decide, by decide, by decide, ?_⟩
  intro h
  have := h.one .background (.caller 1) (.inl (by decide)) (.inl (by decide))
  cases this

end Abfall.Phase
