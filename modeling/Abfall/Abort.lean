import Abfall.Tricolor
/-!
# An aborted background cycle and the next `force_collect`

When the background thread is stopped inside its marking loop it calls `finish_gc` and returns
(`heap.rs:629-632`). The phase is Idle again, but the colors and the gray queue stay as they are. The
next cycle starts on them: `do_mark_roots` shades White roots only, and `mark_header` skips what is
not White (`trace.rs:73-78`), so an object that the aborted cycle left Black is not traced again. What
the program stores into it meanwhile is not seen.

`forceCollect_after_abort` says exactly when the next `force_collect` still spares every reachable
object: when none is `Hidden`.
-/
namespace Abfall.Abort
open Chain Transition Worklist

inductive Pc
  | before
  | marking
  | aborted
deriving DecidableEq, Repr

structure Sys where
  st : St
  pc : Pc

inductive Op
  | start (fuel : Nat)
  | mark (workBudget : Nat)
  | abort
  | mutate (op : MutOp)

/-- The background thread up to the point where it is stopped, and the mutators during and after. -/
inductive Step : Sys → Op → Sys → Prop
  | start {s s' : St} {h : Heap} (fuel : Nat) : s.heap.shouldCollect = true →
      s.heap.tryStartMarking = (h, true) → St.doMarkRoots fuel ⟨s.mem, h⟩ [] = some s' →
      Step ⟨s, .before⟩ (.start fuel) ⟨s', .marking⟩
  | mark {s : St} (b : Nat) : Step ⟨s, .marking⟩ (.mark b) ⟨(s.doMarkIncremental b).1, .marking⟩
  | abort {s : St} : Step ⟨s, .marking⟩ .abort ⟨⟨s.mem, s.heap.finishGc⟩, .aborted⟩
  | mutate {s : St} {pc : Pc} (op : MutOp) : pc ≠ .before → op.Allowed s.mem.Reachable s →
      Step ⟨s, pc⟩ (.mutate op) ⟨s.mutate op, pc⟩

/-- An Idle heap, all White and with nothing queued. -/
structure Start (p : Sys) : Prop where
  wf : WF p.st
  pc : p.pc = .before
  phase : p.st.heap.phase = .idle
  white : ∀ a, p.st.mem.alive a = true → p.st.mem.color a = .white
  queue : p.st.heap.grayQueue = []
  busy : p.st.heap.nBusyMarking = 0
  budget : 1 ≤ p.st.heap.options.incrementalWorkBudget

def Pc.phase : Pc → GcPhase
  | .marking => .marking
  | _ => .idle

structure Inv (p : Sys) : Prop where
  wf : WF p.st
  phase : p.st.heap.phase = p.pc.phase
  busy : p.st.heap.nBusyMarking = 0
  budget : 1 ≤ p.st.heap.options.incrementalWorkBudget

theorem step_inv {p p' : Sys} {op : Op} (hi : Inv p) (h : Step p op p') : Inv p' := by
  cases h with
  | @start s s' h fuel _ hst hr =>
    obtain ⟨_, rfl⟩ := Heap.tryStartMarking_true hst
    have hwf : WF ⟨s.mem, s.heap.withPhase .marking⟩ := hi.wf.of_heap rfl rfl rfl
    have hwf' := hwf.doMarkRoots hr
    obtain ⟨l, hl⟩ := hwf.listed
    obtain rfl := St.doMarkRoots_some hl.seg hr
    exact ⟨hwf', rfl, hi.busy, hi.budget⟩
  | @mark s b =>
    have hh : (s.doMarkIncremental b).1.heap = _ := s.doMarkWithTracer_heap [] b
    refine ⟨hi.wf.doMark b, ?_, ?_, ?_⟩ <;> rw [hh]
    · exact hi.phase
    · exact hi.busy
    · exact hi.budget
  | abort => exact ⟨hi.wf.of_heap rfl rfl rfl, rfl, hi.busy, hi.budget⟩
  | @mutate s pc op _ ha =>
    obtain ⟨q, hd, n, hh⟩ := s.mutate_heap op
    refine ⟨hi.wf.mutate (fun _ => hi.wf.alive_of_reachable) ha, ?_, ?_, ?_⟩ <;> rw [hh]
    · exact hi.phase
    · exact hi.busy
    · exact hi.budget

/-! ## What the next cycle cannot see -/

/-- A White object without a root that is reachable, but not from a queued object or a White root
through White objects only. -/
structure Hidden (s : St) (x : Addr) : Prop where
  reachable : s.mem.Reachable x
  white : s.mem.color x = .white
  unrooted : s.mem.rootCount x = 0
  unseen : ∀ y, y ∈ s.heap.grayQueue ∨ (s.mem.Rooted y ∧ s.mem.color y = .white) →
    ¬ Relation.ReflTransGen (fun a b => s.mem.Edge a b ∧ s.mem.color b = .white) y x

/-- What is shaded after a marking phase, for a White object. -/
theorem marked_iff_of_white {s : St} {l : List Addr} (hl : ∀ a, a ∈ l ↔ s.mem.alive a = true) {x : Addr}
    (hw : s.mem.color x = .white) : Marked s.mem s.heap.grayQueue l x ↔
      ∃ y, (y ∈ s.heap.grayQueue ∨ (s.mem.Rooted y ∧ s.mem.color y = .white)) ∧
        Relation.ReflTransGen (fun a b => s.mem.Edge a b ∧ s.mem.color b = .white) y x := by
  have hfresh : Fresh s.mem.Edge (seen s.mem) = fun a b => s.mem.Edge a b ∧ s.mem.color b = .white := by
    funext a b
    simp [Fresh, seen]
  have hsrc : ∀ y, y ∈ sources s.mem s.heap.grayQueue l ↔
      y ∈ s.heap.grayQueue ∨ (s.mem.Rooted y ∧ s.mem.color y = .white) := by
    intro y
    simp [sources, waiting, whiteRoots, Mem.Rooted, hl, and_assoc]
  simp only [Marked, Found, hfresh, hsrc, hw, ne_eq, not_true_eq_false, false_or]

/-- **After an abort.** The next `force_collect` ends; it frees no reachable object iff none is
hidden from it. -/
theorem forceCollect_after_abort (p : Sys) (hp : Reach Step Start p) (hpc : p.pc = .aborted) :
    (∃ fuel s' live, p.st.forceCollect fuel = some (s', live)) ∧
    ∀ fuel s' live, p.st.forceCollect fuel = some (s', live) →
      ((∀ a, p.st.mem.alive a = true → s'.mem.alive a = false → ¬ p.st.mem.Reachable a) ↔
        ∀ x, ¬ Hidden p.st x) := by
  have hi : Inv p := by
    refine hp.inv (I := Inv) (fun s h => ?_) fun _ _ _ => step_inv
    exact ⟨h.wf, by rw [h.phase, h.pc]; rfl, h.busy, h.budget⟩
  have hidle : p.st.heap.phase = .idle := by rw [hi.phase, hpc]; rfl
  obtain ⟨l, hl⟩ := hi.wf.listed
  refine ⟨forceCollect_total hidle hl.seg hl.alive hi.wf.sane hi.busy hi.budget, ?_⟩
  intro fuel s' live h
  obtain ⟨⟨m₁, hs, hm, _, hsw, _⟩, _⟩ :=
    forceCollect_spec hidle hl.seg (fun x hx => (hl.alive x).1 hx) hi.budget h
  have hfreed : ∀ a, (p.st.mem.alive a = true ∧ s'.mem.alive a = false) ↔ a ∈ dead m₁ l := by
    intro a
    have hal : a ∈ dead m₁ l → p.st.mem.alive a = true := fun hd => (hl.alive a).1 (mem_dead.1 hd).1
    rw [hsw.alive a, hs.alive]
    by_cases hd : a ∈ dead m₁ l
    · simp [hd, hal hd]
    · simp [hd]
  constructor
  · intro hsafe x hx
    have hdead : x ∈ dead m₁ l := by
      refine (mem_dead_marked hs hm).2 ⟨(hl.alive x).2 (hi.wf.alive_of_reachable hx.reachable), ?_, hx.unrooted⟩
      rw [marked_iff_of_white hl.alive hx.white]
      rintro ⟨y, hy, hpath⟩
      exact hx.unseen y hy hpath
    obtain ⟨ha, hf⟩ := (hfreed x).2 hdead
    exact hsafe x ha hf hx.reachable
  · intro hno a ha hf hr
    obtain ⟨_, hnm, h0⟩ := (mem_dead_marked hs hm).1 ((hfreed a).1 ⟨ha, hf⟩)
    have hw : p.st.mem.color a = .white := by
      by_contra hc
      exact hnm (.inl hc)
    refine hno a ⟨hr, hw, h0, fun y hy hpath => hnm ?_⟩
    exact (marked_iff_of_white hl.alive hw).2 ⟨y, hy, hpath⟩

/-- One rooted object with an empty cell, large enough for a cycle to start. -/
def one : St := (St.fresh .default).mutate (.allocate 1 (.node 2000000 []))

theorem start_one : Start ⟨one, .before⟩ where
  wf := (wf_fresh .default).allocate rfl fun q hq => by cases hq
  pc := rfl
  phase := rfl
  white := St.mutate_white (by decide) fun _ _ => rfl
  queue := rfl
  busy := rfl
  budget := by decide

/-- Stopped right after the root scan: `1` is still queued, so what is stored into it afterwards is
found, and nothing reachable is freed. -/
theorem forceCollect_after_abort_queued : ∃ p : Sys, Reach Step Start p ∧ p.pc = .aborted ∧
    p.st.mem.rootCount 2 = 0 ∧ ∃ fuel s' live, p.st.forceCollect fuel = some (s', live) ∧ s'.mem.alive 2 = true := by
  have h₁ := Reach.step (Reach.init start_one) (Step.start 1 (by decide) rfl (Option.eq_some_of_isSome (by decide)))
  have h₂ := h₁.step Step.abort
  have h₃ := h₂.step (Step.mutate (.allocate 2 (.leaf 8)) (by decide) ⟨by decide, fun q hq => by cases hq⟩)
  have h₄ := h₃.step (Step.mutate (.set 1 0 [2]) (by decide) ⟨by decide, by decide, fun q hq => by
    obtain rfl : q = 2 := List.mem_singleton.1 hq
    exact Mem.Rooted.reachable ⟨by decide, by decide⟩⟩)
  have h₅ := h₄.step (Step.mutate (.dropRoot 2) (by decide) ⟨by decide, by decide⟩)
  refine ⟨_, h₅, rfl, by decide, ?_⟩
  obtain ⟨⟨fuel, s', live, hf⟩, hiff⟩ := forceCollect_after_abort _ h₅ rfl
  refine ⟨fuel, s', live, hf, ?_⟩
  cases h2 : s'.mem.alive 2 with
  | true => rfl
  | false =>
    refine absurd ?_ ((hiff fuel s' live hf).2 ?_ 2 (by decide) h2)
    · exact ⟨1, ⟨by decide, by decide⟩, .single (by decide : 2 ∈ _)⟩
    · -- only `1` and `2` are reachable, and `2` is found from the queued `1`
      intro x hx
      have hx12 : x = 1 ∨ x = 2 := by
        have hal := hx.reachable.of_closed (S := fun x => x = 1 ∨ x = 2) ?_ ?_
        · exact hal
        · rintro r ⟨hr, _⟩
          change Function.update (Function.update (fun _ => false) 1 true) 2 true r = true at hr
          by_contra hne
          simp only [not_or] at hne
          simp [hne] at hr
        · rintro a b (rfl | rfl) he
          · exact .inr (List.mem_singleton.1 he)
          · cases he
      rcases hx12 with rfl | rfl
      · exact absurd hx.unrooted (by decide)
      · exact hx.unseen 1 (.inl (by decide)) (.single ⟨(by decide : 2 ∈ _), by decide⟩)

/-- Stopped after `1` was traced: it stays Black. The program then stores a new object into it and
drops that object's own root; the next `force_collect` frees the object. -/
theorem forceCollect_frees_after_abort : ∃ p : Sys, Reach Step Start p ∧ p.pc = .aborted ∧
    p.st.mem.alive 2 = true ∧ p.st.mem.Reachable 2 ∧
    ∃ fuel s' live, p.st.forceCollect fuel = some (s', live) ∧ s'.mem.alive 2 = false ∧
      s'.mem.Rooted 1 ∧ s'.mem.Edge 1 2 := by
  have h₁ := Reach.step (Reach.init start_one) (Step.start 1 (by decide) rfl (Option.eq_some_of_isSome (by decide)))
  have h₂ := h₁.step (Step.mark 100)
  have h₃ := h₂.step Step.abort
  have h₄ := h₃.step (Step.mutate (.allocate 2 (.leaf 8)) (by decide) ⟨by decide, fun q hq => by cases hq⟩)
  have h₅ := h₄.step (Step.mutate (.set 1 0 [2]) (by decide) ⟨by decide, by decide, fun q hq => by
    obtain rfl : q = 2 := List.mem_singleton.1 hq
    exact Mem.Rooted.reachable ⟨by decide, by decide⟩⟩)
  have h₆ := h₅.step (Step.mutate (.dropRoot 2) (by decide) ⟨by decide, by decide⟩)
  exact ⟨_, h₆, rfl, by decide, ⟨1, ⟨by decide, by decide⟩, .single (by decide : 2 ∈ _)⟩,
    3, _, _, Option.eq_some_of_isSome (by decide), by decide, ⟨by decide, by decide⟩, (by decide : 2 ∈ _)⟩

end Abfall.Abort
