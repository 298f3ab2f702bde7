import Abfall.Cycles
/-!
# Every object is destroyed exactly once

| here | there |
| --- | --- |
| `St.dropHeap`  | the list walk of `Drop for Heap` (`heap.rs:595-611`) |
| `allocations`  | the addresses `GcBox::new` returned in a run, one entry for each object |

The vtable's `drop` is called in two places, by the sweep when it unlinks and by `Drop for Heap` for
what is still listed. The invariant is a ledger: at every address, the objects allocated there are the
ones dropped there and the one that is allocated now, if any. An address may be used again after a
drop.
-/
namespace Abfall
open Chain Transition Cycles
open Incremental (BgPc Sys)

def dropHeapLoop : Nat → Mem → Option Addr → Option Mem
  | _, m, none => some m
  | 0, _, some _ => none
  | fuel + 1, m, some a =>
    let m := m.touch a
    let nx := m.next a
    dropHeapLoop fuel (m.drop a) nx

def St.dropHeap (fuel : Nat) (s : St) : Option Mem := dropHeapLoop fuel s.mem s.heap.head

/-- The walk calls `drop` on each listed object, in list order. -/
theorem dropHeapLoop_spec : ∀ (l : List Addr) (m : Mem) (p : Option Addr), Seg m.next p l none →
    (∀ x ∈ l, m.alive x = true) → ∃ m', dropHeapLoop l.length m p = some m' ∧
      m'.dropped = l.reverse ++ m.dropped ∧ (∀ x, m'.alive x = (m.alive x && decide (x ∉ l))) ∧ m'.fault = m.fault
  | [], m, p, hp, _ => by
    obtain rfl : p = none := hp
    exact ⟨m, rfl, rfl, by simp, rfl⟩
  | a :: l, m, p, hp, ha => by
    have hnd := seg_nodup hp
    obtain ⟨rfl, hp⟩ := hp
    have haa := ha a (by simp)
    have hal : ∀ x ∈ l, x ≠ a := by
      rintro x hx rfl
      exact (List.nodup_cons.1 hnd).1 hx
    obtain ⟨m', e, hd, hlive, hf⟩ := dropHeapLoop_spec l (m.drop a) (m.next a) hp fun x hx => by
      exact Mem.drop_alive.2 ⟨hal x hx, ha x (by simp [hx])⟩
    refine ⟨m', ?_, ?_, fun x => ?_, hf⟩
    · simp only [List.length_cons, dropHeapLoop, Mem.touch_of_alive haa]
      exact e
    · rw [hd]
      show l.reverse ++ a :: m.dropped = _
      simp
    · rw [hlive x]
      exact m.drop_alive_and a l x

theorem dropHeap_spec {s : St} {l : List Addr} (hl : Listed s l) : ∃ m', s.dropHeap l.length = some m' ∧
    m'.dropped = l.reverse ++ s.mem.dropped ∧ (∀ x, m'.alive x = false) ∧ m'.fault = s.mem.fault := by
  obtain ⟨m', e, hd, hal, hf⟩ := dropHeapLoop_spec l s.mem s.heap.head hl.seg fun x hx => (hl.alive x).1 hx
  refine ⟨m', e, hd, fun x => ?_, hf⟩
  rw [hal x]
  by_cases hx : x ∈ l
  · simp [hx]
  · have : s.mem.alive x = false := by simpa [hl.alive] using hx
    simp [this]

namespace Destroy

/-- Mutators that may use any address as a pointer. -/
def AnyPtr (s : St) (op : MutOp) : Prop := op.Allowed (fun _ => True) s

def allocated : Op → Option Addr
  | .mutate (.allocate a _) => some a
  | _ => none

def allocations (tr : List (Sys × Op)) : List Addr := tr.filterMap fun e => allocated e.2

/-! ## The ledger -/

/-- The object at `a`, counted. -/
def present (m : Mem) (a : Addr) : Nat := if m.alive a then 1 else 0

theorem present_of_same {m m' : Mem} (h : m.SameObjects m') (a : Addr) : present m' a = present m a := by
  simp [present, h.alive]

structure Ledger (p : Sys) (born : List Addr) : Prop extends Base p where
  counts : ∀ a, p.st.mem.dropped.count a + present p.st.mem a = born.count a

/-- What a step drops: allocated objects without a root, each once. -/
structure Drops (p p' : Sys) (ds : List Addr) : Prop where
  dropped : p'.st.mem.dropped = ds ++ p.st.mem.dropped
  nodup : ds.Nodup
  unrooted : ∀ a ∈ ds, p.st.mem.alive a = true ∧ p.st.mem.rootCount a = 0

/-- Marking changes neither side. -/
theorem Ledger.of_same {p p' : Sys} {born : List Addr} (h : Ledger p born) (hb : Base p')
    (hs : p.st.mem.SameObjects p'.st.mem) : Ledger p' born ∧ Drops p p' [] := by
  refine ⟨⟨hb, fun a => ?_⟩, hs.dropped, List.nodup_nil, fun a ha => by cases ha⟩
  rw [hs.dropped, present_of_same hs]
  exact h.counts a

theorem Ledger.allocate {s : St} {pc : BgPc} {born : List Addr} {a : Addr} {d : Data} (h : Ledger ⟨s, pc⟩ born)
    (ha : s.mem.alive a = false) (hb : Base ⟨s.allocate a d, pc⟩) : Ledger ⟨s.allocate a d, pc⟩ (born ++ [a]) := by
  refine ⟨hb, fun x => ?_⟩
  have hc := h.counts x
  have hd : (s.allocate a d).mem.dropped = s.mem.dropped := s.assist_same.dropped
  have hal : (s.allocate a d).mem.alive x = Function.update s.mem.alive a true x := by
    rw [← s.assist_same.alive]; rfl
  simp only [present, hd, hal, List.count_append, List.count_singleton] at hc ⊢
  by_cases hx : x = a
  · subst hx
    simp only [ha, Bool.false_eq_true, if_false] at hc
    simp only [Function.update_self, if_true, beq_self_eq_true]
    omega
  · have hne : (a == x) = false := by simp [Ne.symm hx]
    simp only [Function.update_of_ne hx, hne, Bool.false_eq_true, if_false]
    omega

theorem Ledger.sweep {s s' : St} {born l : List Addr} (h : Ledger ⟨s, .complete⟩ born) (hl : Listed s l)
    (hb : Base ⟨s', .waiting⟩) (hsw : Swept s.mem [] l s'.mem s'.heap.head) :
    Ledger ⟨s', .waiting⟩ born ∧ Drops ⟨s, .complete⟩ ⟨s', .waiting⟩ (dead s.mem l).reverse := by
  have hnd : (dead s.mem l).Nodup := (seg_nodup hl.seg).filter _
  have hdead : ∀ a ∈ dead s.mem l, s.mem.alive a = true := fun a ha => (hl.alive a).1 (mem_dead.1 ha).1
  refine ⟨⟨hb, fun a => ?_⟩, hsw.dropped, List.nodup_reverse.2 hnd, fun a ha => ?_⟩
  · have hc := h.counts a
    simp only [present, hsw.dropped, hsw.alive a, List.count_append, List.count_reverse] at hc ⊢
    by_cases ha : a ∈ dead s.mem l
    · simp only [hdead a ha, if_true] at hc
      simp only [List.count_eq_one_of_mem hnd ha, ha, not_true_eq_false, decide_false, Bool.and_false,
        Bool.false_eq_true, if_false]
      omega
    · simp only [List.count_eq_zero_of_not_mem ha, ha, not_false_eq_true, decide_true, Bool.and_true]
      omega
  · rw [List.mem_reverse] at ha
    exact ⟨hdead a ha, (mem_dead.1 ha).2.2⟩

theorem ledger_step {p p' : Sys} {op : Op} {born : List Addr} (hi : Ledger p born) (h : Step 0 AnyPtr p op p') :
    Ledger p' (born ++ (allocated op).toList) ∧ ∃ ds, Drops p p' ds := by
  have hb := base_step (fun _ _ ha => ha) hi.toBase h
  obtain ⟨l, hl⟩ := hi.listed
  cases h with
  | @start s s' h fuel hst hr =>
    obtain ⟨_, rfl⟩ := Heap.tryStartMarking_true hst
    obtain rfl := St.doMarkRoots_some (s := ⟨s.mem, s.heap.withPhase .marking⟩) hl.seg hr
    obtain ⟨h₁, h₂⟩ := hi.of_same hb (scanRoots_same l s.mem [])
    exact ⟨by simpa [allocated] using h₁, _, h₂⟩
  | @mark s b _ =>
    obtain ⟨h₁, h₂⟩ := hi.of_same hb (doMarkWithTracer_same s [] b)
    exact ⟨by simpa [allocated] using h₁, _, h₂⟩
  | busyCheck =>
    obtain ⟨h₁, h₂⟩ := hi.of_same hb (.refl _)
    exact ⟨by simpa [allocated] using h₁, _, h₂⟩
  | abort =>
    obtain ⟨h₁, h₂⟩ := hi.of_same hb (.refl _)
    exact ⟨by simpa [allocated] using h₁, _, h₂⟩
  | @sweep s s' live fuel hs =>
    obtain ⟨hsw, _, _⟩ := sweepAndFinish_some hl.seg (fun x hx => (hl.alive x).1 hx) hs
    obtain ⟨h₁, h₂⟩ := hi.sweep hl hb hsw
    exact ⟨by simpa [allocated] using h₁, _, h₂⟩
  | @mutate s pc op ha =>
    have hnone : Drops ⟨s, pc⟩ ⟨s.mutate op, pc⟩ [] :=
      ⟨St.mutate_dropped s op, List.nodup_nil, fun a ha => by cases ha⟩
    refine ⟨?_, _, hnone⟩
    cases op with
    | allocate a d => exact hi.allocate ha.1 hb
    | set o k vals =>
      refine ⟨hb, fun x => ?_⟩
      have hd : (s.setCell o k vals).mem.dropped = s.mem.dropped := (s.barrier_same vals).dropped
      have hal : (s.setCell o k vals).mem.alive = s.mem.alive := (s.barrier_same vals).alive
      simpa [allocated, present, St.mutate, hd, hal] using hi.counts x
    | _ =>
      refine ⟨hb, fun x => ?_⟩
      simp only [allocated, Option.toList_none, List.append_nil]
      exact hi.counts x

theorem ledger_run {o : GcOptions} {p : Sys} {tr : List (Sys × Op)}
    (h : Run (Step 0 AnyPtr) ⟨.fresh o, .waiting⟩ tr p) : Ledger p (allocations tr) := by
  induction h with
  | nil => exact ⟨base_fresh o, fun a => rfl⟩
  | @snoc t u op tr _ hst ih =>
    have hs := (ledger_step ih hst).1
    cases hop : allocated op <;> simpa [allocations, hop] using hs

/-- **Every object is destroyed exactly once**, also on a heap whose work budget is 0. At every point of
every run the objects allocated at an address are the dropped ones and the one that is there now; a step
drops allocated objects without a root only, each once; and if the `Heap` is dropped at this point, the
walk over its list ends and every object of the run has then been dropped, as often as one was allocated
there. -/
theorem destroyed_exactly_once (o : GcOptions) (p : Sys) (tr : List (Sys × Op))
    (h : Run (Step 0 AnyPtr) ⟨.fresh o, .waiting⟩ tr p) :
    (∀ a, p.st.mem.dropped.count a + present p.st.mem a = (allocations tr).count a) ∧
    (∀ op p', Step 0 AnyPtr p op p' → ∃ ds, Drops p p' ds) ∧
    ∃ fuel m', p.st.dropHeap fuel = some m' ∧ m'.fault = p.st.mem.fault ∧
      ∀ a, m'.dropped.count a = (allocations tr).count a := by
  have hi := ledger_run h
  refine ⟨hi.counts, fun op p' hst => (ledger_step hi hst).2, ?_⟩
  obtain ⟨l, hl⟩ := hi.listed
  obtain ⟨m', e, hd, _, hf⟩ := dropHeap_spec hl
  refine ⟨l.length, m', e, hf, fun a => ?_⟩
  rw [← hi.counts a, hd, List.count_append, List.count_reverse, Nat.add_comm]
  congr 1
  by_cases ha : p.st.mem.alive a = true
  · simp [present, ha, List.count_eq_one_of_mem (seg_nodup hl.seg) ((hl.alive a).2 ha)]
  · have hal : a ∉ l := fun hm => ha ((hl.alive a).1 hm)
    simp [present, ha, List.count_eq_zero_of_not_mem hal]

/-- Two objects, a cycle with work budget 0 that frees the unrooted `1` and leaves `2` in the queue, and a third object
at the first address; then the heap is dropped while both have roots. -/
theorem destroyed_exactly_once_reused : ∃ (p : Sys) (tr : List (Sys × Op)),
    Run (Step 0 AnyPtr) ⟨.fresh .default, .waiting⟩ tr p ∧ allocations tr = [1, 2, 1] ∧ p.st.mem.dropped = [1] ∧
    ∃ fuel m', p.st.dropHeap fuel = some m' ∧ m'.dropped.count 1 = 2 ∧ m'.dropped.count 2 = 1 := by
  have h₁ := Run.snoc (Run.nil _ : Run (Step 0 AnyPtr) ⟨.fresh .default, .waiting⟩ [] _)
    (Step.mutate (.allocate 1 (.leaf 8)) ⟨rfl, fun _ _ => trivial⟩)
  have h₂ := h₁.snoc (Step.mutate (.allocate 2 (.leaf 8)) ⟨by decide, fun _ _ => trivial⟩)
  have h₃ := h₂.snoc (Step.mutate (.dropRoot 1) ⟨by decide, by decide⟩)
  have h₄ := h₃.snoc (Step.start 2 rfl (Option.eq_some_of_isSome (by decide)))
  have h₅ := h₄.snoc (Step.mark_found (b := 0) (by decide) (by decide))
  have h₆ : Run (Step 0 AnyPtr) _ _ ⟨_, .complete⟩ := h₅.snoc Step.busyCheck
  have h₇ := h₆.snoc (Step.sweep 2 (Option.eq_some_of_isSome (by decide)))
  have h₈ := h₇.snoc (Step.mutate (.allocate 1 (.leaf 8)) ⟨by decide, fun _ _ => trivial⟩)
  obtain ⟨_, _, fuel, m', e, _, hall⟩ := destroyed_exactly_once .default _ _ h₈
  exact ⟨_, _, h₈, rfl, by decide, fuel, m', e, hall 1, hall 2⟩

end Destroy
end Abfall
