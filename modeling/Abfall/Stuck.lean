import Abfall.Panics
import Abfall.Cycles
/-!
# One panic ends collection

`Abfall.Panics` says what a panic in user code leaves behind: a cycle whose phase nobody will reset, or a busy counter
that nobody will decrement. Here the program goes on, with the panic caught or its thread gone. Whoever wants
to collect from now on either finds a cycle "running" and returns (`heap.rs:342-346`), or starts one and waits
for a marking thread that is not there (`heap.rs:494-501`, `:634-643`). So no cycle reaches its sweep any more, and
nothing is freed (`panic_ends_collection`). The one exception is a cycle that was already past its check of
the busy counter when a mutator panicked.

| here | there |
| --- | --- |
| `Step.start` to `Step.sweepPanics` | a cycle of `force_collect` or of the background thread, as in `Abfall.Cycles`; its thread unwinds at a panic |
| `Step.allocate`, `Step.set` | `Heap::allocate` and `GcCell::set` with user code that may panic |
-/
namespace Abfall.Stuck
open Transition Panics
open Incremental (BgPc Sys)

/-- A part of a cycle, or a mutator's operation. -/
inductive Op
  | start
  | mark
  | busyCheck
  | abort
  | sweep
  | mutate
deriving DecidableEq, Repr

structure Label where
  op : Op
  /-- User code panicked. -/
  panics : Bool
deriving DecidableEq, Repr

/-- `pc` is where the thread stands that runs a cycle; `waiting` also after that thread was unwound. -/
inductive Step : Sys → Label → Sys → Prop
  | start {s s' : St} {h : Heap} (fuel : Nat) : s.heap.tryStartMarking = (h, true) →
      St.doMarkRoots fuel ⟨s.mem, h⟩ [] = some s' → Step ⟨s, .waiting⟩ ⟨.start, false⟩ ⟨s', .marking⟩
  | mark {s s' : St} {complete : Bool} (u : UserCode) :
      doMarkIncremental u s s.heap.options.incrementalWorkBudget = .ok (s', complete) →
      Step ⟨s, .marking⟩ ⟨.mark, false⟩ ⟨s', if complete then .found else .marking⟩
  | markPanics {s s' : St} (u : UserCode) :
      doMarkIncremental u s s.heap.options.incrementalWorkBudget = .error s' →
      Step ⟨s, .marking⟩ ⟨.mark, true⟩ ⟨s', .waiting⟩
  | busyCheck {s : St} :
      Step ⟨s, .found⟩ ⟨.busyCheck, false⟩ ⟨s, if 0 < s.heap.nBusyMarking then .marking else .complete⟩
  | abort {s : St} : Step ⟨s, .marking⟩ ⟨.abort, false⟩ ⟨⟨s.mem, s.heap.finishGc⟩, .waiting⟩
  | sweep {s s' : St} {fuel live : Nat} (u : UserCode) : sweepAndFinish u fuel s = some (.ok (s', live)) →
      Step ⟨s, .complete⟩ ⟨.sweep, false⟩ ⟨s', .waiting⟩
  | sweepPanics {s s' : St} {fuel : Nat} (u : UserCode) : sweepAndFinish u fuel s = some (.error s') →
      Step ⟨s, .complete⟩ ⟨.sweep, true⟩ ⟨s', .waiting⟩
  | allocate {s s' : St} {pc : BgPc} {a : Addr} {d : Data} (u : UserCode) : s.mem.alive a = false →
      Panics.allocate u s a d = .ok s' → Step ⟨s, pc⟩ ⟨.mutate, false⟩ ⟨s', pc⟩
  | allocatePanics {s s' : St} {pc : BgPc} {a : Addr} {d : Data} (u : UserCode) : s.mem.alive a = false →
      Panics.allocate u s a d = .error s' → Step ⟨s, pc⟩ ⟨.mutate, true⟩ ⟨s', pc⟩
  | set {s s' : St} {pc : BgPc} {panics : Option Nat} {o : Addr} {k : Nat} {vals : List Addr} :
      setCell panics s o k vals = .ok s' → Step ⟨s, pc⟩ ⟨.mutate, false⟩ ⟨s', pc⟩
  | setPanics {s s' : St} {pc : BgPc} {panics : Option Nat} {o : Addr} {k : Nat} {vals : List Addr} :
      setCell panics s o k vals = .error s' → Step ⟨s, pc⟩ ⟨.mutate, true⟩ ⟨s', pc⟩
  | clone {s : St} {pc : BgPc} {a : Addr} : Step ⟨s, pc⟩ ⟨.mutate, false⟩ ⟨s.cloneRoot a, pc⟩
  | dropRoot {s : St} {pc : BgPc} {a : Addr} : Step ⟨s, pc⟩ ⟨.mutate, false⟩ ⟨s.dropRoot a, pc⟩
  | root {s : St} {pc : BgPc} {a : Addr} : Step ⟨s, pc⟩ ⟨.mutate, false⟩ ⟨s.rootPtr a, pc⟩

/-! ## What operations do to the phase, the counter and the objects -/

/-- Nothing is freed, and no busy increment is taken back. -/
structure Kept (s s' : St) : Prop where
  busy : s.heap.nBusyMarking ≤ s'.heap.nBusyMarking
  dropped : s'.mem.dropped = s.mem.dropped
  alive : ∀ a, s.mem.alive a = true → s'.mem.alive a = true
  bytes : s.heap.bytesAllocated ≤ s'.heap.bytesAllocated

theorem Kept.refl (s : St) : Kept s s := ⟨Nat.le_refl _, rfl, fun _ h => h, Nat.le_refl _⟩

theorem Kept.trans {s₁ s₂ s₃ : St} (h : Kept s₁ s₂) (h' : Kept s₂ s₃) : Kept s₁ s₃ :=
  ⟨Nat.le_trans h.busy h'.busy, h'.dropped.trans h.dropped, fun a ha => h'.alive a (h.alive a ha),
    Nat.le_trans h.bytes h'.bytes⟩

theorem kept_of_same {s s' : St} (hs : s.mem.SameObjects s'.mem) (hbusy : s.heap.nBusyMarking ≤ s'.heap.nBusyMarking)
    (hbytes : s'.heap.bytesAllocated = s.heap.bytesAllocated) : Kept s s' :=
  ⟨hbusy, hs.dropped, fun a ha => by rw [hs.alive]; exact ha, Nat.le_of_eq hbytes.symm⟩

variable {u : UserCode} {s s' : St}

theorem kept_of_marks {n : Nat} (hn : s.heap.nBusyMarking ≤ n) (h : Marks ⟨s.mem, s.heap.withBusy n⟩ s') :
    Kept s s' ∧ s'.heap.nBusyMarking = n ∧ s'.heap.phase = s.heap.phase := by
  have hbusy : s'.heap.nBusyMarking = n := by rw [h.heap]; rfl
  refine ⟨kept_of_same h.same (by rw [hbusy]; exact hn) (by rw [h.heap]; rfl), hbusy, by rw [h.heap]; rfl⟩

theorem marks_withBusy (h : Marks s s') : Marks ⟨s.mem, s.heap.withBusy s.heap.nBusyMarking⟩ s' := h

/-- An assist that returns has given its increment back. -/
theorem assist_ok (h : assist u s = .ok s') : Marks s s' := by
  unfold assist at h
  split at h
  swap
  · cases h
    exact .refl s
  by_cases hp : s.heap.phase = .marking
  swap
  · simp only [Heap.checkIsMarking_of_ne hp, Bool.false_eq_true, ↓reduceIte] at h
    cases h
    exact .refl s
  · simp only [Heap.checkIsMarking_of_eq hp, ↓reduceIte, doMarkIncremental] at h
    have hm := doMarkWithTracer_marks (u := u) ⟨s.mem, s.heap.withBusy (s.heap.nBusyMarking + 1)⟩ []
      s.heap.options.assistWorkBudget
    cases hr : doMarkWithTracer u ⟨s.mem, s.heap.withBusy (s.heap.nBusyMarking + 1)⟩ [] s.heap.options.assistWorkBudget with
    | error s₁ =>
      rw [hr] at h
      cases h
    | ok r =>
      rw [hr] at h hm
      cases h
      have hm : Marks ⟨s.mem, s.heap.withBusy (s.heap.nBusyMarking + 1)⟩ r.1 := hm
      refine ⟨hm.same, ?_⟩
      show r.1.heap.decrementBusyMarking = s.heap.withQueue r.1.heap.grayQueue
      rw [hm.heap]
      rfl

theorem allocate_ok {a : Addr} {d : Data} (h : Panics.allocate u s a d = .ok s') :
    Kept s s' ∧ s'.heap.phase = s.heap.phase := by
  unfold Panics.allocate at h
  cases hr : assist u s with
  | error s₁ =>
    rw [hr] at h
    cases h
  | ok s₁ =>
    rw [hr] at h
    cases h
    have hm := assist_ok hr
    obtain ⟨hk, _, hp⟩ := kept_of_marks (Nat.le_refl _) (marks_withBusy hm)
    refine ⟨hk.trans ⟨Nat.le_refl _, rfl, fun x hx => St.push_alive.2 (.inr hx), Nat.le_add_right _ _⟩, hp⟩

theorem allocate_error {a : Addr} {d : Data} (h : Panics.allocate u s a d = .error s') :
    Marks ⟨s.mem, s.heap.withBusy (s.heap.nBusyMarking + 1)⟩ s' := by
  unfold Panics.allocate at h
  cases hr : assist u s with
  | error s₁ =>
    rw [hr] at h
    cases h
    exact assist_error hr
  | ok s₁ =>
    rw [hr] at h
    cases h

theorem setCell_ok {panics : Option Nat} {o : Addr} {k : Nat} {vals : List Addr} (h : setCell panics s o k vals = .ok s') :
    Kept s s' ∧ s'.heap.phase = s.heap.phase := by
  unfold setCell barrier at h
  by_cases hp : s.heap.phase = .marking
  swap
  · simp only [Heap.checkIsMarking_of_ne hp, Bool.false_eq_true, ↓reduceIte] at h
    cases h
    exact ⟨⟨Nat.le_refl _, rfl, fun _ ha => ha, Nat.le_refl _⟩, rfl⟩
  · simp only [Heap.checkIsMarking_of_eq hp, ↓reduceIte] at h
    cases panics with
    | some k => cases h
    | none =>
      cases h
      have hs := Mem.markAll_same vals s.mem []
      exact ⟨⟨Nat.le_refl _, hs.dropped, fun a ha => by rw [← hs.alive] at ha; exact ha, Nat.le_refl _⟩, rfl⟩

theorem doMarkIncremental_marks (b : Nat) : Marks s (stLeft (doMarkIncremental u s b)) := by
  have hm := doMarkWithTracer_marks (u := u) s [] b
  unfold doMarkIncremental
  cases hr : doMarkWithTracer u s [] b with
  | error s₁ => rw [hr] at hm; exact hm
  | ok r => rw [hr] at hm; exact hm

theorem sweepLoop_ok_heap (fuel : Nat) (s : St) (p : Option Addr) (prev : PrevNext) (freed : Nat) (r : St × Nat)
    (h : Panics.sweepLoop u fuel s p prev freed = some (.ok r)) : r.1.heap = s.heap.withHead r.1.heap.head := by
  induction fuel generalizing s p prev freed with
  | zero => cases p <;> cases h; rfl
  | succ fuel ih =>
    cases p with
    | none => cases h; rfl
    | some a =>
      simp only [Panics.sweepLoop] at h
      split at h
      · split at h
        · cases h
        · have hi := ih _ _ _ _ h
          cases prev <;> exact hi
      · have hi := ih _ _ _ _ h
        exact hi

/-- A sweep leaves the busy counter alone, and ends the cycle unless it is unwound. -/
theorem sweepAndFinish_left {fuel : Nat} :
    (∀ s' live, sweepAndFinish u fuel s = some (.ok (s', live)) →
      s'.heap.nBusyMarking = s.heap.nBusyMarking ∧ s'.heap.phase = .idle) ∧
    ∀ s', sweepAndFinish u fuel s = some (.error s') →
      s'.heap.nBusyMarking = s.heap.nBusyMarking ∧ s'.heap.phase = .sweeping := by
  refine ⟨fun s' live h => ?_, fun s' h => ?_⟩
  · obtain ⟨r, hd, e⟩ := bind_ok h
    obtain ⟨q, hl, e'⟩ := bind_ok hd
    have hh := sweepLoop_ok_heap _ _ _ _ _ q hl
    cases e'
    cases e
    exact ⟨by show q.1.heap.nBusyMarking = _; rw [hh]; rfl, rfl⟩
  · rcases bind_error h with hd | ⟨_, _, e⟩
    · rcases bind_error hd with hl | ⟨_, _, e⟩
      · have hh := sweepLoop_error_heap _ _ _ _ _ s' hl
        rw [hh]
        exact ⟨rfl, rfl⟩
      · cases e
    · cases e

theorem markRootsLoop_same {fuel : Nat} {m : Mem} {t : Tracer} {p : Option Addr} {r : Mem × Tracer}
    (h : markRootsLoop fuel m t p = some r) : m.SameObjects r.1 := by
  induction fuel generalizing m t p with
  | zero => cases p <;> cases h; exact .refl m
  | succ fuel ih =>
    cases p with
    | none => cases h; exact .refl m
    | some a => exact (m.scanRoot_same t a).trans (ih h)

/-! ## What a step can do -/

inductive Effect (x : Sys) (l : Label) (y : Sys) : Prop
  | mutate : l.op = .mutate → y.pc = x.pc → Kept x.st y.st → y.st.heap.phase = x.st.heap.phase →
      (l.panics = true → 0 < y.st.heap.nBusyMarking) → Effect x l y
  | start : l = ⟨.start, false⟩ → x.pc = .waiting → y.pc = .marking → x.st.heap.phase = .idle →
      y.st.heap.phase = .marking → Kept x.st y.st → Effect x l y
  | mark : l.op = .mark → x.pc = .marking → (y.pc = .found ∨ y.pc = .marking ∨ y.pc = .waiting) →
      (y.pc = .waiting ↔ l.panics = true) → y.st.heap.phase = x.st.heap.phase → Kept x.st y.st → Effect x l y
  | busyCheck : l = ⟨.busyCheck, false⟩ → x.pc = .found → y.st = x.st →
      y.pc = (if 0 < x.st.heap.nBusyMarking then .marking else .complete) → Effect x l y
  | abort : l = ⟨.abort, false⟩ → x.pc = .marking → y.pc = .waiting → y.st.heap.phase = .idle →
      Kept x.st y.st → Effect x l y
  | sweep : l.op = .sweep → x.pc = .complete → y.pc = .waiting → y.st.heap.nBusyMarking = x.st.heap.nBusyMarking →
      (y.st.heap.phase = .idle ↔ l.panics = false) → Effect x l y

theorem effect_of_marks {pc : BgPc} (hm : Marks ⟨s.mem, s.heap.withBusy (s.heap.nBusyMarking + 1)⟩ s') :
    Effect ⟨s, pc⟩ ⟨.mutate, true⟩ ⟨s', pc⟩ := by
  obtain ⟨hk, hb, hp⟩ := kept_of_marks (Nat.le_succ _) hm
  exact .mutate rfl rfl hk hp fun _ => by show 0 < s'.heap.nBusyMarking; omega

theorem step_effect {x y : Sys} {l : Label} (h : Step x l y) : Effect x l y := by
  cases h with
  | @start s s' h fuel hst hr =>
    obtain ⟨hidle, rfl⟩ := Heap.tryStartMarking_true hst
    simp only [St.doMarkRoots, Option.map_eq_some_iff] at hr
    obtain ⟨r, hr, rfl⟩ := hr
    exact .start rfl rfl rfl hidle rfl (kept_of_same (markRootsLoop_same hr) (Nat.le_refl _) rfl)
  | @mark s s' complete u hm =>
    have hk := doMarkIncremental_marks (u := u) (s := s) s.heap.options.incrementalWorkBudget
    rw [hm] at hk
    obtain ⟨hk, _, hp⟩ := kept_of_marks (Nat.le_refl _) (marks_withBusy hk)
    cases complete with
    | true => exact .mark rfl rfl (.inl rfl) (by simp) hp hk
    | false => exact .mark rfl rfl (.inr (.inl rfl)) (by simp) hp hk
  | @markPanics s s' u hm =>
    have hk := doMarkIncremental_marks (u := u) (s := s) s.heap.options.incrementalWorkBudget
    rw [hm] at hk
    obtain ⟨hk, _, hp⟩ := kept_of_marks (Nat.le_refl _) (marks_withBusy hk)
    exact .mark rfl rfl (.inr (.inr rfl)) (by simp) hp hk
  | busyCheck => exact .busyCheck rfl rfl rfl rfl
  | @abort s => exact .abort rfl rfl rfl rfl (kept_of_same (.refl _) (Nat.le_refl _) rfl)
  | @sweep s s' fuel live u hs =>
    obtain ⟨hb, hp⟩ := sweepAndFinish_left.1 s' live hs
    exact .sweep rfl rfl rfl hb (by simp [hp])
  | @sweepPanics s s' fuel u hs =>
    obtain ⟨hb, hp⟩ := sweepAndFinish_left.2 s' hs
    exact .sweep rfl rfl rfl hb (by simp [hp])
  | @allocate s s' pc a d u _ h =>
    obtain ⟨hk, hp⟩ := allocate_ok h
    exact .mutate rfl rfl hk hp fun e => by cases e
  | @allocatePanics s s' pc a d u _ h => exact effect_of_marks (allocate_error h)
  | @set s s' pc panics o k vals h =>
    obtain ⟨hk, hp⟩ := setCell_ok h
    exact .mutate rfl rfl hk hp fun e => by cases e
  | @setPanics s s' pc panics o k vals h => exact effect_of_marks (setCell_error h)
  | clone => exact .mutate rfl rfl ⟨Nat.le_refl _, rfl, fun _ ha => ha, Nat.le_refl _⟩ rfl fun e => by cases e
  | dropRoot => exact .mutate rfl rfl ⟨Nat.le_refl _, rfl, fun _ ha => ha, Nat.le_refl _⟩ rfl fun e => by cases e
  | root => exact .mutate rfl rfl ⟨Nat.le_refl _, rfl, fun _ ha => ha, Nat.le_refl _⟩ rfl fun e => by cases e

/-! ## Broken heaps -/

/-- Between the steps of a program in which nothing has panicked yet. -/
def Sound (x : Sys) : Prop := x.st.heap.phase = Cycles.BgPc.phase x.pc

/-- A busy increment that nobody will take back, or a phase that nobody will end. -/
def Broken (x : Sys) : Prop :=
  0 < x.st.heap.nBusyMarking ∨ (x.st.heap.phase ≠ .idle ∧ x.pc = .waiting)

theorem broken_step {x y : Sys} {l : Label} (h : Step x l y) (hx : Broken x) : Broken y := by
  rcases hx with hb | ⟨hne, hw⟩
  · -- no step takes the increment back
    left
    cases step_effect h with
    | mutate _ _ hk _ _ => exact Nat.lt_of_lt_of_le hb hk.busy
    | start _ _ _ _ _ hk => exact Nat.lt_of_lt_of_le hb hk.busy
    | mark _ _ _ _ _ hk => exact Nat.lt_of_lt_of_le hb hk.busy
    | busyCheck _ _ e _ => rw [e]; exact hb
    | abort _ _ _ _ hk => exact Nat.lt_of_lt_of_le hb hk.busy
    | sweep _ _ _ e _ => rw [e]; exact hb
  · -- no cycle runs, and none can start
    cases step_effect h with
    | mutate _ hpc _ hp _ => exact .inr ⟨by rw [hp]; exact hne, hpc.trans hw⟩
    | start _ _ _ hidle _ _ => exact absurd hidle hne
    | mark _ hm _ _ _ _ => rw [hw] at hm; cases hm
    | busyCheck _ hf _ _ => rw [hw] at hf; cases hf
    | abort _ hm _ _ _ => rw [hw] at hm; cases hm
    | sweep _ hc _ _ _ => rw [hw] at hc; cases hc

theorem sound_step {x y : Sys} {l : Label} (h : Step x l y) (hx : Sound x) (hl : l.panics = false) : Sound y := by
  unfold Sound at hx ⊢
  cases step_effect h with
  | mutate _ hpc _ hp _ => rw [hp, hpc]; exact hx
  | start _ _ hpc _ hp _ => rw [hp, hpc]; rfl
  | mark _ hm hpc hw hp _ =>
    rw [hp, hx, hm]
    rcases hpc with e | e | e
    · rw [e]; rfl
    · rw [e]
    · rw [hw.1 e] at hl; cases hl
  | busyCheck _ hf e hpc =>
    rw [e, hx, hf, hpc]
    split <;> rfl
  | abort _ _ hpc hp _ => rw [hp, hpc]; rfl
  | sweep _ _ hpc _ hp => rw [hp.2 hl, hpc]; rfl

theorem broken_of_panic {x y : Sys} {l : Label} (h : Step x l y) (hx : Sound x ∨ Broken x) (hl : l.panics = true) :
    Broken y := by
  rcases hx with hx | hx
  swap
  · exact broken_step h hx
  unfold Sound at hx
  cases step_effect h with
  | mutate _ _ _ _ hb => exact .inl (hb hl)
  | start e _ _ _ _ _ => rw [e] at hl; cases hl
  | mark _ hm _ hw hp _ => exact .inr ⟨by rw [hp, hx, hm]; decide, hw.2 hl⟩
  | busyCheck e _ _ _ => rw [e] at hl; cases hl
  | abort e _ _ _ _ => rw [e] at hl; cases hl
  | sweep _ _ hpc _ hp => exact .inr ⟨fun hidle => (by rw [hp.1 hidle] at hl; cases hl), hpc⟩

/-- In a broken heap no cycle gets past its check of the busy counter, and what a step does frees nothing. -/
theorem stuck_step {x y : Sys} {l : Label} (h : Step x l y) (hx : Broken x) (hpc : x.pc ≠ .complete) :
    y.pc ≠ .complete ∧ l.op ≠ .sweep ∧ Kept x.st y.st := by
  cases step_effect h with
  | mutate hop e hk _ _ => exact ⟨by rw [e]; exact hpc, by rw [hop]; decide, hk⟩
  | start hl _ e _ _ hk => exact ⟨by rw [e]; decide, by rw [hl]; decide, hk⟩
  | mark hop _ e _ _ hk => exact ⟨by rcases e with e | e | e <;> rw [e] <;> decide, by rw [hop]; decide, hk⟩
  | busyCheck hl hf e hy =>
    rcases hx with hb | ⟨_, hw⟩
    · rw [if_pos hb] at hy
      exact ⟨by rw [hy]; decide, by rw [hl]; decide, by rw [e]; exact .refl _⟩
    · rw [hw] at hf
      cases hf
  | abort hl _ e _ hk => exact ⟨by rw [e]; decide, by rw [hl]; decide, hk⟩
  | sweep _ hc _ _ _ => exact absurd hc hpc

/-- **One panic ends collection.** A program panics in user code, at any time and in any thread. As soon as no cycle
stands right before its sweep (which it may do when a mutator panics), no cycle will ever be swept again: from
there on no object is freed, and the byte count only grows. -/
theorem panic_ends_collection (o : GcOptions) (x y w z : Sys) (op : Op) (tr tr' : List (Sys × Label))
    (hx : Reach Step (· = ⟨.fresh o, .waiting⟩) x) (hp : Step x ⟨op, true⟩ y) (hw : Run Step y tr w)
    (hpc : w.pc ≠ .complete) (hz : Run Step w tr' z) :
    (∀ e ∈ tr', e.2.op ≠ .sweep) ∧ z.st.mem.dropped = w.st.mem.dropped ∧
    (∀ a, w.st.mem.alive a = true → z.st.mem.alive a = true) ∧
    w.st.heap.bytesAllocated ≤ z.st.heap.bytesAllocated := by
  have hx : Sound x ∨ Broken x := by
    refine hx.inv (I := fun x => Sound x ∨ Broken x) (fun x e => ?_) fun x l y hx hst => ?_
    · subst e
      exact .inl rfl
    · by_cases hl : l.panics = true
      · exact .inr (broken_of_panic hst hx hl)
      · exact hx.imp (fun hs => sound_step hst hs (by simpa using hl)) (broken_step hst)
  have hbw : Broken w := hw.keeps (fun _ _ _ hb hst => broken_step hst hb) (broken_of_panic hp hx rfl)
  have hrun : Broken z ∧ z.pc ≠ .complete ∧ Kept w.st z.st ∧ ∀ e ∈ tr', e.2.op ≠ .sweep := by
    induction hz with
    | nil => exact ⟨hbw, hpc, .refl _, fun e he => by cases he⟩
    | @snoc z z' l tr _ hst ih =>
      obtain ⟨hb, hz, hk, hno⟩ := ih
      obtain ⟨hz', hl, hk'⟩ := stuck_step hst hb hz
      refine ⟨broken_step hst hb, hz', hk.trans hk', fun e he => ?_⟩
      rcases List.mem_append.1 he with he | he
      · exact hno e he
      · obtain rfl := List.mem_singleton.1 he
        exact hl
  obtain ⟨_, _, hk, hno⟩ := hrun
  exact ⟨hno, hk.dropped, hk.alive, hk.bytes⟩

/-- The trace of object 1 panics; then its root is dropped, and it stays allocated for good. -/
theorem panic_ends_collection_leaks : ∃ (x y z : Sys) (op : Op) (tr : List (Sys × Label)),
    Reach Step (· = ⟨.fresh .default, .waiting⟩) x ∧ Step x ⟨op, true⟩ y ∧ Run Step y tr z ∧
    z.st.mem.rootCount 1 = 0 ∧ ∀ z' tr', Run Step z tr' z' → z'.st.mem.alive 1 = true := by
  let u : UserCode := ⟨fun _ => some 0, fun _ => false⟩
  let s₁ : St := (St.fresh .default).allocate 1 (.node 48 [])
  have h₁ : Reach Step (· = ⟨.fresh .default, .waiting⟩) ⟨s₁, .waiting⟩ :=
    .step (.init rfl) (.allocate (a := 1) (d := .node 48 []) u rfl rfl)
  let s₂ : St := (St.doMarkRoots 1 ⟨s₁.mem, s₁.heap.withPhase .marking⟩ []).get (by decide)
  have h₂ : Reach Step (· = ⟨.fresh .default, .waiting⟩) ⟨s₂, .marking⟩ :=
    h₁.step (.start 1 rfl (Option.eq_some_of_isSome (by decide)))
  let s₃ : St := stLeft (doMarkIncremental u s₂ s₂.heap.options.incrementalWorkBudget)
  have hp : Step ⟨s₂, .marking⟩ ⟨.mark, true⟩ ⟨s₃, .waiting⟩ := .markPanics u rfl
  have hd : Run Step ⟨s₃, .waiting⟩ _ ⟨s₃.dropRoot 1, .waiting⟩ := .snoc (.nil _) .dropRoot
  refine ⟨_, _, _, _, _, h₂, hp, hd, by decide, fun z' tr' hz => ?_⟩
  have hfree := panic_ends_collection .default _ _ _ z' .mark _ tr' h₂ hp hd (by decide) hz
  exact hfree.2.2.1 1 (by decide)

end Abfall.Stuck
