import Abfall.Budget
/-!
# User code that panics

The collector calls user code in two places: `Trace::trace` while it marks and the destructor of an object
while it sweeps. The definitions below are those of `Mark`, `Sweep` and `Collect` with such a call that may
unwind:

| here | there |
| --- | --- |
| `trace`, `processObject`      | `vtable.trace` in the marking loop (`heap.rs:456-461`) |
| `doMarkLoop`, `doMarkWithTracer`, `doMarkIncremental`, `doMarkWorkFull` | `heap.rs:439-501`; a tracer that is unwound over is dropped with what it holds |
| `sweepLoop`, `doSweep`, `sweepAndFinish` | `heap.rs:415-420`, `:520-559`; `Box::from_raw` frees the box also when the destructor panics |
| `forceCollect`                | `heap.rs:341-349` |
| `assist`, `allocate`          | `heap.rs:280-317` |
| `barrier`, `setCell`          | `cell.rs:44-59` |

`.error s` is a panic that reaches the caller, with the heap as the unwinding leaves it. None of these
functions holds a guard object, so what comes after the call of the user code is skipped: the decrement
of the busy counter, `finish_gc`, the subtraction of the freed bytes. `panic_never_restores`: no panic leaves
the heap as a caller needs it. The list itself survives (`panic_list`): the sweep unlinks an object
before it drops it.
-/
namespace Abfall.Panics
open Chain

/-- Where the user's code panics. -/
structure UserCode where
  /-- `some k`: the object's `Trace::trace` panics after `k` calls of `Tracer::mark`. -/
  trace : Addr → Option Nat
  /-- The object's destructor panics. -/
  drop : Addr → Bool

/-- A run that has not ended yet (`none`), has unwound (`.error`, with what the unwinding leaves), or has
returned. -/
abbrev Exec (α : Type) := ExceptT St Option α

section Exec
variable {α β : Type} {x : Exec α} {f : α → Exec β} {s : St} {b : β}

/-- A panic is one of the first part or of the rest. -/
theorem bind_error (h : (x >>= f) = some (.error s)) :
    x = some (.error s) ∨ ∃ a, x = some (.ok a) ∧ f a = some (.error s) := by
  cases x with
  | none => cases h
  | some r =>
    cases r with
    | error e => exact .inl (by cases h; rfl)
    | ok a => exact .inr ⟨a, rfl, h⟩

theorem bind_ok (h : (x >>= f) = some (.ok b)) : ∃ a, x = some (.ok a) ∧ f a = some (.ok b) := by
  cases x with
  | none => cases h
  | some r =>
    cases r with
    | error e => cases h
    | ok a => exact ⟨a, rfl, h⟩

theorem lift_bind (a : α) (f : α → Exec β) : ExceptT.lift (some a) >>= f = f a := rfl

end Exec

variable (u : UserCode)

/-! ## Marking -/

def trace (m : Mem) (t : Tracer) (a : Addr) : Except Mem (Mem × Tracer) :=
  if (m.data a).noTrace then .ok (m, t)
  else
    match u.trace a with
    | none => .ok (Mem.markAll (m.ptrs a) m t)
    | some k => .error (Mem.markAll ((m.ptrs a).take k) m t).1

def processObject (m : Mem) (t : Tracer) (a : Addr) : Except Mem (Mem × Tracer) :=
  (trace u (m.touch a) t a).map fun r => (r.1.setColor a .black, r.2)

def doMarkLoop : Nat → St → Tracer → Nat → Except St (St × Tracer × Nat)
  | 0, s, t, workDone => .ok (s, t, workDone)
  | budget + 1, s, t, workDone =>
    match s.nextWork t with
    | none => .ok (s, t, workDone)
    | some (p, s, t) =>
      match processObject u s.mem t p with
      | .error m => .error ⟨m, s.heap⟩
      | .ok r => doMarkLoop budget ⟨r.1, s.heap⟩ r.2 (workDone + 1)

def doMarkWithTracer (s : St) (t : Tracer) (workBudget : Nat) : Except St (St × Tracer × Nat) :=
  (doMarkLoop u workBudget s t 0).map fun r =>
    if r.2.1 = [] then r else (r.1.mergeWork r.2.1, [], r.2.2)

def doMarkIncremental (s : St) (workBudget : Nat) : Except St (St × Bool) :=
  (doMarkWithTracer u s [] workBudget).map fun r => (r.1, r.2.2 == 0)

def doMarkWorkFull : Nat → St → Tracer → Exec St
  | 0, _, _ => none
  | fuel + 1, s, t =>
    match doMarkWithTracer u s t s.heap.options.incrementalWorkBudget with
    | .error s => throw s
    | .ok r => if 0 < r.2.2 ∨ 0 < r.1.heap.nBusyMarking then doMarkWorkFull fuel r.1 r.2.1 else pure r.1

/-! ## Sweeping -/

def sweepLoop : Nat → St → Option Addr → PrevNext → Nat → Exec (St × Nat)
  | _, s, none, _, freed => pure (s, freed)
  | 0, _, some _, _, _ => none
  | fuel + 1, s, some a, prev, freed =>
    let s : St := ⟨s.mem.touch a, s.heap⟩
    let nx := s.mem.next a
    if s.mem.isWhite a then
      let s := s.storePrev prev nx
      if u.drop a then throw ⟨s.mem.drop a, s.heap⟩
      else sweepLoop fuel ⟨s.mem.drop a, s.heap⟩ nx prev (freed + (s.mem.data a).size)
    else
      sweepLoop fuel ⟨s.mem.setColor a .white, s.heap⟩ nx (.nextOf a) freed

def doSweep (fuel : Nat) (s : St) : Exec (St × Nat) := do
  let s : St := ⟨s.mem, s.heap.startSweeping⟩
  let r ← sweepLoop u fuel s s.heap.head .head 0
  let allocated := r.1.heap.bytesAllocated - r.2
  pure (⟨r.1.mem, (r.1.heap.withBytes allocated).finishGc⟩, allocated)

def sweepAndFinish (fuel : Nat) (s : St) : Exec (St × Nat) := do
  let r ← doSweep u fuel s
  pure (⟨r.1.mem, (r.1.heap.updateThreshold r.2).finishGc⟩, r.2)

/-! ## The operations -/

def tryMarkFull (fuel : Nat) (s : St) : Exec (St × Bool) :=
  let r := s.heap.tryStartMarking
  if r.2 then do
    let s ← ExceptT.lift (St.doMarkRoots fuel ⟨s.mem, r.1⟩ [])
    let s ← doMarkWorkFull u fuel s []
    pure (s, true)
  else pure (⟨s.mem, r.1⟩, false)

def forceCollect (fuel : Nat) (s : St) : Exec (St × Nat) := do
  let (s, started) ← tryMarkFull u fuel s
  if started then sweepAndFinish u fuel s else pure (s, s.heap.bytesAllocated)

def assist (s : St) : Except St St :=
  if 0 < s.heap.options.assistWorkBudget then
    let r := s.heap.checkIsMarkingAndIncrementBusy
    if r.2 then
      (doMarkIncremental u ⟨s.mem, r.1⟩ s.heap.options.assistWorkBudget).map fun r =>
        ⟨r.1.mem, r.1.heap.decrementBusyMarking⟩
    else .ok ⟨s.mem, r.1⟩
  else .ok s

/-- The value to be allocated is not in a box yet when the assist panics. -/
def allocate (s : St) (a : Addr) (d : Data) : Except St St := (assist u s).map (·.push a d)

/-- The trace of the new value panics after `k` marks for `panics = some k`; what it has shaded stays in
`local_gray`. -/
def barrier (panics : Option Nat) (s : St) (localGray : Tracer) (vals : List Addr) : Except (St × Tracer) (St × Tracer) :=
  let r := s.heap.checkIsMarkingAndIncrementBusy
  if r.2 then
    match panics with
    | some k =>
      let tr := Mem.markAll (vals.take k) s.mem localGray
      .error (⟨tr.1, r.1⟩, tr.2)
    | none =>
      let tr := Mem.markAll vals s.mem localGray
      let s := St.mergeWork ⟨tr.1, r.1⟩ tr.2
      .ok (⟨s.mem, s.heap.decrementBusyMarking⟩, [])
  else .ok (⟨s.mem, r.1⟩, localGray)

def setCell (panics : Option Nat) (s : St) (o : Addr) (k : Nat) (vals : List Addr) : Except St St :=
  match barrier panics s [] vals with
  | .error r => .error r.1
  | .ok r => .ok (r.1.storeCell o k vals)

/-! ## User code that does not panic -/

/-- No call of user code panics: the functions are those of `Mark`, `Sweep` and `Collect`. -/
structure Total (u : UserCode) : Prop where
  trace : ∀ a, u.trace a = none
  drop : ∀ a, u.drop a = false

section Total
variable {u}

theorem processObject_total (h : Total u) (m : Mem) (t : Tracer) (a : Addr) :
    processObject u m t a = .ok (m.processObject t a) := by
  unfold processObject trace Mem.processObject Mem.trace
  split
  · simp [Except.map]
  · simp [h.trace, Except.map]

theorem doMarkLoop_total (h : Total u) (b : Nat) (s : St) (t : Tracer) (n : Nat) :
    doMarkLoop u b s t n = .ok (Abfall.doMarkLoop b s t n) := by
  induction b generalizing s t n with
  | zero => rfl
  | succ b ih =>
    simp only [doMarkLoop, Abfall.doMarkLoop]
    cases s.nextWork t with
    | none => rfl
    | some r =>
      obtain ⟨p, s', t'⟩ := r
      simp only [processObject_total h, ih]

theorem doMarkWithTracer_total (h : Total u) (s : St) (t : Tracer) (b : Nat) :
    doMarkWithTracer u s t b = .ok (s.doMarkWithTracer t b) := by
  simp only [doMarkWithTracer, doMarkLoop_total h, Except.map, St.doMarkWithTracer]

theorem doMarkWorkFull_ok (h : Total u) (fuel : Nat) (s : St) (t : Tracer) :
    doMarkWorkFull u fuel s t = (Abfall.doMarkWorkFull fuel s t).map .ok := by
  induction fuel generalizing s t with
  | zero => rfl
  | succ fuel ih =>
    simp only [doMarkWorkFull, Abfall.doMarkWorkFull, doMarkWithTracer_total h]
    split
    · exact ih _ _
    · rfl

theorem sweepLoop_total (h : Total u) (fuel : Nat) (s : St) (p : Option Addr) (prev : PrevNext) (freed : Nat) :
    sweepLoop u fuel s p prev freed = (Abfall.sweepLoop fuel s p prev freed).map .ok := by
  induction fuel generalizing s p prev freed with
  | zero => cases p <;> rfl
  | succ fuel ih =>
    cases p with
    | none => rfl
    | some a =>
      simp only [sweepLoop, Abfall.sweepLoop, h.drop]
      split
      · exact ih _ _ _ _
      · exact ih _ _ _ _

theorem sweepAndFinish_total (h : Total u) (fuel : Nat) (s : St) :
    sweepAndFinish u fuel s = (s.sweepAndFinish fuel).map .ok := by
  unfold sweepAndFinish doSweep St.sweepAndFinish St.doSweep
  simp only [sweepLoop_total h]
  cases Abfall.sweepLoop fuel ⟨s.mem, s.heap.startSweeping⟩ s.heap.startSweeping.head .head 0 <;> rfl

theorem forceCollect_total (h : Total u) (fuel : Nat) (s : St) :
    forceCollect u fuel s = (s.forceCollect fuel).map .ok := by
  unfold forceCollect tryMarkFull St.forceCollect St.tryMarkFull
  by_cases hst : s.heap.tryStartMarking.2 = true
  · simp only [hst, ↓reduceIte]
    cases h₁ : St.doMarkRoots fuel ⟨s.mem, s.heap.tryStartMarking.1⟩ [] with
    | none => rfl
    | some s₁ =>
      have hwork := doMarkWorkFull_ok h fuel s₁ []
      cases h₂ : Abfall.doMarkWorkFull fuel s₁ [] with
      | none =>
        rw [h₂] at hwork
        simp only [lift_bind, hwork, Option.bind_eq_bind, Option.bind_some, h₂]
        rfl
      | some s₂ =>
        rw [h₂] at hwork
        simp only [lift_bind, hwork, Option.bind_eq_bind, Option.bind_some, h₂, ↓reduceIte]
        exact sweepAndFinish_total h fuel s₂
  · simp only [hst, Bool.false_eq_true, ↓reduceIte]
    rfl

theorem assist_total (h : Total u) (s : St) : assist u s = .ok s.assist := by
  unfold assist St.assist doMarkIncremental
  simp only [doMarkWithTracer_total h, Except.map, St.doMarkIncremental]
  split
  · split <;> rfl
  · rfl

theorem allocate_total (h : Total u) (s : St) (a : Addr) (d : Data) : allocate u s a d = .ok (s.allocate a d) := by
  unfold allocate St.allocate
  rw [assist_total h]
  rfl

theorem setCell_total (s : St) (o : Addr) (k : Nat) (vals : List Addr) :
    setCell none s o k vals = .ok (s.setCell o k vals) := by
  unfold setCell barrier St.setCell St.barrier
  by_cases hr : s.heap.checkIsMarkingAndIncrementBusy.2 = true <;> simp only [hr, ↓reduceIte]
  simp

end Total

/-! ## What marking leaves, whether it returns or unwinds -/

/-- Colors and the shared queue, and nothing else, have changed. -/
structure Marks (s s' : St) : Prop where
  same : s.mem.SameObjects s'.mem
  heap : s'.heap = s.heap.withQueue s'.heap.grayQueue

theorem Marks.refl (s : St) : Marks s s := ⟨.refl _, rfl⟩

theorem Marks.trans {s s₁ s₂ : St} (h : Marks s s₁) (h' : Marks s₁ s₂) : Marks s s₂ := by
  refine ⟨h.same.trans h'.same, ?_⟩
  rw [h'.heap, h.heap]
  rfl

theorem Marks.listed {s s' : St} {l : List Addr} (h : Marks s s') (hl : Listed s l) : Listed s' l :=
  hl.of_same h.same (by rw [h.heap]; rfl) (by rw [h.heap]; rfl)

/-- The memory a trace leaves. -/
def memLeft : Except Mem (Mem × Tracer) → Mem
  | .error m => m
  | .ok r => r.1

/-- The heap an operation leaves. -/
def stLeft {α : Type} : Except St (St × α) → St
  | .error s => s
  | .ok r => r.1

variable {u}

theorem processObject_same (m : Mem) (t : Tracer) (a : Addr) : m.SameObjects (memLeft (processObject u m t a)) := by
  unfold processObject trace
  split
  · exact ⟨rfl, rfl, rfl, rfl, rfl⟩
  · split
    · have hs := Mem.markAll_same ((m.touch a).ptrs a) (m.touch a) t
      exact ((m.touch_same a).trans hs).trans (Mem.setColor_same _ a .black)
    · rename_i k _
      exact (m.touch_same a).trans (Mem.markAll_same (((m.touch a).ptrs a).take k) (m.touch a) t)

theorem doMarkLoop_marks (b : Nat) (s : St) (t : Tracer) (n : Nat) : Marks s (stLeft (doMarkLoop u b s t n)) := by
  induction b generalizing s t n with
  | zero => exact .refl s
  | succ b ih =>
    simp only [doMarkLoop]
    cases hw : s.nextWork t with
    | none => exact .refl s
    | some r =>
      obtain ⟨p, s', t'⟩ := r
      obtain ⟨hm, hh, _⟩ := St.nextWork_some hw
      have hs := processObject_same (u := u) s'.mem t' p
      rw [hm] at hs
      simp only [hm]
      cases hp : processObject u s.mem t' p with
      | error m =>
        rw [hp] at hs
        exact ⟨hs, hh⟩
      | ok r =>
        rw [hp] at hs
        have hstep : Marks s ⟨r.1, s'.heap⟩ := ⟨hs, hh⟩
        exact hstep.trans (ih _ _ _)

theorem doMarkWithTracer_marks (s : St) (t : Tracer) (b : Nat) : Marks s (stLeft (doMarkWithTracer u s t b)) := by
  have h := doMarkLoop_marks (u := u) b s t 0
  unfold doMarkWithTracer
  cases hr : doMarkLoop u b s t 0 with
  | error s' =>
    rw [hr] at h
    exact h
  | ok r =>
    rw [hr] at h
    simp only [Except.map, stLeft]
    split
    · exact h
    · exact h.trans ⟨.refl _, rfl⟩

theorem doMarkWorkFull_marks (fuel : Nat) (s : St) (t : Tracer) :
    (∀ s', doMarkWorkFull u fuel s t = some (.error s') → Marks s s') ∧
    ∀ s', doMarkWorkFull u fuel s t = some (.ok s') → Marks s s' := by
  induction fuel generalizing s t with
  | zero => exact ⟨fun _ h => (by cases h), fun _ h => (by cases h)⟩
  | succ fuel ih =>
    have hm := doMarkWithTracer_marks (u := u) s t s.heap.options.incrementalWorkBudget
    simp only [doMarkWorkFull]
    cases hr : doMarkWithTracer u s t s.heap.options.incrementalWorkBudget with
    | error s₁ =>
      rw [hr] at hm
      refine ⟨fun s' h => ?_, fun s' h => (by cases h)⟩
      cases h
      exact hm
    | ok r =>
      rw [hr] at hm
      have hm : Marks s r.1 := hm
      simp only
      split
      · exact ⟨fun s' h => hm.trans ((ih _ _).1 s' h), fun s' h => hm.trans ((ih _ _).2 s' h)⟩
      · refine ⟨fun s' h => (by cases h), fun s' h => ?_⟩
        cases h
        exact hm

/-! ## A panicking collection -/

/-- What `try_mark_full` leaves. -/
theorem tryMarkFull_some {fuel : Nat} {s : St} {r : Except St (St × Bool)} (h : tryMarkFull u fuel s = some r) :
    (s.heap.phase ≠ .idle ∧ r = .ok (s, false)) ∨
    (s.heap.phase = .idle ∧ ∃ s₁, St.doMarkRoots fuel ⟨s.mem, s.heap.withPhase .marking⟩ [] = some s₁ ∧
      Marks s₁ (stLeft r) ∧ ∀ r', r = .ok r' → r'.2 = true) := by
  by_cases hidle : s.heap.phase = .idle
  swap
  · simp only [tryMarkFull, Heap.tryStartMarking, hidle, ↓reduceIte, Bool.false_eq_true] at h
    cases h
    exact .inl ⟨hidle, rfl⟩
  · refine .inr ⟨hidle, ?_⟩
    simp only [tryMarkFull, Heap.tryStartMarking, hidle, ↓reduceIte] at h
    cases h₁ : St.doMarkRoots fuel ⟨s.mem, s.heap.withPhase .marking⟩ [] with
    | none =>
      rw [h₁] at h
      cases h
    | some s₁ =>
      rw [h₁, lift_bind] at h
      refine ⟨s₁, rfl, ?_⟩
      cases r with
      | error s' =>
        rcases bind_error h with hw | ⟨_, _, hp⟩
        · exact ⟨(doMarkWorkFull_marks fuel s₁ []).1 s' hw, fun _ hr => (by cases hr)⟩
        · cases hp
      | ok r' =>
        obtain ⟨s₂, hw, hp⟩ := bind_ok h
        cases hp
        exact ⟨(doMarkWorkFull_marks fuel s₁ []).2 s₂ hw, fun r' hr => (by cases hr; rfl)⟩

/-- A `force_collect` that unwinds has started a cycle, and unwinds from its marking or from its sweep. -/
theorem forceCollect_error {fuel : Nat} {s s' : St} (h : forceCollect u fuel s = some (.error s')) :
    s.heap.phase = .idle ∧ ∃ s₁, St.doMarkRoots fuel ⟨s.mem, s.heap.withPhase .marking⟩ [] = some s₁ ∧
      (Marks s₁ s' ∨ ∃ s₂, Marks s₁ s₂ ∧
        sweepLoop u fuel ⟨s₂.mem, s₂.heap.startSweeping⟩ s₂.heap.head .head 0 = some (.error s')) := by
  rcases bind_error h with hmark | ⟨⟨s₂, started⟩, hmark, hsweep⟩
  · rcases tryMarkFull_some hmark with ⟨_, hr⟩ | ⟨hidle, s₁, h₁, hm, _⟩
    · cases hr
    · exact ⟨hidle, s₁, h₁, .inl hm⟩
  · rcases tryMarkFull_some hmark with ⟨_, hr⟩ | ⟨hidle, s₁, h₁, hm, hst⟩
    · cases hr
      cases hsweep
    · have hst : started = true := hst _ rfl
      simp only [hst, ↓reduceIte] at hsweep
      rcases bind_error hsweep with hd | ⟨_, _, hp⟩
      · rcases bind_error hd with hloop | ⟨_, _, hp⟩
        · exact ⟨hidle, s₁, h₁, .inr ⟨s₂, hm, hloop⟩⟩
        · cases hp
      · cases hp

/-- A sweep that unwinds has written no field of the heap but `head`. -/
theorem sweepLoop_error_heap (fuel : Nat) (s : St) (p : Option Addr) (prev : PrevNext) (freed : Nat) (s' : St)
    (h : sweepLoop u fuel s p prev freed = some (.error s')) : s'.heap = s.heap.withHead s'.heap.head := by
  induction fuel generalizing s p prev freed with
  | zero => cases p <;> cases h
  | succ fuel ih =>
    cases p with
    | none => cases h
    | some a =>
      simp only [sweepLoop] at h
      split at h
      · split at h
        · cases h
          cases prev <;> rfl
        · have hi := ih _ _ _ _ h
          cases prev <;> exact hi
      · have hi := ih _ _ _ _ h
        exact hi

/-- The cycle is not over for the other threads. -/
theorem forceCollect_error_phase {fuel : Nat} {s s' : St} (h : forceCollect u fuel s = some (.error s')) :
    s'.heap.phase = .marking ∨ s'.heap.phase = .sweeping := by
  obtain ⟨_, s₁, h₁, hcase⟩ := forceCollect_error h
  simp only [St.doMarkRoots, Option.map_eq_some_iff] at h₁
  obtain ⟨r, _, rfl⟩ := h₁
  rcases hcase with hm | ⟨s₂, _, hloop⟩
  · left
    rw [hm.heap]
    rfl
  · right
    rw [sweepLoop_error_heap _ _ _ _ _ _ hloop]
    rfl

/-- **The list survives a destructor that panics**: the object was unlinked before it was dropped. Induction
over what is left of the list, as for `sweepLoop_spec`. -/
theorem sweepLoop_error_list : ∀ (l : List Addr) (fuel : Nat) (s : St) (pre : List Addr) (p : Option Addr)
    (prev : PrevNext) (freed : Nat) (s' : St), PrevOk pre prev → Seg s.mem.next s.heap.head (pre ++ l) none →
    Seg s.mem.next p l none → (∀ x, x ∈ pre ++ l ↔ s.mem.alive x = true) →
    sweepLoop u fuel s p prev freed = some (.error s') →
    ∃ l', Seg s'.mem.next s'.heap.head l' none ∧ (∀ x, x ∈ l' ↔ s'.mem.alive x = true) ∧
      s'.mem.data = s.mem.data ∧ (∃ x ∈ pre ++ l, x ∉ l') ∧ ∀ x ∈ l', x ∈ pre ++ l
  | [], fuel, s, pre, p, prev, freed, s', _, _, hp, _, h => by
    obtain rfl : p = none := hp
    cases fuel <;> cases h
  | a :: l, 0, s, pre, p, prev, freed, s', _, _, hp, _, h => by
    obtain rfl : p = some a := hp.1
    cases h
  | a :: l, fuel + 1, s, pre, p, prev, freed, s', hprev, hl, hp, ha, h => by
    obtain ⟨rfl, hp⟩ := hp
    have haa : s.mem.alive a = true := (ha a).1 (by simp)
    have hna : a ∉ pre ++ l := (seg_middle hl).1
    simp only [sweepLoop, Mem.touch_of_alive haa] at h
    split at h
    · obtain ⟨nx', hd', e, hl', hseg⟩ := storePrev_unlink hprev hl fun x hx => (ha x).1 (by simp [hx])
      rw [e] at h
      -- without `a`, whose box is gone, list and allocated objects agree again
      have hlive : ∀ x, x ∈ pre ++ l ↔ (({ s.mem with next := nx' } : Mem).drop a).alive x = true := by
        intro x
        rw [mem_unlink hna, Mem.drop_alive, ha x]
      have hsub : ∀ x ∈ pre ++ l, x ∈ pre ++ a :: l := fun x hx => ((mem_unlink hna x).1 hx).2
      split at h
      · cases h
        exact ⟨pre ++ l, hl', hlive, rfl, ⟨a, by simp, hna⟩, hsub⟩
      · obtain ⟨l', hl'', hal', hdata, ⟨x, hx, hxl⟩, hsub'⟩ := sweepLoop_error_list l fuel
          ⟨({ s.mem with next := nx' } : Mem).drop a, s.heap.withHead hd'⟩ pre _ prev _ s' hprev hl' hseg hlive h
        exact ⟨l', hl'', hal', hdata, ⟨x, hsub x hx, hxl⟩, fun y hy => hsub y (hsub' y hy)⟩
    · have happ : pre ++ a :: l = (pre ++ [a]) ++ l := by simp
      obtain ⟨l', hl'', hal', hdata, hmiss, hsub'⟩ := sweepLoop_error_list l fuel ⟨s.mem.setColor a .white, s.heap⟩
        (pre ++ [a]) _ (.nextOf a) freed s' ⟨pre, rfl⟩ (by rw [← happ]; exact hl) hp (by rw [← happ]; exact ha) h
      rw [happ]
      exact ⟨l', hl'', hal', hdata, hmiss, hsub'⟩

/-! ## Panicking mutators -/

/-- An assist that unwinds leaves the busy counter incremented. -/
theorem assist_error {s s' : St} (h : assist u s = .error s') :
    Marks ⟨s.mem, s.heap.withBusy (s.heap.nBusyMarking + 1)⟩ s' := by
  unfold assist at h
  split at h
  swap
  · cases h
  by_cases hp : s.heap.phase = .marking
  swap
  · simp only [Heap.checkIsMarking_of_ne hp, Bool.false_eq_true, ↓reduceIte] at h
    cases h
  · simp only [Heap.checkIsMarking_of_eq hp, ↓reduceIte, doMarkIncremental] at h
    have hm := doMarkWithTracer_marks (u := u) ⟨s.mem, s.heap.withBusy (s.heap.nBusyMarking + 1)⟩ []
      s.heap.options.assistWorkBudget
    cases hr : doMarkWithTracer u ⟨s.mem, s.heap.withBusy (s.heap.nBusyMarking + 1)⟩ [] s.heap.options.assistWorkBudget with
    | error s₁ =>
      rw [hr] at h hm
      cases h
      exact hm
    | ok r =>
      rw [hr] at h
      cases h

/-- So does a set, which then does not store the value. -/
theorem setCell_error {panics : Option Nat} {s s' : St} {o : Addr} {k : Nat} {vals : List Addr}
    (h : setCell panics s o k vals = .error s') :
    Marks ⟨s.mem, s.heap.withBusy (s.heap.nBusyMarking + 1)⟩ s' := by
  unfold setCell barrier at h
  by_cases hp : s.heap.phase = .marking
  swap
  · simp only [Heap.checkIsMarking_of_ne hp, Bool.false_eq_true, ↓reduceIte] at h
    cases h
  · simp only [Heap.checkIsMarking_of_eq hp, ↓reduceIte] at h
    cases panics with
    | none => cases h
    | some k =>
      cases h
      exact ⟨Mem.markAll_same (vals.take k) s.mem [], rfl⟩

/-! ## The caller's view -/

inductive Op
  | forceCollect
  | allocate (a : Addr) (d : Data)
  /-- `panics`: where the trace of the new value panics, if it does. -/
  | set (panics : Option Nat) (o : Addr) (k : Nat) (vals : List Addr)

/-- An operation on a heap; only `force_collect` needs a bound. -/
def run (u : UserCode) (fuel : Nat) (s : St) : Op → Exec St
  | .forceCollect => do
    let r ← forceCollect u fuel s
    pure r.1
  | .allocate a d => some (allocate u s a d)
  | .set panics o k vals => some (setCell panics s o k vals)

/-- What a caller that catches the panic needs: the operation's busy increment is undone, a cycle that was
started is over, and the list holds exactly the objects that were not dropped, with their bytes. -/
structure Restored (op : Op) (s s' : St) : Prop where
  busy : s'.heap.nBusyMarking = s.heap.nBusyMarking
  phase : op = .forceCollect → s.heap.phase = .idle → s'.heap.phase = .idle
  listed : ∃ l, Listed s' l

theorem run_error {op : Op} {fuel : Nat} {s s' : St} (h : run u fuel s op = some (.error s')) :
    (op = .forceCollect ∧ forceCollect u fuel s = some (.error s')) ∨
    (op ≠ .forceCollect ∧ Marks ⟨s.mem, s.heap.withBusy (s.heap.nBusyMarking + 1)⟩ s') := by
  cases op with
  | forceCollect =>
    rcases bind_error h with hf | ⟨_, _, hp⟩
    · exact .inl ⟨rfl, hf⟩
    · cases hp
  | allocate a d =>
    refine .inr ⟨by simp, ?_⟩
    have h : allocate u s a d = .error s' := Option.some.inj h
    unfold allocate at h
    cases ha : assist u s with
    | error s₁ =>
      rw [ha] at h
      cases h
      exact assist_error ha
    | ok s₁ =>
      rw [ha] at h
      cases h
  | set panics o k vals => exact .inr ⟨by simp, setCell_error (Option.some.inj h)⟩

/-- After every panic `head` still leads through exactly the objects that were not dropped. The byte count
is the old one, whatever was dropped. -/
theorem panic_list {op : Op} {fuel : Nat} {s s' : St} {l : List Addr} (hl : Listed s l)
    (h : run u fuel s op = some (.error s')) :
    ∃ l', Seg s'.mem.next s'.heap.head l' none ∧ (∀ a, a ∈ l' ↔ s'.mem.alive a = true) ∧
      s'.heap.bytesAllocated = s.heap.bytesAllocated := by
  rcases run_error h with ⟨_, hf⟩ | ⟨_, hm⟩
  · obtain ⟨_, s₁, h₁, hcase⟩ := forceCollect_error hf
    obtain rfl := St.doMarkRoots_some (s := ⟨s.mem, s.heap.withPhase .marking⟩) hl.seg h₁
    have hl₁ : Listed ⟨(scanRoots l s.mem []).1, (s.heap.withPhase .marking).withQueue
        ((scanRoots l s.mem []).2 ++ s.heap.grayQueue)⟩ l := hl.of_same (scanRoots_same l s.mem []) rfl rfl
    rcases hcase with hm | ⟨s₂, hm, hloop⟩
    · exact ⟨l, (hm.listed hl₁).seg, (hm.listed hl₁).alive, by rw [hm.heap]; rfl⟩
    · have hl₂ := hm.listed hl₁
      obtain ⟨l', hseg, hal, _⟩ := sweepLoop_error_list l fuel ⟨s₂.mem, s₂.heap.startSweeping⟩ [] s₂.heap.head
        .head 0 s' rfl hl₂.seg hl₂.seg hl₂.alive hloop
      refine ⟨l', hseg, hal, ?_⟩
      rw [sweepLoop_error_heap _ _ _ _ _ _ hloop]
      show s₂.heap.bytesAllocated = _
      rw [hm.heap]
      rfl
  · have hl' := hm.listed (l := l) (hl.of_same (.refl _) rfl rfl)
    exact ⟨l, hl'.seg, hl'.alive, by rw [hm.heap]; rfl⟩

/-- **No panic is repaired.** Whatever the heap, the operation and the object at which user code panics, a
panic that reaches the caller leaves the heap broken: `force_collect` in the phase Marking or Sweeping,
an assist or a barrier with the busy counter incremented. -/
theorem panic_never_restores (u : UserCode) (s s' : St) (op : Op) (fuel : Nat)
    (h : run u fuel s op = some (.error s')) : ¬ Restored op s s' := by
  intro hr
  rcases run_error h with ⟨rfl, hf⟩ | ⟨_, hm⟩
  · have hidle := hr.phase rfl (forceCollect_error hf).1
    rcases forceCollect_error_phase hf with hp | hp <;> rw [hp] at hidle <;> cases hidle
  · have hbusy : s'.heap.nBusyMarking = s.heap.nBusyMarking + 1 := by rw [hm.heap]; rfl
    have := hr.busy
    omega

/-- The trace of object 1 panics in `force_collect`. -/
theorem panic_never_restores_trace : ∃ (u : UserCode) (s' : St),
    run u 4 rootedPair .forceCollect = some (.error s') ∧ ¬ Restored .forceCollect rootedPair s' := by
  have h : run ⟨fun a => if a = 1 then some 0 else none, fun _ => false⟩ 4 rootedPair .forceCollect =
      some (.error _) := rfl
  exact ⟨_, _, h, panic_never_restores _ _ _ _ _ h⟩

/-- Object 7 is garbage and its destructor panics: the phase stays Sweeping, and 40 bytes are counted for an
empty list. The next `force_collect` finds a cycle running and returns. -/
theorem panic_breaks_heap : ∃ (u : UserCode) (s s' : St), (∃ l, Listed s l) ∧ s.heap.phase = .idle ∧
    run u 4 s .forceCollect = some (.error s') ∧ s'.heap.phase = .sweeping ∧ s'.heap.head = none ∧
    s'.heap.bytesAllocated = 40 ∧ ¬ Restored .forceCollect s s' := by
  let s : St := ((St.fresh .default).mutate (.allocate 7 (.leaf 40))).mutate (.dropRoot 7)
  have hwf : WF s := by
    refine WF.mutate (WF.mutate (wf_fresh _) (fun _ h => h) ?_) (fun _ h => h) ?_
    · exact ⟨rfl, by decide⟩
    · exact ⟨by decide, by decide⟩
  have h : run ⟨fun _ => none, fun a => a == 7⟩ 4 s .forceCollect = some (.error _) := rfl
  refine ⟨_, s, _, hwf.listed, rfl, h, by decide, by decide, by decide, fun hr => ?_⟩
  exact absurd (hr.phase rfl rfl) (by decide)

end Abfall.Panics
