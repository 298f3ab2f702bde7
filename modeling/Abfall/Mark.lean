import Abfall.Basic
import Abfall.Chain
import Abfall.Worklist
import Mathlib.Data.Finset.Card
/-!
# Marking: `Tracer` (trace.rs) and the marking loops of `Heap` (heap.rs:422-518)

| here | there |
| --- | --- |
| `Mem.markHeader`, `Mem.mark`  | `Tracer::mark_header`, `Tracer::mark` (`trace.rs:60-78`) |
| `Mem.trace`                   | `vtable.trace`: `trace_noop` or `trace_impl` (`gc_box.rs:33-47`) |
| `Mem.processObject`           | the body of the marking loop: trace, then `mark_black` (`heap.rs:456-461`) |
| `stealFrom`, `stealWork`, `mergeWork` | `trace.rs:31-46`, `heap.rs:425-434` |
| `doMarkLoop`, `doMarkWithTracer`      | `heap.rs:439-472` |
| `doMarkIncremental`, `doMarkWorkFull`, `doMarkRoots` | `heap.rs:477-518` |

A `Vec` used as a stack is a list with its top first, so `dest.append(src)` is `src ++ dest`.

The invariants of marking are stated over a memory and the *set* of the objects waiting to be
processed, wherever they wait; `doMarkWithTracer_rule` then moves any such invariant through a whole
call: stealing and merging do not change the set.
-/
namespace Abfall
open Chain

/-- `Tracer` (trace.rs:19). -/
abbrev Tracer := List Addr

namespace Mem

def markHeader (m : Mem) (t : Tracer) (a : Addr) : Mem × Tracer :=
  if m.color a = .white then ((m.touch a).setColor a .gray, a :: t) else (m.touch a, t)

/-- `Tracer::mark`: `T` is the type of the object pointed to, so `T::NO_TRACE` is the object's own. -/
def mark (m : Mem) (t : Tracer) (a : Addr) : Mem × Tracer :=
  if (m.data a).noTrace then ((m.touch a).setColor a .black, t) else m.markHeader t a

/-- The calls of `Tracer::mark` a `Trace::trace` makes, in order. -/
def markAll : List Addr → Mem → Tracer → Mem × Tracer
  | [], m, t => (m, t)
  | p :: ps, m, t => markAll ps (m.mark t p).1 (m.mark t p).2

def trace (m : Mem) (t : Tracer) (a : Addr) : Mem × Tracer :=
  if (m.data a).noTrace then (m, t) else markAll (m.ptrs a) m t

def processObject (m : Mem) (t : Tracer) (a : Addr) : Mem × Tracer :=
  let r := (m.touch a).trace t a
  (r.1.setColor a .black, r.2)

end Mem

/-! ## The shared queue and the loops -/

/-- The moving loop of `Tracer::steal_from`. -/
def moveItems : Nat → List Addr → Tracer → List Addr × Tracer
  | 0, src, t => (src, t)
  | _ + 1, [], t => ([], t)
  | n + 1, x :: src, t => moveItems n src (x :: t)

/-- `Tracer::steal_from` (trace.rs:36); `none` is its `false`. -/
def stealFrom (t : Tracer) (numItems : Nat) (src : List Addr) : Option (List Addr × Tracer) :=
  if src = [] ∨ numItems = 0 then none else some (moveItems numItems src t)

def St.stealWork (s : St) (t : Tracer) (maxItems : Nat) : Option (St × Tracer) :=
  (stealFrom t maxItems s.heap.grayQueue).map fun r =>
    (⟨s.mem, s.heap.withQueue r.1⟩, r.2)

def St.mergeWork (s : St) (t : Tracer) : St := ⟨s.mem, s.heap.withQueue (t ++ s.heap.grayQueue)⟩

/-- Getting the next object: pop from the tracer, else steal a batch of 8 and go round the loop again
(`continue`). A successful steal moves at least one item and leaves `work_done` alone, so the next
round pops; `none` is the `break`. -/
def St.nextWork (s : St) (t : Tracer) : Option (Addr × St × Tracer) :=
  match t with
  | p :: t => some (p, s, t)
  | [] =>
    match s.stealWork [] 8 with
    | some (s, p :: t) => some (p, s, t)
    | _ => none

/-- The `while work_done < work_budget` loop, by the budget that is left. -/
def doMarkLoop : Nat → St → Tracer → Nat → St × Tracer × Nat
  | 0, s, t, workDone => (s, t, workDone)
  | budget + 1, s, t, workDone =>
    match s.nextWork t with
    | none => (s, t, workDone)
    | some (p, s, t) =>
      let r := s.mem.processObject t p
      doMarkLoop budget ⟨r.1, s.heap⟩ r.2 (workDone + 1)

/-- `do_mark_with_tracer` (heap.rs:439): the new state, the tracer and `work_done`. -/
def St.doMarkWithTracer (s : St) (t : Tracer) (workBudget : Nat) : St × Tracer × Nat :=
  let r := doMarkLoop workBudget s t 0
  if r.2.1 = [] then r else (r.1.mergeWork r.2.1, [], r.2.2)

/-- `do_mark_incremental` (heap.rs:477): true if marking is complete. -/
def St.doMarkIncremental (s : St) (workBudget : Nat) : St × Bool :=
  let r := s.doMarkWithTracer [] workBudget
  (r.1, r.2.2 == 0)

/-- `do_mark_work_full` (heap.rs:494) with a bound on its rounds; `none` is "not done yet". -/
def doMarkWorkFull : Nat → St → Tracer → Option St
  | 0, _, _ => none
  | fuel + 1, s, t =>
    let r := s.doMarkWithTracer t s.heap.options.incrementalWorkBudget
    if 0 < r.2.2 ∨ 0 < r.1.heap.nBusyMarking then doMarkWorkFull fuel r.1 r.2.1 else some r.1

/-- What `do_mark_roots` does with one listed object. -/
def Mem.scanRoot (m : Mem) (t : Tracer) (a : Addr) : Mem × Tracer :=
  if m.isRoot a then m.markHeader t a else (m.touch a, t)

/-- The list walk of `do_mark_roots`, with a bound on its steps. -/
def markRootsLoop : Nat → Mem → Tracer → Option Addr → Option (Mem × Tracer)
  | _, m, t, none => some (m, t)
  | 0, _, _, some _ => none
  | fuel + 1, m, t, some a =>
    let r := m.scanRoot t a
    markRootsLoop fuel r.1 r.2 (r.1.next a)

/-- `do_mark_roots` (heap.rs:503). -/
def St.doMarkRoots (fuel : Nat) (s : St) (t : Tracer) : Option St :=
  (markRootsLoop fuel s.mem t s.heap.head).map fun r => St.mergeWork ⟨r.1, s.heap⟩ r.2

/-! ## What marking leaves alone -/

namespace Mem

/-- Two memories that agree on everything but colors and the fault flag. -/
structure SameObjects (m m' : Mem) : Prop where
  alive : m'.alive = m.alive
  rootCount : m'.rootCount = m.rootCount
  next : m'.next = m.next
  data : m'.data = m.data
  dropped : m'.dropped = m.dropped

theorem SameObjects.refl (m : Mem) : SameObjects m m := ⟨rfl, rfl, rfl, rfl, rfl⟩

theorem SameObjects.trans {m₁ m₂ m₃ : Mem} (h : SameObjects m₁ m₂) (h' : SameObjects m₂ m₃) :
    SameObjects m₁ m₃ :=
  ⟨h'.alive.trans h.alive, h'.rootCount.trans h.rootCount, h'.next.trans h.next, h'.data.trans h.data,
    h'.dropped.trans h.dropped⟩

theorem SameObjects.edge {m m' : Mem} (h : SameObjects m m') : m'.Edge = m.Edge := by
  funext a b
  simp only [Edge, ptrs, h.data]

theorem SameObjects.rooted {m m' : Mem} (h : SameObjects m m') (a : Addr) : m'.Rooted a ↔ m.Rooted a := by
  simp only [Rooted, h.alive, h.rootCount]

/-- `Tracer::mark` does one of three things. -/
theorem mark_cases (m : Mem) (t : Tracer) (p : Addr) :
    ((m.data p).noTrace = true ∧ m.mark t p = ((m.touch p).setColor p .black, t)) ∨
    (m.color p = .white ∧ m.mark t p = ((m.touch p).setColor p .gray, p :: t)) ∨
    (m.color p ≠ .white ∧ m.mark t p = (m.touch p, t)) := by
  unfold mark markHeader
  by_cases hn : (m.data p).noTrace = true
  · exact .inl ⟨hn, by simp [hn]⟩
  · by_cases hw : m.color p = .white
    · exact .inr (.inl ⟨hw, by simp [hn, hw]⟩)
    · exact .inr (.inr ⟨hw, by simp [hn, hw]⟩)

theorem touch_same (m : Mem) (a : Addr) : SameObjects m (m.touch a) := ⟨rfl, rfl, rfl, rfl, rfl⟩

theorem setColor_same (m : Mem) (a : Addr) (c : Color) : SameObjects m (m.setColor a c) :=
  ⟨rfl, rfl, rfl, rfl, rfl⟩

theorem markHeader_same (m : Mem) (t : Tracer) (a : Addr) : SameObjects m (m.markHeader t a).1 := by
  unfold markHeader
  split <;> exact ⟨rfl, rfl, rfl, rfl, rfl⟩

theorem scanRoot_same (m : Mem) (t : Tracer) (a : Addr) : SameObjects m (m.scanRoot t a).1 := by
  unfold scanRoot
  split
  · exact markHeader_same m t a
  · exact touch_same m a

theorem mark_same (m : Mem) (t : Tracer) (p : Addr) : SameObjects m (m.mark t p).1 := by
  unfold mark
  split
  · exact ⟨rfl, rfl, rfl, rfl, rfl⟩
  · exact markHeader_same m t p

/-- Induction rule for `markAll`. -/
theorem markAll_rule {K : Mem → Tracer → Prop} :
    ∀ {ps : List Addr} {m : Mem} {t : Tracer},
      (∀ m t p, p ∈ ps → K m t → K (m.mark t p).1 (m.mark t p).2) → K m t →
      K (markAll ps m t).1 (markAll ps m t).2
  | [], _, _, _, h => h
  | p :: ps, m, t, hk, h => by
    simp only [markAll]
    exact markAll_rule (fun m t q hq => hk m t q (by simp [hq])) (hk m t p (by simp) h)

theorem markAll_same (ps : List Addr) (m : Mem) (t : Tracer) : SameObjects m (markAll ps m t).1 :=
  markAll_rule (K := fun m' _ => SameObjects m m') (fun m' t p _ h => h.trans (mark_same m' t p)) (.refl m)

theorem trace_same (m : Mem) (t : Tracer) (a : Addr) : SameObjects m (m.trace t a).1 := by
  unfold trace
  split
  · exact .refl m
  · exact markAll_same _ _ _

theorem processObject_same (m : Mem) (t : Tracer) (a : Addr) : SameObjects m (m.processObject t a).1 :=
  ((touch_same m a).trans (trace_same _ t a)).trans (setColor_same _ a .black)

@[simp] theorem touch_color (m : Mem) (a : Addr) : (m.touch a).color = m.color := rfl

@[simp] theorem setColor_color (m : Mem) (a x : Addr) (c : Color) :
    (m.setColor a c).color x = if x = a then c else m.color x := by
  simp [setColor, Function.update_apply]

/-- What `Tracer::mark` makes Gray is in the tracer. -/
theorem mark_gray (m : Mem) (t : Tracer) (p : Addr) {x : Addr} (h : (m.mark t p).1.color x = .gray) :
    m.color x = .gray ∨ x ∈ (m.mark t p).2 := by
  rcases mark_cases m t p with ⟨_, e⟩ | ⟨_, e⟩ | ⟨_, e⟩ <;> rw [e] at h ⊢
  · rw [setColor_color] at h
    split at h
    · cases h
    · exact .inl h
  · rw [setColor_color] at h
    split at h
    · rename_i hx
      exact .inr (by simp [hx])
    · exact .inl h
  · exact .inl h

theorem mark_tracer (m : Mem) (t : Tracer) (p : Addr) {x : Addr} (h : x ∈ t) : x ∈ (m.mark t p).2 := by
  rcases mark_cases m t p with ⟨_, e⟩ | ⟨_, e⟩ | ⟨_, e⟩ <;> rw [e]
  · exact h
  · exact List.mem_cons_of_mem p h
  · exact h

/-! ## Colors only move away from White -/

theorem mark_nonwhite (m : Mem) (t : Tracer) (p : Addr) : (m.mark t p).1.color p ≠ .white := by
  rcases mark_cases m t p with ⟨_, e⟩ | ⟨_, e⟩ | ⟨h, e⟩ <;> rw [e]
  · simp
  · simp
  · exact h

theorem mark_mono (m : Mem) (t : Tracer) (p : Addr) {x : Addr} (h : m.color x ≠ .white) :
    (m.mark t p).1.color x ≠ .white := by
  rcases mark_cases m t p with ⟨_, e⟩ | ⟨_, e⟩ | ⟨_, e⟩ <;> rw [e] <;> simp <;> grind

theorem markAll_mono (ps : List Addr) (m : Mem) (t : Tracer) {x : Addr} (h : m.color x ≠ .white) :
    (markAll ps m t).1.color x ≠ .white :=
  markAll_rule (K := fun m _ => m.color x ≠ .white) (fun m t p _ hx => mark_mono m t p hx) h

theorem markAll_nonwhite : ∀ (ps : List Addr) (m : Mem) (t : Tracer), ∀ p ∈ ps,
    (markAll ps m t).1.color p ≠ .white
  | p :: ps, m, t, x, hx => by
    simp only [markAll]
    rcases List.mem_cons.1 hx with rfl | hx
    · exact markAll_mono ps _ _ (mark_nonwhite m t x)
    · exact markAll_nonwhite ps _ _ x hx

/-- The color `Tracer::mark` gives. -/
def shade (m : Mem) (p : Addr) : Color :=
  if (m.data p).noTrace then .black else if m.color p = .white then .gray else m.color p

theorem mark_color (m : Mem) (t : Tracer) (p x : Addr) :
    (m.mark t p).1.color x = if x = p then m.shade p else m.color x := by
  unfold mark markHeader shade
  by_cases hn : (m.data p).noTrace = true <;> by_cases hw : m.color p = .white <;> by_cases hx : x = p <;>
    simp [hn, hw, hx]

/-- What tracing a value does to the colors. -/
theorem markAll_color (ps : List Addr) (m : Mem) (t : Tracer) (x : Addr) :
    (markAll ps m t).1.color x = if x ∈ ps then m.shade x else m.color x := by
  induction ps generalizing m t with
  | nil => simp [markAll]
  | cons p ps ih =>
    have hsh : (m.mark t p).1.shade x = m.shade x := by
      unfold shade
      rw [(m.mark_same t p).data, mark_color]
      unfold shade
      split <;> grind
    simp only [markAll]
    rw [ih, hsh, mark_color]
    by_cases hxp : x = p
    · subst hxp; simp
    · simp [hxp]

/-- What tracing a value collects: the White objects, unless they have nothing to trace. -/
theorem mem_markAll (ps : List Addr) (m : Mem) (t : Tracer) (x : Addr) :
    x ∈ (markAll ps m t).2 ↔ x ∈ t ∨ (x ∈ ps ∧ m.color x = .white ∧ (m.data x).noTrace = false) := by
  induction ps generalizing m t with
  | nil => simp [markAll]
  | cons p ps ih =>
    simp only [markAll]
    rw [ih, (m.mark_same t p).data, mark_color]
    unfold mark markHeader shade
    by_cases hxp : x = p
    · subst hxp
      by_cases hn : (m.data x).noTrace = true <;> by_cases hw : m.color x = .white <;> simp [hn, hw]
    · by_cases hn : (m.data p).noTrace = true <;> by_cases hw : m.color p = .white <;> simp [hn, hw, hxp]

/-- After a trace every pointer of the object is shaded. -/
theorem trace_nonwhite {m : Mem} {t : Tracer} {a b : Addr} (he : m.Edge a b) :
    (m.trace t a).1.color b ≠ .white := by
  unfold trace
  split
  · rename_i hn; exact absurd he (not_edge_of_noTrace hn)
  · exact markAll_nonwhite _ _ _ b he

end Mem

/-! ## Moving work around -/

theorem moveItems_perm : ∀ (n : Nat) (src : List Addr) (t : Tracer),
    ((moveItems n src t).2 ++ (moveItems n src t).1).Perm (t ++ src)
  | 0, _, _ => .refl _
  | _ + 1, [], _ => .refl _
  | n + 1, x :: src, t => by
    simp only [moveItems]
    exact (moveItems_perm n src (x :: t)).trans (List.perm_middle.symm)

theorem moveItems_ne_nil : ∀ (n : Nat) (src : List Addr) (t : Tracer), t ≠ [] → (moveItems n src t).2 ≠ []
  | 0, _, _, h => h
  | _ + 1, [], _, h => h
  | n + 1, x :: src, t, _ => by
    simp only [moveItems]
    exact moveItems_ne_nil n src (x :: t) (by simp)

theorem St.stealWork_of_ne {s : St} (hq : s.heap.grayQueue ≠ []) :
    s.stealWork [] 8 = some (⟨s.mem, s.heap.withQueue (moveItems 8 s.heap.grayQueue []).1⟩,
      (moveItems 8 s.heap.grayQueue []).2) := by
  simp [stealWork, stealFrom, hq]

/-- A batch stolen from a non-empty queue is not empty, so `nextWork` stops only when nothing is left. -/
theorem St.nextWork_none {s : St} {t : Tracer} (h : s.nextWork t = none) :
    t = [] ∧ s.heap.grayQueue = [] := by
  cases t with
  | cons p t => simp [nextWork] at h
  | nil =>
    refine ⟨rfl, ?_⟩
    by_contra hq
    simp only [nextWork, stealWork_of_ne hq] at h
    cases hm : (moveItems 8 s.heap.grayQueue []).2 with
    | nil =>
      obtain ⟨x, q, hx⟩ := List.exists_cons_of_ne_nil hq
      rw [hx] at hm
      exact moveItems_ne_nil 7 q [x] (by simp) hm
    | cons y ys => simp [hm] at h

/-- `nextWork` takes one object out of the tracer and the queue, and touches nothing else. -/
theorem St.nextWork_some {s s' : St} {t t' : Tracer} {p : Addr} (h : s.nextWork t = some (p, s', t')) :
    s'.mem = s.mem ∧ s'.heap = s.heap.withQueue s'.heap.grayQueue ∧
      (p :: (t' ++ s'.heap.grayQueue)).Perm (t ++ s.heap.grayQueue) := by
  cases t with
  | cons q t =>
    simp only [nextWork, Option.some.injEq, Prod.mk.injEq] at h
    obtain ⟨rfl, rfl, rfl⟩ := h
    exact ⟨rfl, rfl, .refl _⟩
  | nil =>
    by_cases hq : s.heap.grayQueue = []
    · simp [nextWork, stealWork, stealFrom, hq] at h
    · simp only [nextWork, stealWork_of_ne hq] at h
      have hperm := moveItems_perm 8 s.heap.grayQueue []
      cases hm : (moveItems 8 s.heap.grayQueue []).2 with
      | nil => simp [hm] at h
      | cons y ys =>
        simp only [hm, Option.some.injEq, Prod.mk.injEq] at h
        obtain ⟨rfl, rfl, rfl⟩ := h
        rw [hm] at hperm
        exact ⟨rfl, rfl, hperm⟩

/-! ## A rule for whole marking calls -/

/-- The objects waiting to be processed. -/
def waiting (t q : List Addr) : Set Addr := {x | x ∈ t ∨ x ∈ q}

theorem waiting_of_perm {p : Addr} {t q t' q' : List Addr} (h : (p :: (t' ++ q')).Perm (t ++ q)) :
    waiting t q = insert p (waiting t' q') := by
  ext x
  have := h.mem_iff (a := x)
  simp only [List.mem_cons, List.mem_append] at this
  simp only [waiting, Set.mem_insert_iff, Set.mem_ofPred_eq]
  exact this.symm

/-- What processing one object does to a property of the memory and the waiting objects. -/
def ProcessKeeps (J : Mem → Set Addr → Prop) : Prop :=
  ∀ (m : Mem) (t q : List Addr) (a : Addr), J m (insert a (waiting t q)) →
    J (m.processObject t a).1 (waiting (m.processObject t a).2 q)

theorem doMarkLoop_rule {J : Mem → Set Addr → Prop} (hJ : ProcessKeeps J) :
    ∀ (b : Nat) (s : St) (t : Tracer) (n : Nat), J s.mem (waiting t s.heap.grayQueue) →
      J (doMarkLoop b s t n).1.mem
        (waiting (doMarkLoop b s t n).2.1 (doMarkLoop b s t n).1.heap.grayQueue)
  | 0, _, _, _, h => h
  | b + 1, s, t, n, h => by
    simp only [doMarkLoop]
    cases hw : s.nextWork t with
    | none => exact h
    | some r =>
      obtain ⟨p, s', t'⟩ := r
      obtain ⟨hm, _, hperm⟩ := St.nextWork_some hw
      refine doMarkLoop_rule hJ b _ _ _ ?_
      simp only [hm]
      apply hJ
      rw [← waiting_of_perm hperm]
      exact h

theorem doMarkLoop_heap : ∀ (b : Nat) (s : St) (t : Tracer) (n : Nat),
    (doMarkLoop b s t n).1.heap = s.heap.withQueue (doMarkLoop b s t n).1.heap.grayQueue
  | 0, _, _, _ => rfl
  | b + 1, s, t, n => by
    simp only [doMarkLoop]
    cases hw : s.nextWork t with
    | none => rfl
    | some r =>
      obtain ⟨p, s', t'⟩ := r
      obtain ⟨_, hh, _⟩ := St.nextWork_some hw
      rw [doMarkLoop_heap b, hh]
      rfl

/-- Work left over means the whole budget was spent. -/
theorem doMarkLoop_done : ∀ (b : Nat) (s : St) (t : Tracer) (n : Nat),
    (doMarkLoop b s t n).2.2 = n + b ∨
      ((doMarkLoop b s t n).2.1 = [] ∧ (doMarkLoop b s t n).1.heap.grayQueue = [])
  | 0, _, _, _ => .inl rfl
  | b + 1, s, t, n => by
    simp only [doMarkLoop]
    cases hw : s.nextWork t with
    | none => exact .inr (St.nextWork_none hw)
    | some r =>
      obtain ⟨p, s', t'⟩ := r
      refine (doMarkLoop_done b _ _ (n + 1)).imp (fun h => ?_) id
      simp only at h ⊢
      omega

theorem doMarkLoop_le : ∀ (b : Nat) (s : St) (t : Tracer) (n : Nat), n ≤ (doMarkLoop b s t n).2.2
  | 0, _, _, _ => Nat.le_refl _
  | b + 1, s, t, n => by
    simp only [doMarkLoop]
    cases hw : s.nextWork t with
    | none => exact Nat.le_refl _
    | some r =>
      obtain ⟨p, s', t'⟩ := r
      exact Nat.le_trans (Nat.le_succ n) (doMarkLoop_le b _ _ (n + 1))

namespace St

/-- After a call the tracer is empty: what was left has been merged into the shared queue. -/
theorem doMarkWithTracer_tracer (s : St) (t : Tracer) (b : Nat) : (s.doMarkWithTracer t b).2.1 = [] := by
  unfold doMarkWithTracer
  by_cases h : (doMarkLoop b s t 0).2.1 = [] <;> simp [h]

theorem doMarkWithTracer_mem (s : St) (t : Tracer) (b : Nat) :
    (s.doMarkWithTracer t b).1.mem = (doMarkLoop b s t 0).1.mem := by
  unfold doMarkWithTracer mergeWork
  by_cases h : (doMarkLoop b s t 0).2.1 = [] <;> simp [h]

theorem doMarkWithTracer_work (s : St) (t : Tracer) (b : Nat) :
    (s.doMarkWithTracer t b).2.2 = (doMarkLoop b s t 0).2.2 := by
  unfold doMarkWithTracer
  by_cases h : (doMarkLoop b s t 0).2.1 = [] <;> simp [h]

theorem doMarkWithTracer_queue (s : St) (t : Tracer) (b : Nat) :
    (s.doMarkWithTracer t b).1.heap.grayQueue =
      (doMarkLoop b s t 0).2.1 ++ (doMarkLoop b s t 0).1.heap.grayQueue := by
  unfold doMarkWithTracer mergeWork
  by_cases h : (doMarkLoop b s t 0).2.1 = [] <;> simp [h]

/-- Marking writes the queue and no other field of the heap. -/
theorem doMarkWithTracer_heap (s : St) (t : Tracer) (b : Nat) :
    (s.doMarkWithTracer t b).1.heap = s.heap.withQueue (s.doMarkWithTracer t b).1.heap.grayQueue := by
  have hh := doMarkLoop_heap b s t 0
  unfold doMarkWithTracer mergeWork
  by_cases h : (doMarkLoop b s t 0).2.1 = []
  · simp only [h, ↓reduceIte]; exact hh
  · simp only [h, ↓reduceIte]; rw [hh]; rfl

/-- **Rule for `do_mark_with_tracer`**: a property kept by processing one object is kept by a call. -/
theorem doMarkWithTracer_rule {J : Mem → Set Addr → Prop} (hJ : ProcessKeeps J) {s : St} {t : Tracer}
    (b : Nat) (h : J s.mem (waiting t s.heap.grayQueue)) :
    J (s.doMarkWithTracer t b).1.mem (waiting [] (s.doMarkWithTracer t b).1.heap.grayQueue) := by
  have hl := doMarkLoop_rule hJ b s t 0 h
  rw [doMarkWithTracer_mem, doMarkWithTracer_queue]
  have e : waiting [] ((doMarkLoop b s t 0).2.1 ++ (doMarkLoop b s t 0).1.heap.grayQueue) =
      waiting (doMarkLoop b s t 0).2.1 (doMarkLoop b s t 0).1.heap.grayQueue := by
    ext x; simp [waiting]
  rw [e]
  exact hl

/-- "If we did no work, marking is complete" (heap.rs:481): with a positive budget, no work means that
the queue is empty, and nothing has changed. -/
theorem doMarkWithTracer_zero {s : St} {t : Tracer} {b : Nat} (hb : 0 < b)
    (h : (s.doMarkWithTracer t b).2.2 = 0) : t = [] ∧ s.heap.grayQueue = [] ∧ (s.doMarkWithTracer t b).1 = s := by
  obtain ⟨b, rfl⟩ : ∃ b', b = b' + 1 := ⟨b - 1, by omega⟩
  rw [doMarkWithTracer_work] at h
  cases hw : s.nextWork t with
  | none =>
    obtain ⟨ht, hq⟩ := nextWork_none hw
    have e : doMarkLoop (b + 1) s t 0 = (s, t, 0) := by simp [doMarkLoop, hw]
    subst ht
    exact ⟨rfl, hq, by simp [doMarkWithTracer, e]⟩
  | some r =>
    obtain ⟨p, s', t'⟩ := r
    simp only [doMarkLoop, hw, Nat.zero_add] at h
    have := doMarkLoop_le b ⟨(s'.mem.processObject t' p).1, s'.heap⟩ (s'.mem.processObject t' p).2 1
    omega

end St
end Abfall
