import Mathlib.Logic.Function.Basic
import Mathlib.Logic.Relation
import Mathlib.Data.List.Basic
import Mathlib.Tactic.Simps.Basic
/-!
# The data model: headers, object data and the heap's fields

| here | there |
| --- | --- |
| `Color`, `GcPhase`      | `Color` (`color.rs:13-20`), `GcPhase` (`heap.rs:98-105`) |
| `GcOptions`             | `GcOptions` (`heap.rs:142-244`); `usize` values are naturals, `usizeMax` is `usize::MAX` |
| `Data`                  | the value of a `GcBox<T>`, `T::NO_TRACE` and the box's layout size (`gc_box.rs:16-71`) |
| `Mem`                   | every `GcHeader` and value, one map per field (`gc_box.rs:77-129`) |
| `Heap`                  | the fields of `Heap` (`heap.rs:122-139`); the background thread handle is not one of them |
| `St`                    | a heap together with the memory it works on |

A value is kept as its `GcPtr`s: `cells` lists them in the order `Trace::trace` visits them, one inner
list for each `GcCell` (or plain field) that holds pointers. `GcCell::set` replaces one inner list.

`Mem.alive` says which addresses hold an allocated box. The source dereferences raw pointers; a
dereference of an address that holds no box is undefined behaviour there, and is recorded here in
`Mem.fault` (it is never cleared). `Mem.dropped` logs the calls of the vtable's `drop`.
-/
namespace Abfall

/-- `*const GcHeader`; `GcPtr` and `GcRoot` are the same address. -/
abbrev Addr := Nat

inductive Color
  | white | gray | black
deriving DecidableEq, Repr

inductive GcPhase
  | idle | marking | sweeping
deriving DecidableEq, Repr

/-- `usize::MAX` on a 64-bit target, `2^64 - 1`. -/
def usizeMax : Nat := 18446744073709551615

/-! ## `GcOptions` -/

/-- `collectionInterval` is in nanoseconds. -/
structure GcOptions where
  collectionInterval : Nat
  incrementalWorkBudget : Nat
  assistWorkBudget : Nat
  thresholdPercent : Nat
  thresholdShrinkPercent : Nat
  minThresholdBytes : Nat
  limitBytes : Nat
deriving DecidableEq, Repr

namespace GcOptions

/-- `GcOptions::DEFAULT` (heap.rs:172). -/
def default : GcOptions where
  collectionInterval := 100 * 1000000
  incrementalWorkBudget := 100
  assistWorkBudget := 5
  thresholdPercent := 30
  thresholdShrinkPercent := 30
  minThresholdBytes := 1024 * 1024
  limitBytes := usizeMax

/-- `GcOptions::OFF` (heap.rs:181). -/
def off : GcOptions where
  collectionInterval := 0
  incrementalWorkBudget := usizeMax
  assistWorkBudget := 0
  thresholdPercent := usizeMax
  thresholdShrinkPercent := 0
  minThresholdBytes := usizeMax
  limitBytes := usizeMax

def isThresholdOff (o : GcOptions) : Bool := o.thresholdPercent == 0 || o.thresholdPercent == usizeMax

def isLimitOff (o : GcOptions) : Bool := o.limitBytes == usizeMax

/-- `Duration::as_millis` rounds down. -/
def isBackgroundCollectionOff (o : GcOptions) : Bool :=
  o.isThresholdOff || o.collectionInterval / 1000000 == 0

def isCompletelyOff (o : GcOptions) : Bool := o.isThresholdOff && o.isLimitOff

/-- `calculate_threshold` (heap.rs:222), in exact arithmetic. -/
def calculateThreshold (o : GcOptions) (oldThreshold liveUsage : Nat) : Nat :=
  if o.isThresholdOff then usizeMax
  else
    let newThreshold := liveUsage + liveUsage * o.thresholdPercent / 100
    let applied := if newThreshold < o.minThresholdBytes then o.minThresholdBytes else newThreshold
    if newThreshold < oldThreshold then
      if o.thresholdShrinkPercent = 0 then oldThreshold
      else if o.thresholdShrinkPercent < 100 then
        let shrinkLimit := oldThreshold * o.thresholdShrinkPercent / 100
        if newThreshold > shrinkLimit then oldThreshold else applied
      else applied
    else applied

end GcOptions

/-! ## Object data -/

/-- A value of some `T: Trace` inside its `GcBox<T>`. A type with `NO_TRACE` holds no `GcPtr`
(the contract of `unsafe trait Trace`, trace.rs:83-87). -/
structure Data where
  noTrace : Bool
  size : Nat
  cells : List (List Addr)
  noTrace_cells : noTrace = true → cells = []

/-- An integer, say: no pointers, `NO_TRACE`. -/
def Data.leaf (size : Nat) : Data := ⟨true, size, [], fun _ => rfl⟩

/-- A value with one cell. -/
def Data.node (size : Nat) (vals : List Addr) : Data := ⟨false, size, [vals], fun h => by cases h⟩

/-- The `GcPtr`s of a value, in trace order. -/
def Data.ptrs (d : Data) : List Addr := d.cells.flatten

/-- The value after `GcCell::set` wrote `vals` into its `k`-th cell. -/
def Data.setCell (d : Data) (k : Nat) (vals : List Addr) : Data where
  noTrace := d.noTrace
  size := d.size
  cells := d.cells.set k vals
  noTrace_cells := fun h => by rw [d.noTrace_cells h, List.set_nil]

theorem Data.ptrs_of_noTrace {d : Data} (h : d.noTrace = true) : d.ptrs = [] := by
  simp [Data.ptrs, d.noTrace_cells h]

/-- A pointer stored after a `set` is one of the new ones or was stored before. -/
theorem Data.mem_ptrs_setCell {d : Data} {k : Nat} {vals : List Addr} {p : Addr}
    (h : p ∈ (d.setCell k vals).ptrs) : p ∈ vals ∨ p ∈ d.ptrs := by
  simp only [Data.ptrs, Data.setCell, List.mem_flatten] at h ⊢
  obtain ⟨c, hc, hp⟩ := h
  rcases List.mem_or_eq_of_mem_set hc with hc | rfl
  · exact .inr ⟨c, hc, hp⟩
  · exact .inl hp

/-! ## Memory -/

structure Mem where
  alive : Addr → Bool
  color : Addr → Color
  rootCount : Addr → Nat
  next : Addr → Option Addr
  data : Addr → Data
  /-- Calls of the vtable's `drop`, latest first. -/
  dropped : List Addr
  /-- A header was dereferenced that holds no allocated box. -/
  fault : Bool

namespace Mem

/-- Memory before the first allocation. -/
def empty : Mem where
  alive := fun _ => false
  color := fun _ => .white
  rootCount := fun _ => 0
  next := fun _ => none
  data := fun _ => ⟨false, 0, [], fun _ => rfl⟩
  dropped := []
  fault := false

/-- A dereference of the header at `a`. -/
def touch (m : Mem) (a : Addr) : Mem := { m with fault := m.fault || !m.alive a }

def setColor (m : Mem) (a : Addr) (c : Color) : Mem := { m with color := Function.update m.color a c }

def setNext (m : Mem) (a : Addr) (p : Option Addr) : Mem := { m with next := Function.update m.next a p }

def setData (m : Mem) (a : Addr) (d : Data) : Mem := { m with data := Function.update m.data a d }

/-- `GcBox::new` (gc_box.rs:135) with `GcHeader::new` (:91): White, already rooted once. -/
def newBox (m : Mem) (a : Addr) (d : Data) : Mem :=
  { m with
    alive := Function.update m.alive a true
    color := Function.update m.color a .white
    rootCount := Function.update m.rootCount a 1
    next := Function.update m.next a none
    data := Function.update m.data a d }

/-- `drop_impl` (gc_box.rs:49): the box is dropped and its memory freed. -/
def drop (m : Mem) (a : Addr) : Mem :=
  { m with alive := Function.update m.alive a false, dropped := a :: m.dropped }

theorem drop_alive {m : Mem} {a x : Addr} : (m.drop a).alive x = true ↔ x ≠ a ∧ m.alive x = true := by
  by_cases hx : x = a
  · subst hx
    simp [drop]
  · simp [drop, hx]

/-- Dropping `a`, then the nodes of `l`. -/
theorem drop_alive_and (m : Mem) (a : Addr) (l : List Addr) (x : Addr) :
    ((m.drop a).alive x && decide (x ∉ l)) = (m.alive x && decide (x ∉ a :: l)) := by
  by_cases hx : x = a
  · subst hx
    simp [drop]
  · simp [drop, hx]

def setRootCount (m : Mem) (a : Addr) (n : Nat) : Mem := { m with rootCount := Function.update m.rootCount a n }

def incRoot (m : Mem) (a : Addr) : Mem := (m.touch a).setRootCount a (m.rootCount a + 1)

def decRoot (m : Mem) (a : Addr) : Mem := (m.touch a).setRootCount a (m.rootCount a - 1)

def isRoot (m : Mem) (a : Addr) : Bool := decide (0 < m.rootCount a)

/-- `GcHeader::is_white` (gc_box.rs:114): White **and** not a root. -/
def isWhite (m : Mem) (a : Addr) : Bool := m.color a == .white && !m.isRoot a

/-- The `GcPtr`s stored in the object at `a`. -/
def ptrs (m : Mem) (a : Addr) : List Addr := (m.data a).ptrs

/-- The object graph: `a` stores a `GcPtr` to `b`. -/
def Edge (m : Mem) (a b : Addr) : Prop := b ∈ m.ptrs a

/-- An allocated object with a positive root count. -/
def Rooted (m : Mem) (a : Addr) : Prop := m.alive a = true ∧ 0 < m.rootCount a

/-- Reachable through stored `GcPtr`s from a rooted object. -/
def Reachable (m : Mem) (a : Addr) : Prop := ∃ r, m.Rooted r ∧ Relation.ReflTransGen m.Edge r a

theorem ne_of_alive {m : Mem} {a x : Addr} (ha : m.alive a = false) (hx : m.alive x = true) : x ≠ a := by
  rintro rfl
  rw [ha] at hx
  cases hx

theorem Rooted.reachable {m : Mem} {a : Addr} (h : m.Rooted a) : m.Reachable a := ⟨a, h, .refl⟩

theorem Reachable.next {m : Mem} {a b : Addr} (h : m.Reachable a) (he : m.Edge a b) : m.Reachable b := by
  obtain ⟨r, hr, hp⟩ := h
  exact ⟨r, hr, hp.tail he⟩

/-- A set that holds every rooted object and is closed under stored pointers holds every reachable
object. -/
theorem Reachable.of_closed {m : Mem} {S : Addr → Prop} (hr : ∀ a, m.Rooted a → S a)
    (hc : ∀ a b, S a → m.Edge a b → S b) {a : Addr} (h : m.Reachable a) : S a := by
  obtain ⟨r, hroot, hp⟩ := h
  induction hp with
  | refl => exact hr r hroot
  | tail _ he ih => exact hc _ _ ih he

theorem not_edge_of_noTrace {m : Mem} {a b : Addr} (h : (m.data a).noTrace = true) : ¬ m.Edge a b := by
  simp [Edge, ptrs, Data.ptrs_of_noTrace h]

end Mem

/-! ## The heap's own fields -/

structure Heap where
  head : Option Addr
  options : GcOptions
  bytesAllocated : Nat
  currentThreshold : Nat
  /-- The `Vec` of `GrayQueue` with its last element first. -/
  grayQueue : List Addr
  phase : GcPhase
  nBusyMarking : Nat

namespace Heap

@[simps] def withQueue (h : Heap) (q : List Addr) : Heap := { h with grayQueue := q }

@[simps] def withPhase (h : Heap) (p : GcPhase) : Heap := { h with phase := p }

@[simps] def withHead (h : Heap) (p : Option Addr) : Heap := { h with head := p }

@[simps] def withBytes (h : Heap) (n : Nat) : Heap := { h with bytesAllocated := n }

@[simps] def withBusy (h : Heap) (n : Nat) : Heap := { h with nBusyMarking := n }

/-- `Heap::with_options` (heap.rs:262) before a background thread is started. -/
def withOptions (options : GcOptions) : Heap where
  head := none
  options := options
  bytesAllocated := 0
  currentThreshold := options.minThresholdBytes
  grayQueue := []
  phase := .idle
  nBusyMarking := 0

/-- `update_threshold` (heap.rs:319). -/
def updateThreshold (h : Heap) (liveBytes : Nat) : Heap :=
  { h with currentThreshold := h.options.calculateThreshold h.currentThreshold liveBytes }

/-- `should_collect` (heap.rs:326). -/
def shouldCollect (h : Heap) : Bool :=
  if h.options.isCompletelyOff then false
  else if !h.options.isLimitOff && decide (h.bytesAllocated > h.options.limitBytes) then true
  else decide (h.bytesAllocated > h.currentThreshold)

def isMarking (h : Heap) : Bool := h.phase == .marking

/-- `check_is_marking_and_increment_busy` (heap.rs:362). -/
def checkIsMarkingAndIncrementBusy (h : Heap) : Heap × Bool :=
  let h := h.withBusy (h.nBusyMarking + 1)
  if h.isMarking then (h, true) else (h.withBusy (h.nBusyMarking - 1), false)

def decrementBusyMarking (h : Heap) : Heap := h.withBusy (h.nBusyMarking - 1)

/-- `try_start_marking` (heap.rs:377): the compare-exchange `Idle → Marking`. -/
def tryStartMarking (h : Heap) : Heap × Bool :=
  if h.phase = .idle then (h.withPhase .marking, true) else (h, false)

def startSweeping (h : Heap) : Heap := h.withPhase .sweeping

def finishGc (h : Heap) : Heap := h.withPhase .idle

/-- A cycle that has started. -/
theorem tryStartMarking_true {h h' : Heap} (hst : h.tryStartMarking = (h', true)) :
    h.phase = .idle ∧ h' = h.withPhase .marking := by
  unfold tryStartMarking at hst
  split at hst
  · rename_i hp
    cases hst
    exact ⟨hp, rfl⟩
  · cases hst

theorem checkIsMarking_of_ne {h : Heap} (hp : h.phase ≠ .marking) :
    h.checkIsMarkingAndIncrementBusy = (h, false) := by
  simp [checkIsMarkingAndIncrementBusy, isMarking, hp, withBusy]

theorem checkIsMarking_of_eq {h : Heap} (hp : h.phase = .marking) :
    h.checkIsMarkingAndIncrementBusy = (h.withBusy (h.nBusyMarking + 1), true) := by
  simp [checkIsMarkingAndIncrementBusy, isMarking, hp]

end Heap

structure St where
  mem : Mem
  heap : Heap

/-- A fresh heap, without a background thread. -/
def St.fresh (options : GcOptions) : St := ⟨.empty, .withOptions options⟩

end Abfall
