import Abfall.Conc.Push
/-!
# `bytes_allocated` under concurrent allocations, roots and a sweep

| here | there |
| --- | --- |
| `AllocPc` | `Heap::allocate` (`heap.rs:287-317`) from `GcBox::new` on: push loop, `fetch_add`, the `GcRoot` handed out |
| `SweepPc` | `do_sweep` (`heap.rs:520-559`) with its local `freed`; `is_white` is two loads (`gc_box.rs:114-116`) |
| `Step`    | one load, store, compare-exchange, `fetch_add`, `fetch_sub` or destructor call |

Linking and counting are two steps, so are freeing and subtracting. An object is *counted* when its box
is allocated and no running `allocate` still has to add its size (`Counted`). `bytes_exact` says that
the counter is the size sum of the counted objects plus what the sweep in progress has freed.

`handles a` is the number of `GcRoot`s to `a` that user code holds. What marking does to the colors is
left open: any color may change at any time (`shade`). A new object's `root_count` is 1 from
`GcBox::new` on, before any `GcRoot` to it exists; this is what keeps the sweep from freeing an object
whose size was not added yet.

A store to `head` by the sweep may take new objects off the list (`Push.push_lost`). They are never
freed then and stay counted, so the account does not need the list to be complete. What it needs of the list
is `Push.Linked`, at the part of `allocate` and of the sweep that `Abfall.Push` models (`pushing`, `sweeping`).
-/
namespace Abfall.Bytes
open Chain Transition
open Push (ThreadId Linked Pos)

inductive AllocPc
  | idle
  | boxed (n : Addr)
  | loaded (n : Addr) (h : Option Addr)
  | stored (n : Addr) (h : Option Addr)
  /-- The compare-exchange succeeded; the size is not added yet. -/
  | linked (n : Addr)
  /-- The size is added; the `GcRoot` is not returned yet. -/
  | added (n : Addr)
deriving DecidableEq, Repr

namespace AllocPc

/-- The box of a running `allocate`. -/
def node : AllocPc → Option Addr
  | idle => none
  | boxed n => some n
  | loaded n _ => some n
  | stored n _ => some n
  | linked n => some n
  | added n => some n

/-- The box, while its size is not added. -/
def uncounted : AllocPc → Option Addr
  | added _ => none
  | p => p.node

/-- Where the thread stands in the push loop. -/
def pushing : AllocPc → Push.AllocPc
  | boxed n => .boxed n
  | loaded n h => .loaded n h
  | stored n h => .stored n h
  | idle => .idle
  | linked _ => .idle
  | added _ => .idle

end AllocPc

inductive SweepPc
  | idle
  /-- At the `while`, with `current`, `prev_next` and `freed`. -/
  | loop (current : Option Addr) (prev : PrevNext) (freed : Nat)
  | loaded (a : Addr) (nx : Option Addr) (prev : PrevNext) (freed : Nat)
  /-- The color was White; `root_count` is loaded next. -/
  | white (a : Addr) (nx : Option Addr) (prev : PrevNext) (freed : Nat)
  | unlink (a : Addr) (nx : Option Addr) (prev : PrevNext) (freed : Nat)
  | drop (a : Addr) (nx : Option Addr) (prev : PrevNext) (freed : Nat)
  | reset (a : Addr) (nx : Option Addr) (freed : Nat)
  /-- `fetch_sub` returned `old`; the live bytes `old - freed` are computed next. -/
  | subtracted (old freed : Nat)
deriving DecidableEq, Repr

namespace SweepPc

/-- Freed and not subtracted from the counter yet. -/
def pending : SweepPc → Nat
  | idle => 0
  | loop _ _ freed => freed
  | loaded _ _ _ freed => freed
  | white _ _ _ freed => freed
  | unlink _ _ _ freed => freed
  | drop _ _ _ freed => freed
  | reset _ _ freed => freed
  | subtracted _ _ => 0

/-- The object found White and without a root. -/
def doomed : SweepPc → Option Addr
  | unlink a _ _ _ => some a
  | drop a _ _ _ => some a
  | _ => none

/-- Where the loop stands in the list, as in `Abfall.Push`: without `freed`, and both loads of `is_white` at `loaded`. -/
def sweeping : SweepPc → Push.SweepPc
  | idle => .start
  | loop cur prev _ => .loop cur prev
  | loaded a nx prev _ => .loaded a nx prev
  | white a nx prev _ => .loaded a nx prev
  | unlink a nx prev _ => .unlink a nx prev
  | drop a nx prev _ => .drop a nx prev
  | reset a nx _ => .reset a nx
  | subtracted _ _ => .done

end SweepPc

structure Sys where
  mem : Mem
  head : Option Addr
  bytes : Nat
  handles : Addr → Nat
  alloc : ThreadId → AllocPc
  sweep : SweepPc

inductive Label
  | box (t : ThreadId) (n : Addr) (d : Data)
  | load (t : ThreadId)
  | store (t : ThreadId)
  | cas (t : ThreadId)
  | fetchAdd (t : ThreadId)
  | handOut (t : ThreadId)
  | cloneRoot (a : Addr)
  | dropRoot (a : Addr)
  | shade (a : Addr) (c : Color)
  | sweepHead
  | sweepNext
  | sweepColor
  | sweepRootCount
  | sweepUnlink
  | sweepDrop
  | sweepReset
  | fetchSub
  | sweepEnd

namespace Sys

def setAlloc (s : Sys) (t : ThreadId) (p : AllocPc) : Sys := { s with alloc := Function.update s.alloc t p }

def setSweep (s : Sys) (p : SweepPc) : Sys := { s with sweep := p }

def setHandles (s : Sys) (a : Addr) (k : Nat) : Sys := { s with handles := Function.update s.handles a k }

/-- `(*prev_next).store(next)`. -/
def storePrev (s : Sys) (prev : PrevNext) (nx : Option Addr) : Sys :=
  match prev with
  | .head => { s with head := nx }
  | .nextOf b => { s with mem := s.mem.setNext b nx }

def sizeOf (s : Sys) (a : Addr) : Nat := (s.mem.data a).size

end Sys

inductive Step : Sys → Label → Sys → Prop
  | box {s : Sys} (t : ThreadId) (n : Addr) (d : Data) : s.alloc t = .idle → s.mem.alive n = false →
      Step s (.box t n d) ({ s with mem := s.mem.newBox n d }.setAlloc t (.boxed n))
  | load {s : Sys} (t : ThreadId) {n : Addr} : s.alloc t = .boxed n →
      Step s (.load t) (s.setAlloc t (.loaded n s.head))
  | store {s : Sys} (t : ThreadId) {n : Addr} {h : Option Addr} : s.alloc t = .loaded n h →
      Step s (.store t) ({ s with mem := s.mem.setNext n h }.setAlloc t (.stored n h))
  | casOk {s : Sys} (t : ThreadId) {n : Addr} {h : Option Addr} : s.alloc t = .stored n h → s.head = h →
      Step s (.cas t) ({ s with head := some n }.setAlloc t (.linked n))
  | casFail {s : Sys} (t : ThreadId) {n : Addr} {h : Option Addr} : s.alloc t = .stored n h → s.head ≠ h →
      Step s (.cas t) (s.setAlloc t (.boxed n))
  | fetchAdd {s : Sys} (t : ThreadId) {n : Addr} : s.alloc t = .linked n →
      Step s (.fetchAdd t) ({ s with bytes := s.bytes + s.sizeOf n }.setAlloc t (.added n))
  | handOut {s : Sys} (t : ThreadId) {n : Addr} : s.alloc t = .added n →
      Step s (.handOut t) ((s.setHandles n (s.handles n + 1)).setAlloc t .idle)
  | cloneRoot {s : Sys} (a : Addr) : 0 < s.handles a →
      Step s (.cloneRoot a) ({ s with mem := s.mem.incRoot a }.setHandles a (s.handles a + 1))
  | dropRoot {s : Sys} (a : Addr) : 0 < s.handles a →
      Step s (.dropRoot a) ({ s with mem := s.mem.decRoot a }.setHandles a (s.handles a - 1))
  | shade {s : Sys} (a : Addr) (c : Color) : Step s (.shade a c) { s with mem := s.mem.setColor a c }
  | sweepHead {s : Sys} : s.sweep = .idle → Step s .sweepHead (s.setSweep (.loop s.head .head 0))
  | sweepNext {s : Sys} {a : Addr} {prev : PrevNext} {freed : Nat} : s.sweep = .loop (some a) prev freed →
      Step s .sweepNext (s.setSweep (.loaded a (s.mem.next a) prev freed))
  | sweepColor {s : Sys} {a : Addr} {nx : Option Addr} {prev : PrevNext} {freed : Nat} :
      s.sweep = .loaded a nx prev freed →
      Step s .sweepColor
        (s.setSweep (if s.mem.color a = .white then .white a nx prev freed else .reset a nx freed))
  | sweepRootCount {s : Sys} {a : Addr} {nx : Option Addr} {prev : PrevNext} {freed : Nat} :
      s.sweep = .white a nx prev freed →
      Step s .sweepRootCount (s.setSweep (if s.mem.isRoot a then .reset a nx freed else .unlink a nx prev freed))
  | sweepUnlink {s : Sys} {a : Addr} {nx : Option Addr} {prev : PrevNext} {freed : Nat} :
      s.sweep = .unlink a nx prev freed →
      Step s .sweepUnlink ((s.storePrev prev nx).setSweep (.drop a nx prev freed))
  | sweepDrop {s : Sys} {a : Addr} {nx : Option Addr} {prev : PrevNext} {freed : Nat} :
      s.sweep = .drop a nx prev freed →
      Step s .sweepDrop ({ s with mem := s.mem.drop a }.setSweep (.loop nx prev (freed + s.sizeOf a)))
  | sweepReset {s : Sys} {a : Addr} {nx : Option Addr} {freed : Nat} : s.sweep = .reset a nx freed →
      Step s .sweepReset ({ s with mem := s.mem.setColor a .white }.setSweep (.loop nx (.nextOf a) freed))
  | fetchSub {s : Sys} {prev : PrevNext} {freed : Nat} : s.sweep = .loop none prev freed →
      Step s .fetchSub ({ s with bytes := s.bytes - freed }.setSweep (.subtracted s.bytes freed))
  | sweepEnd {s : Sys} {old freed : Nat} : s.sweep = .subtracted old freed → Step s .sweepEnd (s.setSweep .idle)

/-- A fresh heap. -/
def init : Sys where
  mem := .empty
  head := none
  bytes := 0
  handles := fun _ => 0
  alloc := fun _ => .idle
  sweep := .idle

/-- Allocated, and its size is added to the counter. -/
def Counted (m : Mem) (al : ThreadId → AllocPc) (a : Addr) : Prop :=
  m.alive a = true ∧ ∀ t, (al t).uncounted ≠ some a

/-- The sizes of the objects in `P` add up to `n`. -/
def HasSize (m : Mem) (P : Addr → Prop) (n : Nat) : Prop :=
  ∃ l : List Addr, l.Nodup ∧ (∀ a, a ∈ l ↔ P a) ∧ sizeSum m l = n

namespace HasSize

variable {m m' : Mem} {P Q : Addr → Prop} {n : Nat}

theorem congr (h : HasSize m P n) (hPQ : ∀ a, Q a ↔ P a) (hd : ∀ a, P a → (m'.data a).size = (m.data a).size) :
    HasSize m' Q n := by
  obtain ⟨l, hnd, hl, hsum⟩ := h
  refine ⟨l, hnd, fun a => (hl a).trans (hPQ a).symm, ?_⟩
  rw [← hsum]
  exact sizeSum_congr fun a ha => hd a ((hl a).1 ha)

/-- One object more. -/
theorem insert (h : HasSize m P n) {b : Addr} (hb : ¬ P b) (hQ : ∀ a, Q a ↔ a = b ∨ P a) :
    HasSize m Q (n + (m.data b).size) := by
  obtain ⟨l, hnd, hl, hsum⟩ := h
  refine ⟨b :: l, List.nodup_cons.2 ⟨fun hm => hb ((hl b).1 hm), hnd⟩, fun a => ?_, ?_⟩
  · rw [List.mem_cons, hl, hQ]
  · rw [sizeSum_cons, hsum, Nat.add_comm]

/-- One object less. -/
theorem erase (h : HasSize m P n) {b : Addr} (hb : P b) (hQ : ∀ a, Q a ↔ a ≠ b ∧ P a) :
    ∃ k, HasSize m Q k ∧ n = k + (m.data b).size := by
  obtain ⟨l, hnd, hl, hsum⟩ := h
  have hperm := List.perm_cons_erase ((hl b).2 hb)
  refine ⟨_, ⟨l.erase b, hnd.erase b, fun a => ?_, rfl⟩, ?_⟩
  · rw [hnd.mem_erase_iff, hl, hQ]
  · rw [← hsum, sizeSum_perm hperm, sizeSum_cons, Nat.add_comm]

end HasSize

/-! ## The invariant -/

/-- The list from `head` holds allocated boxes only, and no box that is still to be pushed. It need
not hold all the others. -/
def ListOk (m : Mem) (head : Option Addr) (al : ThreadId → AllocPc) (pc : SweepPc) (l : List Addr) : Prop :=
  Linked m head (AllocPc.pushing ∘ al) pc.sweeping l

/-- The root counts are the `GcRoot`s held, plus the one a running `allocate` is about to return. -/
structure RootsOk (m : Mem) (handles : Addr → Nat) (al : ThreadId → AllocPc) (pc : SweepPc) : Prop where
  own : ∀ t n, (al t).node = some n → m.alive n = true ∧ m.rootCount n = 1 ∧ handles n = 0
  apart : ∀ t t' n, (al t).node = some n → (al t').node = some n → t = t'
  shared : ∀ a, m.alive a = true → (∀ t, (al t).node ≠ some a) → m.rootCount a = handles a
  live : ∀ a, 0 < handles a → m.alive a = true
  doomed : ∀ a, pc.doomed = some a → m.alive a = true ∧ m.rootCount a = 0

/-- The account. -/
structure BytesOk (m : Mem) (al : ThreadId → AllocPc) (pc : SweepPc) (bytes : Nat) : Prop where
  sum : ∃ n, HasSize m (Counted m al) n ∧ bytes = n + pc.pending
  enough : ∀ old freed, pc = .subtracted old freed → freed ≤ old

structure Inv (s : Sys) : Prop where
  list : ∃ l, ListOk s.mem s.head s.alloc s.sweep l
  roots : RootsOk s.mem s.handles s.alloc s.sweep
  bytes : BytesOk s.mem s.alloc s.sweep s.bytes

theorem AllocPc.node_of_uncounted {p : AllocPc} {n : Addr} (h : p.uncounted = some n) : p.node = some n := by
  cases p with
  | added _ => cases h
  | _ => exact h

/-! ## The list -/

/-- A thread that moves on in `allocate` moves on in the push loop. -/
theorem ListOk.set {m : Mem} {head : Option Addr} {al : ThreadId → AllocPc} {pc : SweepPc} {l : List Addr} {t : ThreadId}
    {p : AllocPc} (h : Linked m head (Function.update (AllocPc.pushing ∘ al) t p.pushing) pc.sweeping l) :
    ListOk m head (Function.update al t p) pc l := by
  rw [ListOk, Function.comp_update]
  exact h

/-! ## The roots -/

namespace RootsOk

variable {m m' : Mem} {handles : Addr → Nat} {al : ThreadId → AllocPc} {pc : SweepPc} {t : ThreadId}

theorem frame (h : RootsOk m handles al pc) (ha : m'.alive = m.alive) (hr : m'.rootCount = m.rootCount) :
    RootsOk m' handles al pc := by
  refine ⟨fun t n hn => ?_, h.apart, fun a hal hfree => ?_, fun a hh => ?_, fun a hd => ?_⟩
  · rw [ha, hr]; exact h.own t n hn
  · rw [ha] at hal
    rw [hr]; exact h.shared a hal hfree
  · rw [ha]; exact h.live a hh
  · rw [ha, hr]; exact h.doomed a hd

/-- A thread moves on in `allocate` with the box it has. -/
theorem keep (h : RootsOk m handles al pc) {p : AllocPc} (hp : p.node = (al t).node) :
    RootsOk m handles (Function.update al t p) pc := by
  have hnode := update_same AllocPc.node hp
  refine ⟨fun t' n hn => ?_, fun t₁ t₂ n h₁ h₂ => ?_, fun a hal hfree => ?_, h.live, h.doomed⟩
  · rw [hnode] at hn; exact h.own t' n hn
  · rw [hnode] at h₁ h₂; exact h.apart t₁ t₂ n h₁ h₂
  · refine h.shared a hal fun t' hn => hfree t' ?_
    rw [hnode]; exact hn

theorem move (h : RootsOk m handles al pc) {pc' : SweepPc}
    (hd : ∀ a, pc'.doomed = some a → m.alive a = true ∧ m.rootCount a = 0) : RootsOk m handles al pc' :=
  ⟨h.own, h.apart, h.shared, h.live, hd⟩

theorem root_count (h : RootsOk m handles al pc) {a : Addr} (hpos : 0 < handles a) : m.rootCount a = handles a := by
  refine h.shared a (h.live a hpos) fun t ht => ?_
  have := (h.own t a ht).2.2
  omega

theorem free_of_not_alive (h : RootsOk m handles al pc) {n : Addr} (hn : m.alive n = false) :
    ∀ t, (al t).node ≠ some n := by
  intro t ht
  exact Mem.ne_of_alive hn (h.own t n ht).1 rfl

/-- Nobody's box: its root count is 0. -/
theorem free_of_doomed (h : RootsOk m handles al pc) {a : Addr} (hd : pc.doomed = some a) :
    ∀ t, (al t).node ≠ some a := by
  intro t ht
  have h1 := (h.own t a ht).2.1
  have h0 := (h.doomed a hd).2
  omega

theorem box (h : RootsOk m handles al pc) {n : Addr} (d : Data) (ht : al t = .idle) (hn : m.alive n = false) :
    RootsOk (m.newBox n d) handles (Function.update al t (.boxed n)) pc := by
  have hfree := h.free_of_not_alive hn
  have hne : ∀ a, m.alive a = true → a ≠ n := fun a => Mem.ne_of_alive hn
  have hsame : ∀ a, m.alive a = true → (m.newBox n d).alive a = true ∧ (m.newBox n d).rootCount a = m.rootCount a := by
    intro a ha
    exact ⟨by simpa [Mem.newBox, hne a ha] using ha, Function.update_of_ne (hne a ha) _ _⟩
  have hh : handles n = 0 := by
    by_contra hpos
    exact hne n (h.live n (Nat.pos_of_ne_zero hpos)) rfl
  refine ⟨fun t' n' hn' => ?_, fun t₁ t₂ n' h₁ h₂ => ?_, fun a ha hnone => ?_, fun a hpos => ?_, fun a hd => ?_⟩
  · rcases update_cases AllocPc.node hn' with ⟨_, hn'⟩ | ⟨_, hn'⟩
    · cases hn'
      exact ⟨by simp [Mem.newBox], by simp [Mem.newBox], hh⟩
    · obtain ⟨hal, hrc, hh'⟩ := h.own t' n' hn'
      exact ⟨(hsame n' hal).1, (hsame n' hal).2.trans hrc, hh'⟩
  · rcases update_cases AllocPc.node h₁ with ⟨e₁, h₁⟩ | ⟨_, h₁⟩ <;>
      rcases update_cases AllocPc.node h₂ with ⟨e₂, h₂⟩ | ⟨_, h₂⟩
    · rw [e₁, e₂]
    · cases h₁
      exact absurd h₂ (hfree t₂)
    · cases h₂
      exact absurd h₁ (hfree t₁)
    · exact h.apart t₁ t₂ n' h₁ h₂
  · have hna : a ≠ n := by
      rintro rfl
      exact hnone t (by rw [Function.update_self]; rfl)
    have hal : m.alive a = true := by simpa [Mem.newBox, hna] using ha
    rw [(hsame a hal).2]
    refine h.shared a hal fun t' hn' => ?_
    by_cases htt : t' = t
    · subst htt
      rw [ht] at hn'
      cases hn'
    · exact hnone t' (by rw [Function.update_of_ne htt]; exact hn')
  · exact (hsame a (h.live a hpos)).1
  · obtain ⟨hal, hrc⟩ := h.doomed a hd
    exact ⟨(hsame a hal).1, (hsame a hal).2.trans hrc⟩

/-- The `GcRoot` of a new object is handed out. -/
theorem handOut (h : RootsOk m handles al pc) {n : Addr} (ht : al t = .added n) :
    RootsOk m (Function.update handles n (handles n + 1)) (Function.update al t .idle) pc := by
  have hnode : (al t).node = some n := by rw [ht]; rfl
  obtain ⟨hal, hrc, hh⟩ := h.own t n hnode
  have hother : ∀ t' n', (Function.update al t .idle t').node = some n' → (al t').node = some n' ∧ n' ≠ n := by
    intro t' n' hn'
    rcases update_cases AllocPc.node hn' with ⟨_, hn'⟩ | ⟨htt, hn'⟩
    · cases hn'
    · refine ⟨hn', ?_⟩
      rintro rfl
      exact htt (h.apart t' t n' hn' hnode)
  refine ⟨fun t' n' hn' => ?_, fun t₁ t₂ n' h₁ h₂ => h.apart t₁ t₂ n' (hother t₁ n' h₁).1 (hother t₂ n' h₂).1,
    fun a ha hnone => ?_, fun a hpos => ?_, h.doomed⟩
  · obtain ⟨hn', hne⟩ := hother t' n' hn'
    rw [Function.update_of_ne hne]
    exact h.own t' n' hn'
  · by_cases hna : a = n
    · subst hna
      rw [Function.update_self, hrc, hh]
    · rw [Function.update_of_ne hna]
      refine h.shared a ha fun t' hn' => hnone t' ?_
      have htt : t' ≠ t := by
        rintro rfl
        rw [hnode] at hn'
        exact hna (Option.some.inj hn').symm
      rw [Function.update_of_ne htt]
      exact hn'
  · by_cases hna : a = n
    · rw [hna]; exact hal
    · rw [Function.update_of_ne hna] at hpos
      exact h.live a hpos

/-- A clone or a drop of a `GcRoot` to `a`: both counts move alike. -/
theorem setRoots (h : RootsOk m handles al pc) {a : Addr} (hpos : 0 < handles a) (k : Nat)
    (ha : m'.alive = m.alive) (hr : m'.rootCount = Function.update m.rootCount a k) :
    RootsOk m' (Function.update handles a k) al pc := by
  have hal := h.live a hpos
  have hfree : ∀ t, (al t).node ≠ some a := by
    intro t ht
    have := (h.own t a ht).2.2
    omega
  have hrc := h.shared a hal hfree
  refine ⟨fun t n hn => ?_, h.apart, fun x hx hnone => ?_, fun x hx => ?_, fun x hd => ?_⟩
  · have hne : n ≠ a := by
      rintro rfl
      exact hfree t hn
    rw [ha, hr, Function.update_of_ne hne, Function.update_of_ne hne]
    exact h.own t n hn
  · rw [ha] at hx
    by_cases hxa : x = a
    · rw [hr, hxa, Function.update_self, Function.update_self]
    · rw [hr, Function.update_of_ne hxa, Function.update_of_ne hxa]
      exact h.shared x hx hnone
  · rw [ha]
    by_cases hxa : x = a
    · rw [hxa]; exact hal
    · rw [Function.update_of_ne hxa] at hx
      exact h.live x hx
  · obtain ⟨hx, h0⟩ := h.doomed x hd
    have hxa : x ≠ a := by
      rintro rfl
      omega
    rw [ha, hr, Function.update_of_ne hxa]
    exact ⟨hx, h0⟩

/-- Freeing the doomed object: nobody has a `GcRoot` to it. -/
theorem drop (h : RootsOk m handles al pc) {a : Addr} (hd : pc.doomed = some a) {pc' : SweepPc}
    (hd' : pc'.doomed = none) : RootsOk (m.drop a) handles al pc' := by
  obtain ⟨hal, h0⟩ := h.doomed a hd
  have hfree := h.free_of_doomed hd
  have hh : handles a = 0 := (h.shared a hal hfree).symm.trans h0
  have halive : ∀ x, x ≠ a → (m.drop a).alive x = m.alive x := fun x hx => Function.update_of_ne hx _ _
  refine ⟨fun t n hn => ?_, h.apart, fun x hx hnone => ?_, fun x hx => ?_, fun x hx => ?_⟩
  · rw [halive n (by rintro rfl; exact hfree t hn)]
    exact h.own t n hn
  · have hxa : x ≠ a := by
      rintro rfl
      simp [Mem.drop] at hx
    rw [halive x hxa] at hx
    exact h.shared x hx hnone
  · rw [halive x (by rintro rfl; omega)]
    exact h.live x hx
  · rw [hd'] at hx
    cases hx

end RootsOk

/-! ## The counter -/

namespace BytesOk

variable {m m' : Mem} {al al' : ThreadId → AllocPc} {pc pc' : SweepPc} {bytes : Nat} {t : ThreadId}

/-- A step that frees nothing and adds nothing. -/
theorem frame (h : BytesOk m al pc bytes) (hc : ∀ a, Counted m' al' a ↔ Counted m al a)
    (hd : ∀ a, Counted m al a → (m'.data a).size = (m.data a).size) (hp : pc'.pending = pc.pending)
    (he : ∀ old freed, pc' = .subtracted old freed → freed ≤ old) : BytesOk m' al' pc' bytes := by
  obtain ⟨n, hn, hsum⟩ := h.sum
  exact ⟨⟨n, hn.congr hc hd, by rw [hp]; exact hsum⟩, he⟩

theorem mem (h : BytesOk m al pc bytes) (ha : m'.alive = m.alive) (hd : m'.data = m.data) : BytesOk m' al pc bytes := by
  refine h.frame (fun a => ?_) (fun a _ => by rw [hd]) rfl h.enough
  rw [Counted, Counted, ha]

theorem set (h : BytesOk m al pc bytes) {p : AllocPc} (hp : p.uncounted = (al t).uncounted) :
    BytesOk m (Function.update al t p) pc bytes := by
  refine h.frame (fun a => ?_) (fun _ _ => rfl) rfl h.enough
  simp only [Counted, update_same AllocPc.uncounted hp]

theorem move (h : BytesOk m al pc bytes) (hp : pc'.pending = pc.pending)
    (he : ∀ old freed, pc' ≠ .subtracted old freed) : BytesOk m al pc' bytes :=
  h.frame (fun _ => Iff.rfl) (fun _ _ => rfl) hp fun old freed e => absurd e (he old freed)

/-- A new box is not counted. -/
theorem box (h : BytesOk m al pc bytes) {n : Addr} (d : Data) (ht : al t = .idle) (hn : m.alive n = false) :
    BytesOk (m.newBox n d) (Function.update al t (.boxed n)) pc bytes := by
  have hne : ∀ a, Counted m al a → a ≠ n := fun a hc => Mem.ne_of_alive hn hc.1
  refine h.frame (fun a => ⟨fun hc => ?_, fun hc => ?_⟩) (fun a hc => ?_) rfl h.enough
  · have hna : a ≠ n := by
      rintro rfl
      exact hc.2 t (by rw [Function.update_self]; rfl)
    refine ⟨by simpa [Mem.newBox, hna] using hc.1, fun t' hu => ?_⟩
    by_cases htt : t' = t
    · subst htt
      rw [ht] at hu
      cases hu
    · exact hc.2 t' (by rw [Function.update_of_ne htt]; exact hu)
  · have hna := hne a hc
    refine ⟨by simpa [Mem.newBox, hna] using hc.1, fun t' hu => ?_⟩
    rcases update_cases AllocPc.uncounted hu with ⟨_, hu⟩ | ⟨_, hu⟩
    · exact hna (Option.some.inj hu).symm
    · exact hc.2 t' hu
  · simp [Mem.newBox, hne a hc]

/-- `fetch_add`: the box counts from now on. -/
theorem fetchAdd (h : BytesOk m al pc bytes) {n : Addr} (ht : al t = .linked n) (hal : m.alive n = true)
    (hapart : ∀ t', (al t').node = some n → t' = t) :
    BytesOk m (Function.update al t (.added n)) pc (bytes + (m.data n).size) := by
  obtain ⟨k, hk, hsum⟩ := h.sum
  have hun : (al t).uncounted = some n := by rw [ht]; rfl
  refine ⟨⟨k + (m.data n).size, hk.insert (b := n) (fun hc => hc.2 t hun) fun a => ⟨fun hc => ?_, fun hc => ?_⟩,
    by omega⟩, h.enough⟩
  · by_cases hna : a = n
    · exact .inl hna
    · refine .inr ⟨hc.1, fun t' hu => ?_⟩
      by_cases htt : t' = t
      · subst htt
        rw [hun] at hu
        exact hna (Option.some.inj hu).symm
      · exact hc.2 t' (by rw [Function.update_of_ne htt]; exact hu)
  · -- the thread's own box is counted now, and it is no other thread's
    have hrest : ∀ t', (Function.update al t (.added n) t').uncounted = some a → t' ≠ t ∧ (al t').uncounted = some a := by
      intro t' hu
      rcases update_cases AllocPc.uncounted hu with ⟨_, hu⟩ | hu
      · cases hu
      · exact hu
    rcases hc with rfl | hc
    · exact ⟨hal, fun t' hu => (hrest t' hu).1 (hapart t' (AllocPc.node_of_uncounted (hrest t' hu).2))⟩
    · exact ⟨hc.1, fun t' hu => hc.2 t' (hrest t' hu).2⟩

/-- A freed object was counted: what leaves the sum is added to `freed`. -/
theorem drop {a : Addr} {nx : Option Addr} {prev : PrevNext} {freed : Nat}
    (h : BytesOk m al (.drop a nx prev freed) bytes) (hal : m.alive a = true) (hfree : ∀ t, (al t).node ≠ some a) :
    BytesOk (m.drop a) al (.loop nx prev (freed + (m.data a).size)) bytes := by
  obtain ⟨n, hn, hsum⟩ := h.sum
  have hcounted : Counted m al a := ⟨hal, fun t hu => hfree t (AllocPc.node_of_uncounted hu)⟩
  obtain ⟨k, hk, rfl⟩ := hn.erase (Q := Counted (m.drop a) al) hcounted fun x => by
    by_cases hxa : x = a
    · simp [Counted, Mem.drop, hxa]
    · simp [Counted, Mem.drop, hxa]
  refine ⟨⟨k, hk.congr (fun _ => Iff.rfl) fun _ _ => rfl, ?_⟩, fun _ _ e => by cases e⟩
  simp only [SweepPc.pending] at hsum ⊢
  omega

/-- `fetch_sub`. -/
theorem fetchSub {prev : PrevNext} {freed : Nat} (h : BytesOk m al (.loop none prev freed) bytes) :
    freed ≤ bytes ∧ BytesOk m al (.subtracted bytes freed) (bytes - freed) := by
  obtain ⟨n, hn, hsum⟩ := h.sum
  simp only [SweepPc.pending] at hsum
  refine ⟨by omega, ⟨⟨n, hn, ?_⟩, fun old k e => ?_⟩⟩
  · simp only [SweepPc.pending]
    omega
  · cases e
    omega

end BytesOk

/-! ## Runs -/

theorem inv_init : Inv init := by
  have hlist : ListOk init.mem init.head init.alloc init.sweep [] :=
    ⟨rfl, fun _ ha => (by cases ha), fun _ _ hn => (by cases hn), fun _ _ _ hn => (by cases hn),
      fun _ _ _ hg => (by cases hg), trivial, fun _ hd => by cases hd⟩
  refine ⟨⟨[], hlist⟩, ⟨?_, ?_, ?_, ?_, ?_⟩, ⟨⟨0, ⟨[], List.nodup_nil, fun a => ?_, rfl⟩, rfl⟩, fun _ _ e => ?_⟩⟩
  · intro t n hn; cases hn
  · intro t t' n hn; cases hn
  · intro a ha; cases ha
  · intro a hpos; cases hpos
  · intro a hd; cases hd
  · simp [Counted, init, Mem.empty]
  · cases e

/-- The sweep only reads, or it ends: its position changes. -/
theorem Inv.move {s : Sys} {l : List Addr} (hl : ListOk s.mem s.head s.alloc s.sweep l)
    (hr : RootsOk s.mem s.handles s.alloc s.sweep) (hb : BytesOk s.mem s.alloc s.sweep s.bytes) {pc : SweepPc}
    (hpos : Pos s.mem l pc.sweeping) (hn : pc.sweeping.dropping = none)
    (hd : ∀ a, pc.doomed = some a → s.mem.alive a = true ∧ s.mem.rootCount a = 0)
    (hp : pc.pending = s.sweep.pending) (he : ∀ old freed, pc ≠ .subtracted old freed) : Inv (s.setSweep pc) :=
  ⟨⟨l, hl.move hn hpos⟩, hr.move hd, hb.move hp he⟩

/-- Headers change that the list and the counts do not read. -/
theorem Inv.recolor {s : Sys} (h : Inv s) (a : Addr) (c : Color) : Inv { s with mem := s.mem.setColor a c } := by
  obtain ⟨⟨l, hl⟩, hr, hb⟩ := h
  exact ⟨⟨l, hl.frame (fun _ _ => rfl) (fun _ hx => hx) fun _ _ _ _ => rfl⟩, hr.frame rfl rfl, hb.mem rfl rfl⟩

/-- A clone or a drop of a `GcRoot`. -/
theorem Inv.setRoots {s : Sys} (h : Inv s) {a : Addr} (hpos : 0 < s.handles a) (k : Nat) :
    Inv ({ s with mem := (s.mem.touch a).setRootCount a k }.setHandles a k) := by
  obtain ⟨⟨l, hl⟩, hr, hb⟩ := h
  have hroots : RootsOk ((s.mem.touch a).setRootCount a k) (Function.update s.handles a k) s.alloc s.sweep :=
    hr.setRoots hpos k rfl rfl
  exact ⟨⟨l, hl.frame (fun _ _ => rfl) (fun _ hx => hx) fun _ _ _ _ => rfl⟩, hroots, hb.mem rfl rfl⟩

theorem inv_store {s : Sys} {l : List Addr} (hl : ListOk s.mem s.head s.alloc s.sweep l)
    (hr : RootsOk s.mem s.handles s.alloc s.sweep) (hb : BytesOk s.mem s.alloc s.sweep s.bytes) {t : ThreadId}
    {n : Addr} {g : Option Addr} (ht : s.alloc t = .loaded n g) :
    Inv ({ s with mem := s.mem.setNext n g }.setAlloc t (.stored n g)) := by
  have hkeep : RootsOk s.mem s.handles (Function.update s.alloc t (.stored n g)) s.sweep := hr.keep (by rw [ht]; rfl)
  have hset : BytesOk s.mem (Function.update s.alloc t (.stored n g)) s.sweep s.bytes := hb.set (by rw [ht]; rfl)
  exact ⟨⟨l, .set (hl.store (congrArg AllocPc.pushing ht))⟩, hkeep.frame rfl rfl, hset.mem rfl rfl⟩

theorem inv_unlink {s : Sys} {l : List Addr} (hl : ListOk s.mem s.head s.alloc s.sweep l)
    (hr : RootsOk s.mem s.handles s.alloc s.sweep) (hb : BytesOk s.mem s.alloc s.sweep s.bytes) {a : Addr}
    {nx : Option Addr} {prev : PrevNext} {freed : Nat} (hpc : s.sweep = .unlink a nx prev freed) :
    Inv ((s.storePrev prev nx).setSweep (.drop a nx prev freed)) := by
  rw [hpc] at hl hr hb
  have hroots : RootsOk s.mem s.handles s.alloc (.drop a nx prev freed) :=
    hr.move fun x e => by
      cases e
      exact hr.doomed a rfl
  have hbytes : BytesOk s.mem s.alloc (.drop a nx prev freed) s.bytes := hb.move rfl fun _ _ e => by cases e
  cases prev with
  | head =>
    obtain ⟨_, post, _, hdrop⟩ := hl.unlink_head
    exact ⟨⟨post, hdrop⟩, hroots, hbytes⟩
  | nextOf b =>
    obtain ⟨front, post, _, hdrop⟩ := hl.unlink_next
    exact ⟨⟨front ++ post, hdrop⟩, hroots.frame rfl rfl, hbytes.mem rfl rfl⟩

theorem step_inv {s s' : Sys} {i : Label} (h : Inv s) (hst : Step s i s') : Inv s' := by
  have ⟨⟨l, hl⟩, hr, hb⟩ := h
  cases hst with
  | box t n d ht hn =>
    exact ⟨⟨l, .set (hl.box d hn)⟩, hr.box d ht hn, hb.box d ht hn⟩
  | load t ht =>
    refine ⟨⟨l, .set (hl.keep (fun n' hn' => ?_) fun _ _ e => by cases e)⟩, hr.keep (by rw [ht]; rfl),
      hb.set (by rw [ht]; rfl)⟩
    rw [Function.comp_apply, ht]
    exact hn'
  | store t ht => exact inv_store hl hr hb ht
  | @casOk t n g ht hg =>
    have hnode : (s.alloc t).node = some n := by rw [ht]; rfl
    exact ⟨⟨_, .set (hl.casOk (congrArg AllocPc.pushing ht) hg)⟩, hr.keep (by rw [ht]; rfl), hb.set (by rw [ht]; rfl)⟩
  | casFail t ht _ =>
    refine ⟨⟨l, .set (hl.keep (fun n' hn' => ?_) fun _ _ e => by cases e)⟩, hr.keep (by rw [ht]; rfl),
      hb.set (by rw [ht]; rfl)⟩
    rw [Function.comp_apply, ht]
    exact hn'
  | @fetchAdd t n ht =>
    have hnode : (s.alloc t).node = some n := by rw [ht]; rfl
    exact ⟨⟨l, .set (hl.keep (fun _ e => by cases e) fun _ _ e => by cases e)⟩, hr.keep (by rw [ht]; rfl),
      hb.fetchAdd ht (hr.own t n hnode).1 fun t' h' => hr.apart t' t n h' hnode⟩
  | handOut t ht =>
    exact ⟨⟨l, .set (hl.keep (fun _ e => by cases e) fun _ _ e => by cases e)⟩, hr.handOut ht, hb.set (by rw [ht]; rfl)⟩
  | cloneRoot a hpos =>
    have hset := h.setRoots hpos (s.handles a + 1)
    rw [← hr.root_count hpos] at hset ⊢
    exact hset
  | dropRoot a hpos =>
    have hset := h.setRoots hpos (s.handles a - 1)
    rw [← hr.root_count hpos] at hset ⊢
    exact hset
  | shade a c => exact h.recolor a c
  | sweepHead hpc =>
    exact Inv.move hl hr hb ⟨[], l, rfl, hl.seg, trivial⟩ rfl (fun _ e => by cases e) (by rw [hpc]; rfl)
      fun _ _ e => by cases e
  | sweepNext hpc =>
    have hpos := hl.pos
    rw [hpc] at hpos
    exact Inv.move hl hr hb ⟨hpos, rfl⟩ rfl (fun _ e => by cases e) (by rw [hpc]; rfl) fun _ _ e => by cases e
  | sweepColor hpc =>
    have hpos := hl.pos
    rw [hpc] at hpos
    split
    · exact Inv.move hl hr hb hpos rfl (fun _ e => by cases e) (by rw [hpc]; rfl) fun _ _ e => by cases e
    · exact Inv.move hl hr hb ⟨hpos.1.weaken, hpos.2⟩ rfl (fun _ e => by cases e) (by rw [hpc]; rfl)
        fun _ _ e => by cases e
  | @sweepRootCount a nx prev freed hpc =>
    have hpos := hl.pos
    rw [hpc] at hpos
    split
    · exact Inv.move hl hr hb ⟨hpos.1.weaken, hpos.2⟩ rfl (fun _ e => by cases e) (by rw [hpc]; rfl)
        fun _ _ e => by cases e
    case isFalse hroot =>
      refine Inv.move hl hr hb hpos rfl (fun x e => ?_) (by rw [hpc]; rfl) fun _ _ e => by cases e
      cases e
      exact ⟨hl.alive a hpos.1.mem, by simpa [Mem.isRoot] using hroot⟩
  | sweepUnlink hpc => exact inv_unlink hl hr hb hpc
  | @sweepDrop a nx prev freed hpc =>
    rw [hpc] at hl hr hb
    exact ⟨⟨l, hl.drop⟩, hr.drop rfl rfl, hb.drop (hr.doomed a rfl).1 (hr.free_of_doomed rfl)⟩
  | @sweepReset a nx freed hpc =>
    have hpos : Pos s.mem l (SweepPc.loop nx (.nextOf a) freed).sweeping := by
      rw [hpc] at hl
      exact hl.reset.pos
    have hmove : Inv (s.setSweep (.loop nx (.nextOf a) freed)) :=
      Inv.move hl hr hb hpos rfl (fun _ e => by cases e) (by rw [hpc]; rfl) fun _ _ e => by cases e
    exact hmove.recolor a .white
  | fetchSub hpc =>
    rw [hpc] at hl hr hb
    exact ⟨⟨l, hl.move rfl trivial⟩, hr.move (fun _ e => by cases e), hb.fetchSub.2⟩
  | sweepEnd hpc =>
    exact Inv.move hl hr hb trivial rfl (fun _ e => by cases e) (by rw [hpc]; rfl) fun _ _ e => by cases e

/-- **The counter is exact.** In every reachable state it is the size sum of the counted objects plus
what the running sweep has freed and not subtracted; neither subtraction of the sweep underflows; and
while no `allocate` and no sweep is running it is the size sum of all allocated objects. -/
theorem bytes_exact (s : Sys) (h : Reach Step (· = init) s) :
    (∃ n, HasSize s.mem (Counted s.mem s.alloc) n ∧ s.bytes = n + s.sweep.pending) ∧
    (∀ prev freed, s.sweep = .loop none prev freed → freed ≤ s.bytes) ∧
    (∀ old freed, s.sweep = .subtracted old freed → freed ≤ old) ∧
    ((∀ t, s.alloc t = .idle) → s.sweep = .idle → HasSize s.mem (fun a => s.mem.alive a = true) s.bytes) := by
  have hinv : Inv s := h.inv (fun _ e => by rw [e]; exact inv_init) fun _ _ _ hi hst => step_inv hi hst
  have hb := hinv.bytes
  refine ⟨hb.sum, fun prev freed hpc => ?_, hb.enough, fun hal hsw => ?_⟩
  · rw [hpc] at hb
    exact hb.fetchSub.1
  · obtain ⟨n, hn, hsum⟩ := hb.sum
    rw [hsw] at hsum
    rw [hsum]
    refine hn.congr (fun a => ?_) fun _ _ => rfl
    simp [Counted, hal, AllocPc.uncounted, AllocPc.node]

/-- Object `1` (8 bytes) is freed and not subtracted while `2` is linked and not added. -/
theorem bytes_exact_between : ∃ s, Reach Step (· = init) s ∧ s.mem.alive 1 = false ∧ s.alloc 1 = .linked 2 ∧
    s.sweep = .loop none .head 8 ∧ s.bytes = 8 ∧
    (∃ n, HasSize s.mem (Counted s.mem s.alloc) n ∧ s.bytes = n + s.sweep.pending) := by
  have h₀ : Reach Step (· = init) init := .init rfl
  have h₁ := h₀.step (.box 0 1 (.leaf 8) rfl rfl)
  have h₂ := ((h₁.step (.load 0 rfl)).step (.store 0 rfl)).step (.casOk 0 rfl rfl)
  have h₃ := ((h₂.step (.fetchAdd 0 rfl)).step (.handOut 0 rfl)).step (.dropRoot 1 (by decide))
  have h₄ := (h₃.step (.sweepHead rfl)).step (.sweepNext rfl)
  have h₅ := (h₄.step (.sweepColor rfl)).step (.sweepRootCount rfl)
  have h₆ := (h₅.step (.sweepUnlink rfl)).step (.sweepDrop rfl)
  have h₇ := h₆.step (.box 1 2 (.leaf 16) rfl rfl)
  have h₈ := ((h₇.step (.load 1 rfl)).step (.store 1 rfl)).step (.casOk 1 rfl rfl)
  exact ⟨_, h₈, rfl, rfl, rfl, rfl, (bytes_exact _ h₈).1⟩

end Abfall.Bytes
