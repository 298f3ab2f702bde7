import Abfall.Tricolor
/-!
# Several heaps, several threads: which heap the write barrier acts on

| here | there |
| --- | --- |
| `Ctx`, `World.ctx`   | `GcContextInner` and the thread-local `CURRENT_CTX` (`gc.rs:15-57`) |
| `Step.enter`, `Step.leave` | `GcContext::with_heap`, `Drop for GcContext` (`gc.rs:137-178`) |
| `World.set`          | `GcCell::set` (`cell.rs:44-59`) through `with_current_context` |
| `Step.allocate`      | `Heap::allocate` on any heap, with or without a context |
| `Step.start` .. `Step.abort` | what some collector does to heap `h`, in any order |

All heaps share the memory. `heapOf` is not in the source: no `GcHeader`, `GcPtr` or `GcRoot` names
its heap. It is the heap of the last object at an address: the address of a freed object may be given
out again, also by another heap. Heaps are not dropped here (`Abfall.Handles` has that).

`GcCell::set` looks up the heap in the thread's context, and does nothing when there is none. And a
dangling pointer leads into another heap once that heap has been given the address. `Local` says what
has to be observed for the barrier and the assist to act on the right heap, and `barrier_on_owner` that
they then do; `set_without_context` is a run where the barrier does not.
-/
namespace Abfall.Contexts
open Chain Transition

abbrev HeapId := Nat
abbrev ThreadId := Nat

structure Ctx where
  heap : HeapId
  localGray : Tracer

structure World where
  mem : Mem
  heaps : HeapId → Heap
  heapOf : Addr → Option HeapId
  ctx : ThreadId → Option Ctx

namespace World

/-- Heap `h` with the memory it works on. -/
def view (w : World) (h : HeapId) : St := ⟨w.mem, w.heaps h⟩

/-- The world after heap `h` and the memory became `s`. -/
def put (w : World) (h : HeapId) (s : St) : World :=
  { w with mem := s.mem, heaps := Function.update w.heaps h s.heap }

/-- The barrier of a thread that may have a context. -/
def barrier (w : World) (t : ThreadId) (vals : List Addr) : World :=
  match w.ctx t with
  | none => w
  | some c =>
    let r := (w.view c.heap).barrier c.localGray vals
    { w.put c.heap r.1 with ctx := Function.update w.ctx t (some ⟨c.heap, r.2⟩) }

def storeCell (w : World) (o : Addr) (k : Nat) (vals : List Addr) : World :=
  { w with mem := (w.mem.touch o).setData o ((w.mem.data o).setCell k vals) }

def set (w : World) (t : ThreadId) (o : Addr) (k : Nat) (vals : List Addr) : World :=
  (w.barrier t vals).storeCell o k vals

def allocate (w : World) (h : HeapId) (a : Addr) (d : Data) : World :=
  { w.put h ((w.view h).allocate a d) with heapOf := Function.update w.heapOf a (some h) }

def phase (w : World) (h : HeapId) : GcPhase := (w.heaps h).phase

end World

inductive Op
  | enter (t : ThreadId) (h : HeapId)
  | leave (t : ThreadId)
  | allocate (h : HeapId) (a : Addr) (d : Data)
  | setRoots (a : Addr) (n : Nat)
  | set (t : ThreadId) (o : Addr) (k : Nat) (vals : List Addr)
  | start (h : HeapId) (fuel : Nat)
  | mark (h : HeapId) (workBudget : Nat)
  | sweep (h : HeapId) (fuel : Nat)
  | abort (h : HeapId)

/-- `setRoots` covers `GcRoot::clone`, its drop and `GcPtr::root`: they write one root count. A second
`GcContext` on a thread panics (`gc.rs:22`). -/
inductive Step : World → Op → World → Prop
  | enter {w : World} (t : ThreadId) (h : HeapId) : w.ctx t = none →
      Step w (.enter t h) { w with ctx := Function.update w.ctx t (some ⟨h, []⟩) }
  | leave {w : World} (t : ThreadId) : Step w (.leave t) { w with ctx := Function.update w.ctx t none }
  | allocate {w : World} (h : HeapId) (a : Addr) (d : Data) : w.mem.alive a = false →
      (∀ p ∈ d.ptrs, w.mem.alive p = true) → Step w (.allocate h a d) (w.allocate h a d)
  | setRoots {w : World} (a : Addr) (n : Nat) : w.mem.alive a = true →
      Step w (.setRoots a n) { w with mem := (w.mem.touch a).setRootCount a n }
  | set {w : World} (t : ThreadId) (o : Addr) (k : Nat) (vals : List Addr) : w.mem.alive o = true →
      k < (w.mem.data o).cells.length → (∀ p ∈ vals, w.mem.alive p = true) → Step w (.set t o k vals) (w.set t o k vals)
  | start {w : World} {h' : Heap} {s' : St} (h : HeapId) (fuel : Nat) : (w.heaps h).tryStartMarking = (h', true) →
      St.doMarkRoots fuel ⟨w.mem, h'⟩ [] = some s' → Step w (.start h fuel) (w.put h s')
  | mark {w : World} (h : HeapId) (b : Nat) : w.phase h = .marking →
      Step w (.mark h b) (w.put h ((w.view h).doMarkWithTracer [] b).1)
  | sweep {w : World} {s' : St} {live : Nat} (h : HeapId) (fuel : Nat) : w.phase h = .marking →
      (w.view h).sweepAndFinish fuel = some (s', live) → Step w (.sweep h fuel) (w.put h s')
  | abort {w : World} (h : HeapId) : w.phase h = .marking →
      Step w (.abort h) (w.put h ⟨w.mem, (w.heaps h).finishGc⟩)

/-- No heap has allocated anything and no thread has a context. -/
structure Start (w : World) : Prop where
  mem : w.mem = .empty
  heaps : ∀ h, ∃ o, w.heaps h = .withOptions o
  heapOf : ∀ a, w.heapOf a = none
  ctx : ∀ t, w.ctx t = none

/-! ## What a program has to observe -/

/-- Pointers stay inside their heap: those that are stored, and those that the objects and the queue of
another heap may still have to the address of a new object. -/
def Own (w : World) : Op → Prop
  | .allocate h a d => (∀ p ∈ d.ptrs, w.heapOf p = some h) ∧ ∀ g, g ≠ h →
      a ∉ (w.heaps g).grayQueue ∧ ∀ x, w.mem.alive x = true → w.heapOf x = some g → ¬ w.mem.Edge x a
  | .set _ o _ vals => ∀ p ∈ vals, w.heapOf p = w.heapOf o
  | _ => True

/-- What a tracer of heap `h` can come to. -/
def Waits (w : World) (h : HeapId) (x : Addr) : Prop :=
  ∃ q ∈ (w.heaps h).grayQueue, Relation.ReflTransGen w.mem.Edge q x

/-- No dangling pointer can be traced. -/
def Sound (w : World) : Op → Prop
  | .allocate h _ _ => w.phase h = .marking → ∀ x, Waits w h x → w.mem.alive x = true
  | .mark h _ => ∀ x, Waits w h x → w.mem.alive x = true
  | _ => True

/-- `Tracer::mark` would leave this object as it is. -/
def Settled (m : Mem) (p : Addr) : Prop := m.shade p = m.color p

/-- The barrier of a `set` sees the owner's heap: while that heap is marking, the thread's context is
on a heap that is marking, or nothing stored is White; and when the context's heap is marking and is
another one, nothing stored would be queued, nor changed while the owner's heap is not marking. -/
def Seen (w : World) : Op → Prop
  | .set t o _ vals => ∀ h, w.heapOf o = some h →
    (w.phase h = .marking → (∃ c, w.ctx t = some c ∧ w.phase c.heap = .marking) ∨ ∀ p ∈ vals, w.mem.color p ≠ .white) ∧
    ∀ c, w.ctx t = some c → w.phase c.heap = .marking → c.heap ≠ h → ∀ p ∈ vals,
      (w.mem.color p ≠ .white ∨ (w.mem.data p).noTrace = true) ∧ (w.phase h = .marking ∨ Settled w.mem p)
  | _ => True

/-- What has to be observed. -/
def Local (w : World) (op : Op) : Prop := Own w op ∧ Sound w op ∧ Seen w op

/-- Between `w` and `w'` no object was queued at a heap that is not its own, nor made at an address that is
queued at another heap; and no object changed its color whose heap is not marking. -/
structure Framed (w w' : World) : Prop where
  queues : ∀ h, ∀ a ∈ (w'.heaps h).grayQueue,
    a ∈ (w.heaps h).grayQueue ∧ w'.heapOf a = w.heapOf a ∨ w'.heapOf a = some h
  colors : ∀ a g, w.mem.alive a = true → w.heapOf a = some g → w'.mem.color a ≠ w.mem.color a → w.phase g = .marking

/-- What is asked of every `GcCell::set` and every `allocate`. -/
def BarrierOk (w : World) (op : Op) (w' : World) : Prop :=
  match op with
  | .allocate _ _ _ => Framed w w'
  | .set _ o _ vals => Framed w w' ∧
      ∀ h, w.heapOf o = some h → w.phase h = .marking → ∀ p ∈ vals, w'.mem.color p ≠ .white
  | _ => True

/-! ## Work on one heap stays inside it -/

section
variable {S : Addr → Prop}

/-- Only objects of `S` are shaded, and only they are collected. -/
theorem markAll_frame {ps : List Addr} {m : Mem} {t : Tracer} (hp : ∀ p ∈ ps, S p) (ht : ∀ x ∈ t, S x) :
    (∀ x ∈ (Mem.markAll ps m t).2, S x) ∧ ∀ x, ¬ S x → (Mem.markAll ps m t).1.color x = m.color x := by
  constructor
  · intro x hx
    rcases (Mem.mem_markAll ps m t x).1 hx with hx | ⟨hx, _⟩
    · exact ht x hx
    · exact hp x hx
  · intro x hx
    rw [Mem.markAll_color, if_neg fun hxp => hx (hp x hxp)]

/-- The same for whole marking calls: `S` is closed under stored pointers. -/
structure Inside (S : Addr → Prop) (m₀ m : Mem) (W : Set Addr) : Prop where
  same : m₀.SameObjects m
  waits : ∀ x ∈ W, S x
  colors : ∀ x, ¬ S x → m.color x = m₀.color x

theorem Inside.mono {T : Addr → Prop} {m₀ m : Mem} {W : Set Addr} (h : Inside S m₀ m W) (hST : ∀ x, S x → T x) :
    Inside T m₀ m W := ⟨h.same, fun x hx => hST x (h.waits x hx), fun x hx => h.colors x fun hs => hx (hST x hs)⟩

theorem inside_process {m₀ : Mem} (hcl : ∀ a b, S a → m₀.Edge a b → S b) : ProcessKeeps (Inside S m₀) := by
  intro m t q a h
  have ha : S a := h.waits a (Set.mem_insert a _)
  have htr : (∀ x ∈ ((m.touch a).trace t a).2, S x) ∧ ∀ x, ¬ S x → ((m.touch a).trace t a).1.color x = m.color x := by
    have ht : ∀ x ∈ t, S x := fun x hx => h.waits x (.inr (.inl hx))
    unfold Mem.trace
    split
    · exact ⟨ht, fun _ _ => rfl⟩
    · refine markAll_frame (m := m.touch a) (fun p hp => ?_) ht
      refine hcl a p ha ?_
      rw [← h.same.edge]
      exact hp
  refine ⟨h.same.trans (m.processObject_same t a), ?_, fun x hx => ?_⟩
  · rintro x (hx | hx)
    · exact htr.1 x hx
    · exact h.waits x (.inr (.inr hx))
  · have hxa : x ≠ a := by rintro rfl; exact hx ha
    show (Mem.setColor _ a .black).color x = _
    rw [Mem.setColor_color, if_neg hxa, htr.2 x hx, h.colors x hx]

theorem markRootsLoop_inside {m₀ : Mem} (hcl : ∀ a b, S a → m₀.next a = some b → S b) (fuel : Nat) :
    ∀ (m : Mem) (t : Tracer) (cur : Option Addr) (r : Mem × Tracer), Inside S m₀ m {x | x ∈ t} →
      (∀ a, cur = some a → S a) → markRootsLoop fuel m t cur = some r → Inside S m₀ r.1 {x | x ∈ r.2} := by
  induction fuel with
  | zero =>
    intro m t cur r h _ hr
    cases cur with
    | none => cases hr; exact h
    | some a => cases hr
  | succ fuel ih =>
    intro m t cur r h hcur hr
    cases cur with
    | none => cases hr; exact h
    | some a =>
      have ha := hcur a rfl
      have hnext : (m.scanRoot t a).1.next = m₀.next := by
        rw [(m.scanRoot_same t a).next, h.same.next]
      refine ih _ _ _ r ?_ ?_ hr
      · have hsame := h.same.trans (m.scanRoot_same t a)
        rcases m.scanRoot_cases t a with ⟨_, _, e⟩ | ⟨_, e⟩ <;> rw [e] at hsame ⊢
        · refine ⟨hsame, ?_, fun x hx => ?_⟩
          · intro x hx
            rcases List.mem_cons.1 hx with rfl | hx
            · exact ha
            · exact h.waits x hx
          · have hxa : x ≠ a := by rintro rfl; exact hx ha
            rw [Mem.setColor_color, if_neg hxa]
            exact h.colors x hx
        · exact ⟨hsame, h.waits, h.colors⟩
      · intro b hb
        rw [hnext] at hb
        exact hcl a b ha hb

end

/-! ## The invariant -/

/-- `l` is the list from `hd`: the allocated objects of one heap. -/
structure ListOf (m : Mem) (hd : Option Addr) (own : Addr → Prop) (l : List Addr) : Prop where
  seg : Seg m.next hd l none
  mem : ∀ a, a ∈ l ↔ m.alive a = true ∧ own a

structure Inv (w : World) : Prop where
  edges : ∀ h a b, w.mem.alive a = true → w.heapOf a = some h → w.mem.Edge a b → w.heapOf b = some h
  lists : ∀ h, ∃ l, ListOf w.mem (w.heaps h).head (fun a => w.heapOf a = some h) l
  queues : ∀ h, ∀ a ∈ (w.heaps h).grayQueue, w.heapOf a = some h
  idle : ∀ t c, w.ctx t = some c → c.localGray = []
  known : ∀ a, w.mem.alive a = true → w.heapOf a ≠ none

theorem Start.inv {w : World} (h : Start w) : Inv w := by
  refine ⟨fun g a b ha => ?_, fun g => ⟨[], ?_, fun a => ?_⟩, fun g a ha => ?_, fun t c hc => ?_, fun a ha => ?_⟩
  · rw [h.mem] at ha; cases ha
  · obtain ⟨o, e⟩ := h.heaps g
    rw [e]; rfl
  · simp [h.heapOf]
  · obtain ⟨o, e⟩ := h.heaps g
    rw [e] at ha; cases ha
  · rw [h.ctx] at hc; cases hc
  · rw [h.mem] at ha; cases ha

/-- Another heap's list, when its objects and their links stay as they are. -/
theorem ListOf.congr {m m' : Mem} {hd : Option Addr} {own own' : Addr → Prop} {l : List Addr} (hl : ListOf m hd own l)
    (hmem : ∀ a, (m'.alive a = true ∧ own' a) ↔ (m.alive a = true ∧ own a))
    (hnext : ∀ a, m.alive a = true → own a → m'.next a = m.next a) : ListOf m' hd own' l := by
  refine ⟨seg_congr (fun a ha => ?_) hl.seg, fun a => (hl.mem a).trans (hmem a).symm⟩
  obtain ⟨hal, ho⟩ := (hl.mem a).1 ha
  exact hnext a hal ho

/-- Writes to the objects themselves. -/
theorem Inv.lists_of {w : World} (hi : Inv w) {m : Mem} (ha : m.alive = w.mem.alive) (hn : m.next = w.mem.next)
    (h : HeapId) : ∃ l, ListOf m (w.heaps h).head (fun a => w.heapOf a = some h) l := by
  obtain ⟨l, hl⟩ := hi.lists h
  exact ⟨l, hl.congr (fun a => by rw [ha]) fun a _ _ => by rw [hn]⟩

/-- Work on heap `h` that keeps the pointers of all objects, leaves the other heaps' objects where they
are, and queues objects of `h` only. -/
theorem Inv.put {w : World} (hi : Inv w) {h : HeapId} {s' : St} (hdata : s'.mem.data = w.mem.data)
    (halive : ∀ a, s'.mem.alive a = true → w.mem.alive a = true)
    (hother : ∀ a, w.mem.alive a = true → w.heapOf a ≠ some h → s'.mem.alive a = true ∧ s'.mem.next a = w.mem.next a)
    (hlist : ∃ l, ListOf s'.mem s'.heap.head (fun a => w.heapOf a = some h) l)
    (hq : ∀ a ∈ s'.heap.grayQueue, w.heapOf a = some h) : Inv (w.put h s') := by
  refine ⟨fun g a b ha hg he => ?_, fun g => ?_, fun g a ha => ?_, hi.idle, fun a ha => hi.known a (halive a ha)⟩
  · refine hi.edges g a b (halive a ha) hg ?_
    simpa [World.put, Mem.Edge, Mem.ptrs, hdata] using he
  · by_cases hg : g = h
    · subst hg
      simpa [World.put] using hlist
    · obtain ⟨l, hl⟩ := hi.lists g
      have hne : ∀ a, w.heapOf a = some g → w.heapOf a ≠ some h :=
        fun a ha ha' => hg (Option.some.inj (ha.symm.trans ha'))
      refine ⟨l, ?_⟩
      simp only [World.put, Function.update_of_ne hg]
      refine hl.congr (fun a => ⟨fun ha => ⟨halive a ha.1, ha.2⟩, fun ha => ⟨?_, ha.2⟩⟩) fun a ha ho => ?_
      · exact (hother a ha.1 (hne a ha.2)).1
      · exact (hother a ha (hne a ho)).2
  · by_cases hg : g = h
    · subst hg
      exact hq a (by simpa [World.put] using ha)
    · exact hi.queues g a (by simpa [World.put, hg] using ha)

/-- Work on heap `h` that changes colors and the queue. -/
theorem Inv.put_same {w : World} (hi : Inv w) {h : HeapId} {s' : St} (hs : w.mem.SameObjects s'.mem)
    (hhead : s'.heap.head = (w.heaps h).head) (hq : ∀ a ∈ s'.heap.grayQueue, w.heapOf a = some h) : Inv (w.put h s') := by
  refine hi.put hs.data (fun a ha => ?_) (fun a ha _ => ?_) ?_ hq
  · rwa [hs.alive] at ha
  · rw [hs.alive, hs.next]
    exact ⟨ha, rfl⟩
  · rw [hhead]
    exact hi.lists_of hs.alive hs.next h

/-- Queued objects are the heap's own, and so is what can be traced, while nothing there dangles. -/
theorem Inv.heapOf_of_waits {w : World} (hi : Inv w) {h : HeapId} (hs : ∀ x, Waits w h x → w.mem.alive x = true)
    {x : Addr} (hx : Waits w h x) : w.heapOf x = some h := by
  obtain ⟨q, hq, hpath⟩ := hx
  induction hpath with
  | refl => exact hi.queues h q hq
  | tail hpath he ih => exact hi.edges h _ _ (hs _ ⟨q, hq, hpath⟩) ih he

/-- Marking calls stay inside the heap. -/
theorem Inv.inside {w : World} (hi : Inv w) {h : HeapId} (hs : ∀ x, Waits w h x → w.mem.alive x = true) {s' : St}
    (hin : ∀ {J : Mem → Set Addr → Prop}, ProcessKeeps J → J w.mem (waiting [] (w.heaps h).grayQueue) →
      J s'.mem (waiting [] s'.heap.grayQueue)) :
    Inside (fun a => w.heapOf a = some h) w.mem s'.mem (waiting [] s'.heap.grayQueue) := by
  have hcl : ∀ a b, Waits w h a → w.mem.Edge a b → Waits w h b := by
    rintro a b ⟨q, hq, hpath⟩ he
    exact ⟨q, hq, hpath.tail he⟩
  have h0 : Inside (Waits w h) w.mem w.mem (waiting [] (w.heaps h).grayQueue) := by
    refine ⟨.refl _, ?_, fun _ _ => rfl⟩
    rintro x (hx | hx)
    · cases hx
    · exact ⟨x, hx, .refl⟩
  exact (hin (inside_process hcl) h0).mono fun x => hi.heapOf_of_waits hs

theorem Inv.mark {w : World} (hi : Inv w) {h : HeapId} (b : Nat) (hs : ∀ x, Waits w h x → w.mem.alive x = true) :
    Inside (fun a => w.heapOf a = some h) w.mem ((w.view h).doMarkWithTracer [] b).1.mem
      (waiting [] ((w.view h).doMarkWithTracer [] b).1.heap.grayQueue) :=
  hi.inside hs fun hJ h0 => St.doMarkWithTracer_rule hJ b h0

theorem Inv.assist {w : World} (hi : Inv w) {h : HeapId}
    (hs : w.phase h = .marking → ∀ x, Waits w h x → w.mem.alive x = true) :
    Inside (fun a => w.heapOf a = some h) w.mem (w.view h).assist.mem (waiting [] (w.view h).assist.heap.grayQueue) := by
  by_cases hm : w.phase h = .marking
  · exact hi.inside (hs hm) fun hJ h0 => St.assist_rule hJ h0
  · rw [St.assist_of_not_marking (s := w.view h) hm]
    refine ⟨.refl _, ?_, fun _ _ => rfl⟩
    rintro x (hx | hx)
    · cases hx
    · exact hi.queues h x hx

/-! ## The barrier -/

theorem World.barrier_heapOf (w : World) (t : ThreadId) (vals : List Addr) : (w.barrier t vals).heapOf = w.heapOf := by
  unfold World.barrier
  cases w.ctx t <;> rfl

/-- The barrier of a thread whose context is on a heap that is marking. -/
theorem World.barrier_of_marking {w : World} {t : ThreadId} {c : Ctx} (hc : w.ctx t = some c) (hl : c.localGray = [])
    (hm : w.phase c.heap = .marking) (vals : List Addr) : w.barrier t vals =
      { w.put c.heap ⟨(Mem.markAll vals w.mem []).1,
          (w.heaps c.heap).withQueue ((Mem.markAll vals w.mem []).2 ++ (w.heaps c.heap).grayQueue)⟩ with
        ctx := Function.update w.ctx t (some ⟨c.heap, []⟩) } := by
  have e : ((w.view c.heap).barrier [] vals).1 = _ := St.barrier_of_marking hm vals
  have e' : ((w.view c.heap).barrier [] vals).2 = [] := by
    simp [St.barrier, Heap.checkIsMarking_of_eq (show (w.view c.heap).heap.phase = .marking from hm)]
  simp only [World.barrier, hc, hl]
  rw [e, e']
  rfl

/-- Without a context, or with one on a heap that is not marking, the barrier does nothing. -/
theorem World.barrier_of_not_marking {w : World} {t : ThreadId}
    (hm : ∀ c, w.ctx t = some c → w.phase c.heap ≠ .marking) (vals : List Addr) : w.barrier t vals = w := by
  cases hc : w.ctx t with
  | none => simp only [World.barrier, hc]
  | some c =>
    have hne : (w.view c.heap).heap.phase ≠ .marking := hm c hc
    have e : (w.view c.heap).barrier c.localGray vals = (w.view c.heap, c.localGray) := by
      simp [St.barrier, Heap.checkIsMarking_of_ne hne]
    have ectx : Function.update w.ctx t (some c) = w.ctx := by
      rw [← hc]
      exact Function.update_eq_self t w.ctx
    simp only [World.barrier, hc, e]
    simp only [World.put, World.view, Function.update_eq_self, ectx]

/-- The barrier on a marking heap is framed iff it queues objects of that heap only, and changes
objects of marking heaps only. -/
theorem barrier_framed_iff {w : World} (hi : Inv w) {t : ThreadId} {c : Ctx} {vals : List Addr} (hc : w.ctx t = some c)
    (hm : w.phase c.heap = .marking) (hv : ∀ p ∈ vals, w.mem.alive p = true) : Framed w (w.barrier t vals) ↔
      (∀ p ∈ vals, w.mem.color p = .white → (w.mem.data p).noTrace = false → w.heapOf p = some c.heap) ∧
      ∀ p ∈ vals, ¬ Settled w.mem p → ∀ g, w.heapOf p = some g → w.phase g = .marking := by
  have e := World.barrier_of_marking hc (hi.idle t c hc) hm vals
  have hmem : (w.barrier t vals).mem = (Mem.markAll vals w.mem []).1 := by rw [e]; rfl
  have hq : ((w.barrier t vals).heaps c.heap).grayQueue =
      (Mem.markAll vals w.mem []).2 ++ (w.heaps c.heap).grayQueue := by
    rw [e]
    simp [World.put]
  have hqne : ∀ g, g ≠ c.heap → (w.barrier t vals).heaps g = w.heaps g := by
    intro g hg
    rw [e]
    simp [World.put, hg]
  have hof := w.barrier_heapOf t vals
  constructor
  · rintro ⟨hqueues, hcolors⟩
    refine ⟨fun p hp hw hn => ?_, fun p hp hns g hg => hcolors p g (hv p hp) hg ?_⟩
    · have hin : p ∈ ((w.barrier t vals).heaps c.heap).grayQueue := by
        rw [hq]
        exact List.mem_append_left _ ((Mem.mem_markAll vals w.mem [] p).2 (.inr ⟨hp, hw, hn⟩))
      rcases hqueues c.heap p hin with ⟨h, _⟩ | h
      · exact hi.queues c.heap p h
      · rwa [hof] at h
    · rw [hmem, Mem.markAll_color, if_pos hp]
      exact hns
  · rintro ⟨hqueues, hcolors⟩
    refine ⟨fun g a ha => ?_, fun a g _ hg hne => ?_⟩
    · by_cases hgc : g = c.heap
      · subst hgc
        rw [hq] at ha
        rcases List.mem_append.1 ha with ha | ha
        · rcases (Mem.mem_markAll vals w.mem [] a).1 ha with ha | ⟨ha, hw, hn⟩
          · cases ha
          · rw [hof]; exact .inr (hqueues a ha hw hn)
        · exact .inl ⟨ha, congrFun hof a⟩
      · rw [hqne g hgc] at ha
        exact .inl ⟨ha, congrFun hof a⟩
    · rw [hmem, Mem.markAll_color] at hne
      split at hne
      · rename_i hap
        exact hcolors a hap hne g hg
      · exact absurd rfl hne

/-- A barrier that is framed keeps the invariant. -/
theorem Inv.barrier {w : World} (hi : Inv w) {t : ThreadId} {vals : List Addr} (hf : Framed w (w.barrier t vals)) :
    Inv (w.barrier t vals) := by
  by_cases hm : ∃ c, w.ctx t = some c ∧ w.phase c.heap = .marking
  swap
  · rw [World.barrier_of_not_marking (fun c hc hp => hm ⟨c, hc, hp⟩) vals]
    exact hi
  obtain ⟨c, hc, hp⟩ := hm
  rw [World.barrier_of_marking hc (hi.idle t c hc) hp] at hf ⊢
  have hput : Inv (w.put c.heap ⟨(Mem.markAll vals w.mem []).1,
      (w.heaps c.heap).withQueue ((Mem.markAll vals w.mem []).2 ++ (w.heaps c.heap).grayQueue)⟩) := by
    refine hi.put_same (Mem.markAll_same vals w.mem []) rfl fun a ha => ?_
    rcases hf.queues c.heap a (by simpa [World.put] using ha) with ⟨ha, _⟩ | ha
    · exact hi.queues c.heap a ha
    · exact ha
  refine ⟨hput.edges, hput.lists, hput.queues, fun t' c' hc' => ?_, hput.known⟩
  rcases update_cases id hc' with ⟨_, hc'⟩ | ⟨_, hc'⟩
  · cases hc'
    rfl
  · exact hi.idle t' c' hc'

theorem Inv.storeCell {w : World} (hi : Inv w) {o : Addr} {k : Nat} {vals : List Addr}
    (hv : ∀ p ∈ vals, w.heapOf p = w.heapOf o) : Inv (w.storeCell o k vals) := by
  refine ⟨fun g a b hal ha he => ?_, hi.lists_of rfl rfl, hi.queues, hi.idle, hi.known⟩
  rcases St.storeCell_edge (s := ⟨w.mem, w.heaps 0⟩) he with ⟨rfl, hb⟩ | he
  · exact (hv b hb).trans ha
  · exact hi.edges g a b hal ha he

/-- The store itself changes no color and no queue. -/
theorem framed_set_iff {w : World} {t : ThreadId} {o : Addr} {k : Nat} {vals : List Addr} :
    Framed w (w.set t o k vals) ↔ Framed w (w.barrier t vals) :=
  ⟨fun h => ⟨h.queues, h.colors⟩, fun h => ⟨h.queues, h.colors⟩⟩

/-- A `set` whose context is on a heap that is marking. -/
theorem set_ok_iff_of_marking {w : World} (hi : Inv w) {t : ThreadId} {c : Ctx} {o : Addr} {g : HeapId} {k : Nat}
    {vals : List Addr} (hc : w.ctx t = some c) (hp : w.phase c.heap = .marking) (hg : w.heapOf o = some g)
    (hal : ∀ p ∈ vals, w.mem.alive p = true) (hv : ∀ p ∈ vals, w.heapOf p = some g) :
    BarrierOk w (.set t o k vals) (w.set t o k vals) ↔ Seen w (.set t o k vals) := by
  have hshade : ∀ p ∈ vals, (w.set t o k vals).mem.color p ≠ .white := by
    intro p hpv
    show (w.barrier t vals).mem.color p ≠ .white
    rw [World.barrier_of_marking hc (hi.idle t c hc) hp]
    exact Mem.markAll_nonwhite vals w.mem [] p hpv
  show (Framed _ _ ∧ _) ↔ ∀ h, w.heapOf o = some h → _
  rw [framed_set_iff, barrier_framed_iff hi hc hp hal]
  constructor
  · rintro ⟨⟨hq, hcol⟩, _⟩ h hh
    obtain rfl : g = h := Option.some.inj (hg.symm.trans hh)
    refine ⟨fun _ => .inl ⟨c, hc, hp⟩, fun c' hc' _ hne p hpv => ?_⟩
    obtain rfl : c = c' := Option.some.inj (hc.symm.trans hc')
    constructor
    · by_contra hcon
      simp only [not_or, not_not, Bool.not_eq_true] at hcon
      have := hq p hpv hcon.1 hcon.2
      rw [hv p hpv] at this
      exact hne (Option.some.inj this).symm
    · by_cases hs : Settled w.mem p
      · exact .inr hs
      · exact .inl (hcol p hpv hs g (hv p hpv))
  · intro hseen
    obtain ⟨_, hother⟩ := hseen g hg
    refine ⟨⟨fun p hpv hw hn => ?_, fun p hpv hs g' hg' => ?_⟩, fun _ _ _ => hshade⟩
    · rw [hv p hpv]
      by_contra hne
      rcases (hother c hc hp (fun e => hne (by rw [e])) p hpv).1 with h | h
      · exact h hw
      · simp [hn] at h
    · obtain rfl : g = g' := Option.some.inj ((hv p hpv).symm.trans hg')
      by_cases hcg : c.heap = g
      · rw [← hcg]; exact hp
      · exact (hother c hc hp hcg p hpv).2.resolve_right hs

/-- A `set` whose barrier does nothing. -/
theorem set_ok_iff_of_not_marking {w : World} {t : ThreadId} {o : Addr} {k : Nat} {vals : List Addr}
    (hm : ¬ ∃ c, w.ctx t = some c ∧ w.phase c.heap = .marking) :
    BarrierOk w (.set t o k vals) (w.set t o k vals) ↔ Seen w (.set t o k vals) := by
  have e : w.barrier t vals = w := World.barrier_of_not_marking (fun c hc hp => hm ⟨c, hc, hp⟩) vals
  have ecol : (w.set t o k vals).mem.color = w.mem.color := by
    show (w.barrier t vals).mem.color = _
    rw [e]
  show (Framed _ _ ∧ _) ↔ ∀ h, w.heapOf o = some h → _
  rw [framed_set_iff, e, ecol]
  constructor
  · rintro ⟨_, hp1⟩ h hh
    exact ⟨fun hmk => .inr (hp1 h hh hmk), fun c hc hp => absurd ⟨c, hc, hp⟩ hm⟩
  · intro hseen
    refine ⟨⟨fun _ _ h => .inl ⟨h, rfl⟩, fun _ _ _ _ h => absurd rfl h⟩, fun h hh hmk => ?_⟩
    exact ((hseen h hh).1 hmk).resolve_left hm

/-- **One `GcCell::set`** of pointers to the owner's heap does what is asked iff its barrier sees the
owner's heap. -/
theorem set_ok_iff {w : World} (hi : Inv w) {t : ThreadId} {o : Addr} {k : Nat} {vals : List Addr}
    (ho : w.mem.alive o = true) (hv : ∀ p ∈ vals, w.mem.alive p = true) (hown : Own w (.set t o k vals)) :
    BarrierOk w (.set t o k vals) (w.set t o k vals) ↔ Seen w (.set t o k vals) := by
  obtain ⟨g, hg⟩ := Option.ne_none_iff_exists'.1 (hi.known o ho)
  by_cases hm : ∃ c, w.ctx t = some c ∧ w.phase c.heap = .marking
  · obtain ⟨c, hc, hp⟩ := hm
    exact set_ok_iff_of_marking hi hc hp hg hv fun p hp => (hown p hp).trans hg
  · exact set_ok_iff_of_not_marking hm

theorem set_inv {w : World} (hi : Inv w) {t : ThreadId} {o : Addr} {k : Nat} {vals : List Addr}
    (hown : Own w (.set t o k vals)) (hok : BarrierOk w (.set t o k vals) (w.set t o k vals)) :
    Inv (w.set t o k vals) := by
  refine (hi.barrier ⟨hok.1.queues, hok.1.colors⟩).storeCell ?_
  rw [World.barrier_heapOf]
  exact hown

/-! ## Allocation -/

section
variable {w : World} {h g : HeapId} {a x : Addr} {d : Data}

theorem allocate_heapOf_self : (w.allocate h a d).heapOf a = some h := Function.update_self _ _ _

theorem allocate_heapOf_of_ne (hxa : x ≠ a) : (w.allocate h a d).heapOf x = w.heapOf x := Function.update_of_ne hxa _ _

/-- A pointer that stays inside its heap is one after the allocation too: at the new object's address it
must have been one of the new object's heap. -/
theorem allocate_heapOf (hx : w.heapOf x = some g) (hxa : x = a → g = h) : (w.allocate h a d).heapOf x = some g := by
  by_cases hne : x = a
  · rw [hne, hxa hne]
    exact allocate_heapOf_self
  · rw [allocate_heapOf_of_ne hne]
    exact hx

/-- The assist queues only objects of the heap it works for. -/
theorem allocate_queue (hi : Inv w) (hs : Sound w (.allocate h a d)) (hx : x ∈ ((w.allocate h a d).heaps g).grayQueue) :
    w.heapOf x = some g ∧ (g ≠ h → x ∈ (w.heaps g).grayQueue) := by
  by_cases hg : g = h
  · subst hg
    refine ⟨(hi.assist hs).waits x (.inr ?_), fun hne => absurd rfl hne⟩
    simpa [World.allocate, World.put, St.allocate, St.push] using hx
  · have hold : x ∈ (w.heaps g).grayQueue := by simpa [World.allocate, World.put, hg] using hx
    exact ⟨hi.queues g x hold, fun _ => hold⟩

/-- After the allocation as before it, a queue holds objects of its heap. -/
theorem allocate_queues (hi : Inv w) (hown : Own w (.allocate h a d)) (hs : Sound w (.allocate h a d))
    (hx : x ∈ ((w.allocate h a d).heaps g).grayQueue) : (w.allocate h a d).heapOf x = some g := by
  obtain ⟨hof, hold⟩ := allocate_queue hi hs hx
  refine allocate_heapOf hof ?_
  rintro rfl
  by_contra hg
  exact (hown.2 g hg).1 (hold hg)

/-- Only the assist changes colors, and only while its heap is marking. -/
theorem allocate_framed (hi : Inv w) (hnew : w.mem.alive a = false) (hown : Own w (.allocate h a d))
    (hs : Sound w (.allocate h a d)) : Framed w (w.allocate h a d) := by
  refine ⟨fun g x hx => .inr (allocate_queues hi hown hs hx), fun x g hal hx hcol => ?_⟩
  change Function.update (w.view h).assist.mem.color a .white x ≠ _ at hcol
  rw [Function.update_of_ne (Mem.ne_of_alive hnew hal)] at hcol
  by_contra hng
  refine hcol ((hi.assist hs).colors x fun hxh => hng ?_)
  obtain rfl : h = g := Option.some.inj (hxh.symm.trans hx)
  by_contra hnm
  refine hcol ?_
  rw [St.assist_of_not_marking (s := w.view h) hnm]
  rfl

theorem allocate_alive : (w.allocate h a d).mem.alive x = true ↔ x = a ∨ w.mem.alive x = true := by
  have hpush := St.push_alive (s := (w.view h).assist) (a := a) (x := x) (d := d)
  rw [(w.view h).assist_same.alive] at hpush
  exact hpush

/-- The new object is first in the list of its heap. -/
theorem allocate_list (hi : Inv w) (hnew : w.mem.alive a = false) (g : HeapId) :
    ∃ l, ListOf (w.allocate h a d).mem ((w.allocate h a d).heaps g).head
      (fun x => (w.allocate h a d).heapOf x = some g) l := by
  obtain ⟨l, hl⟩ := hi.lists g
  have hne : ∀ x, w.mem.alive x = true → x ≠ a := fun x hx => Mem.ne_of_alive hnew hx
  have hnext : (w.allocate h a d).mem.next = Function.update w.mem.next a (w.heaps h).head := by
    show Function.update (Function.update (w.view h).assist.mem.next a none) a (w.view h).assist.heap.head = _
    rw [Function.update_idem, (w.view h).assist_same.next, (w.view h).assist_heap]
    rfl
  by_cases hg : g = h
  · subst hg
    have hhead : ((w.allocate g a d).heaps g).head = some a := by simp [World.allocate, World.put, St.allocate, St.push]
    have hal : a ∉ l := fun ha => hne a ((hl.mem a).1 ha).1 rfl
    refine ⟨a :: l, ?_, fun x => ?_⟩
    · rw [hhead, hnext]
      exact seg_push hal hl.seg
    · rw [List.mem_cons, hl.mem, allocate_alive]
      by_cases hxa : x = a
      · simp [hxa, allocate_heapOf_self]
      · simp [hxa, allocate_heapOf_of_ne]
  · have hhead : ((w.allocate h a d).heaps g).head = (w.heaps g).head := by simp [World.allocate, World.put, hg]
    refine ⟨l, ?_⟩
    rw [hhead]
    refine hl.congr (fun x => ?_) fun x hx _ => by rw [hnext, Function.update_of_ne (hne x hx)]
    rw [allocate_alive]
    by_cases hxa : x = a
    · subst hxa
      simp [allocate_heapOf_self, hnew, Ne.symm hg]
    · simp [hxa, allocate_heapOf_of_ne]

theorem allocate_inv (hi : Inv w) (hnew : w.mem.alive a = false) (hown : Own w (.allocate h a d))
    (hs : Sound w (.allocate h a d)) : Inv (w.allocate h a d) := by
  refine ⟨fun g x y hal hx he => ?_, allocate_list hi hnew, fun g x hx => allocate_queues hi hown hs hx, hi.idle,
    fun x hx => ?_⟩
  · rcases St.push_edge.1 (show ((w.view h).assist.push a d).mem.Edge x y from he) with ⟨rfl, hy⟩ | ⟨hxa, he⟩
    · rw [allocate_heapOf_self] at hx
      cases hx
      exact allocate_heapOf (hown.1 y hy) fun _ => rfl
    · rw [(w.view h).assist_same.edge] at he
      rw [allocate_heapOf_of_ne hxa] at hx
      have hal' : w.mem.alive x = true := (allocate_alive.1 hal).resolve_left hxa
      refine allocate_heapOf (hi.edges g x y hal' hx he) fun hya => ?_
      by_contra hg
      exact (hown.2 g hg).2 x hal' hx (hya ▸ he)
  · rcases allocate_alive.1 hx with rfl | hx
    · rw [allocate_heapOf_self]; simp
    · rw [allocate_heapOf_of_ne (Mem.ne_of_alive hnew hx)]
      exact hi.known x hx

end

/-! ## Runs -/

theorem start_inv {w : World} (hi : Inv w) {h : HeapId} {h' : Heap} {s' : St} {fuel : Nat}
    (hst : (w.heaps h).tryStartMarking = (h', true)) (hr : St.doMarkRoots fuel ⟨w.mem, h'⟩ [] = some s') :
    Inv (w.put h s') := by
  obtain ⟨_, rfl⟩ := Heap.tryStartMarking_true hst
  simp only [St.doMarkRoots, Option.map_eq_some_iff] at hr
  obtain ⟨r, hr, rfl⟩ := hr
  obtain ⟨l, hl⟩ := hi.lists h
  have hhead : ∀ a, (w.heaps h).head = some a → a ∈ l := by
    intro a ha
    have hseg := hl.seg
    rw [ha] at hseg
    obtain ⟨_, rfl, _⟩ := seg_head hseg
    simp
  have hin := markRootsLoop_inside (S := (· ∈ l)) (fun a b ha hb => seg_closed hl.seg a ha b hb) fuel w.mem [] _ r
    ⟨.refl _, by simp, fun _ _ => rfl⟩ hhead hr
  refine hi.put_same hin.same rfl fun x hx => ?_
  rcases List.mem_append.1 hx with hx | hx
  · exact ((hl.mem x).1 (hin.waits x hx)).2
  · exact hi.queues h x hx

theorem sweep_inv {w : World} (hi : Inv w) {h : HeapId} {s' : St} {fuel live : Nat}
    (hs : (w.view h).sweepAndFinish fuel = some (s', live)) : Inv (w.put h s') := by
  obtain ⟨l, hl⟩ := hi.lists h
  obtain ⟨hsw, _, hheap⟩ := sweepAndFinish_some (s := w.view h) hl.seg (fun x hx => ((hl.mem x).1 hx).1) hs
  have halive : ∀ x, s'.mem.alive x = true ↔ w.mem.alive x = true ∧ x ∉ dead w.mem l := by
    intro x
    rw [show s'.mem.alive x = (w.mem.alive x && decide (x ∉ dead w.mem l)) from hsw.alive x]
    simp
  refine hi.put hsw.data (fun a ha => ((halive a).1 ha).1) (fun a ha hof => ?_) ⟨kept w.mem l, hsw.list, fun a => ?_⟩
    fun a ha => ?_
  · have hal : a ∉ l := fun hm => hof ((hl.mem a).1 hm).2
    exact ⟨(halive a).2 ⟨ha, fun hd => hal (mem_dead.1 hd).1⟩, sweepAndFinish_outside (s := w.view h) hl.seg hs a hal⟩
  · rw [mem_kept, hl.mem, halive]
    tauto
  · rw [hheap] at ha
    exact hi.queues h a ha

theorem step_inv {w w' : World} {op : Op} (hi : Inv w) (h : Step w op w') (hok : Local w op) : Inv w' := by
  obtain ⟨hown, hsound, hseen⟩ := hok
  cases h with
  | enter t h hnone =>
    refine ⟨hi.edges, hi.lists, hi.queues, fun t' c hc => ?_, hi.known⟩
    rcases update_cases id hc with ⟨_, hc⟩ | ⟨_, hc⟩
    · cases hc
      rfl
    · exact hi.idle t' c hc
  | leave t =>
    refine ⟨hi.edges, hi.lists, hi.queues, fun t' c hc => ?_, hi.known⟩
    rcases update_cases id hc with ⟨_, hc⟩ | ⟨_, hc⟩
    · cases hc
    · exact hi.idle t' c hc
  | allocate h a d hnew _ => exact allocate_inv hi hnew hown hsound
  | setRoots a n _ => exact ⟨hi.edges, hi.lists_of rfl rfl, hi.queues, hi.idle, hi.known⟩
  | set t o k vals ho _ hv => exact set_inv hi hown ((set_ok_iff hi ho hv hown).2 hseen)
  | start h fuel hst hr => exact start_inv hi hst hr
  | mark h b _ =>
    have hin := hi.mark b hsound
    refine hi.put_same hin.same ?_ fun a ha => hin.waits a (.inr ha)
    rw [St.doMarkWithTracer_heap]
    rfl
  | sweep h fuel _ hs => exact sweep_inv hi hs
  | abort h _ => exact hi.put_same (.refl _) rfl (hi.queues h)

theorem inv_of_reach {w : World} (hw : Reach (guarded Step Local) Start w) : Inv w :=
  hw.inv (I := Inv) (fun _ h => h.inv) fun _ _ _ hi h => step_inv hi h.1 h.2

/-- **The write barrier and the assist act on the heap that owns the object**, in every run whose steps
observe `Local`; and there a step that keeps pointers inside their heap and traces no dangling one does
what is asked iff its barrier sees the owner's heap. -/
theorem barrier_on_owner (w : World) (hw : Reach (guarded Step Local) Start w) (op : Op) (w' : World)
    (h : Step w op w') (hown : Own w op) (hsound : Sound w op) : BarrierOk w op w' ↔ Seen w op := by
  have hi : Inv w := inv_of_reach hw
  cases h with
  | allocate g a d hnew _ => exact ⟨fun _ => trivial, fun _ => allocate_framed hi hnew hown hsound⟩
  | set t o k vals ho _ hv => exact set_ok_iff hi ho hv hown
  | _ => exact ⟨fun _ => trivial, fun _ => trivial⟩

/-- Heaps with the default options. -/
def fresh : World where
  mem := .empty
  heaps := fun _ => .withOptions .default
  heapOf := fun _ => none
  ctx := fun _ => none

theorem start_fresh : Start fresh := ⟨rfl, fun _ => ⟨_, rfl⟩, fun _ => rfl, fun _ => rfl⟩

/-- No other heap has a pointer to an address that was never used, or that was used by a heap that is empty now. -/
theorem own_allocate {w : World} (hi : Inv w) {h : HeapId} {a : Addr} {d : Data} (hd : ∀ p ∈ d.ptrs, w.heapOf p = some h)
    (hold : w.heapOf a = none ∨ ∃ g, w.heapOf a = some g ∧ (w.heaps g).head = none ∧ (w.heaps g).grayQueue = []) :
    Own w (.allocate h a d) := by
  have hempty : ∀ g, w.heapOf a = some g → (w.heaps g).head = none ∧ (w.heaps g).grayQueue = [] := by
    intro g hg
    rcases hold with hno | ⟨g', hg', hemp⟩
    · rw [hno] at hg
      cases hg
    · obtain rfl : g' = g := Option.some.inj (hg'.symm.trans hg)
      exact hemp
  refine ⟨hd, fun g _ => ⟨fun hq => ?_, fun x hx hof he => ?_⟩⟩
  · rw [(hempty g (hi.queues g a hq)).2] at hq
    cases hq
  · obtain ⟨l, hl⟩ := hi.lists g
    have hseg := hl.seg
    rw [(hempty g (hi.edges g x a hx hof he)).1] at hseg
    obtain rfl : l = [] := seg_unique hseg rfl
    cases (hl.mem x).2 ⟨hx, hof⟩

/-- The barrier of a thread with a context on the owner's heap sees it. -/
theorem seen_of_context {w : World} {t : ThreadId} {c : Ctx} {o : Addr} {k : Nat} {vals : List Addr}
    (hc : w.ctx t = some c) (ho : w.heapOf o = some c.heap) : Seen w (.set t o k vals) := by
  intro h hh
  obtain rfl : c.heap = h := Option.some.inj (ho.symm.trans hh)
  refine ⟨fun hm => .inl ⟨c, hc, hm⟩, fun c' hc' _ hne => ?_⟩
  obtain rfl : c = c' := Option.some.inj (hc.symm.trans hc')
  exact absurd rfl hne

/-- Heap `1` frees the object at `2`, and heap `0` is given the address. A thread with a context on heap `0`, which is
marking, stores the new object into `1`: it is shaded. -/
theorem barrier_on_owner_same_heap : ∃ w w' : World, Reach (guarded Step Local) Start w ∧
    Step w (.set 7 1 0 [2]) w' ∧ w.mem.dropped = [2] ∧ w.mem.color 2 = .white ∧ BarrierOk w (.set 7 1 0 [2]) w' := by
  have h₀ : Reach (guarded Step Local) Start fresh := .init start_fresh
  have h₁ := h₀.step ⟨Step.allocate 1 2 (.leaf 8) rfl (by decide),
    own_allocate (inv_of_reach h₀) (by decide) (.inl rfl), (fun hm => by cases hm), trivial⟩
  have h₂ := h₁.step ⟨Step.setRoots 2 0 (by decide), trivial, trivial, trivial⟩
  have h₃ := h₂.step ⟨Step.start 1 1 rfl (Option.eq_some_of_isSome (by decide)), trivial, trivial, trivial⟩
  have h₄ := h₃.step ⟨Step.sweep 1 1 (by decide) (Option.eq_some_of_isSome (by decide)), trivial, trivial, trivial⟩
  have h₅ := h₄.step ⟨Step.allocate 0 2 (.leaf 8) (by decide) (by decide),
    own_allocate (inv_of_reach h₄) (by decide) (.inr ⟨1, by decide⟩), (fun hm => by cases hm), trivial⟩
  have h₆ := h₅.step ⟨Step.allocate 0 1 (.node 48 [2]) (by decide) (by decide),
    own_allocate (inv_of_reach h₅) (by decide) (.inl (by decide)), (fun hm => by cases hm), trivial⟩
  have h₇ := h₆.step ⟨Step.setRoots 2 0 (by decide), trivial, trivial, trivial⟩
  have h₈ := h₇.step ⟨Step.enter 7 0 rfl, trivial, trivial, trivial⟩
  have h₉ := h₈.step ⟨Step.start 0 2 rfl (Option.eq_some_of_isSome (by decide)), trivial, trivial, trivial⟩
  refine ⟨_, _, h₉, Step.set 7 1 0 [2] (by decide) (by decide) (by decide), by decide, by decide, ?_⟩
  exact (barrier_on_owner _ h₉ _ _ (Step.set 7 1 0 [2] (by decide) (by decide) (by decide))
    (List.forall_mem_singleton.2 (by decide)) trivial).2 (seen_of_context rfl (by decide))

/-- A thread without a context stores `2` into `1` while their heap is marking: `2` stays White. -/
theorem set_without_context : ∃ w w' : World, Reach Step Start w ∧ Step w (.set 7 1 0 [2]) w' ∧
    w.heapOf 1 = some 0 ∧ w.phase 0 = .marking ∧ w.mem.Reachable 2 ∧ w'.mem.color 2 = .white ∧
    ¬ BarrierOk w (.set 7 1 0 [2]) w' := by
  have h₁ := Reach.step (Reach.init start_fresh) (Step.allocate 0 2 (.leaf 8) rfl (by decide))
  have h₂ := h₁.step (Step.allocate 0 1 (.node 48 [2]) (by decide) (by decide))
  have h₃ := h₂.step (Step.setRoots 2 0 (by decide))
  have h₄ := h₃.step (Step.start 0 2 rfl (Option.eq_some_of_isSome (by decide)))
  refine ⟨_, _, h₄, Step.set 7 1 0 [2] (by decide) (by decide) (by decide), by decide, by decide,
    ⟨1, ⟨by decide, by decide⟩, .single (by decide : 2 ∈ _)⟩, by decide, ?_⟩
  intro hok
  exact hok.2 0 (by decide) (by decide) 2 (by simp) (by decide)

end Abfall.Contexts
