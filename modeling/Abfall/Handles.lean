import Abfall.Contexts
import Abfall.Destroy
import Abfall.Conc.StartStop
/-!
# Who keeps a heap and its objects: `Arc`s, contexts, background threads and roots

| here | there |
| --- | --- |
| `Shared`                | a heap behind its `Arc`, with its owners: the user's `Arc`s, the contexts, the background threads |
| `Step.create`           | `Heap::with_options` (`heap.rs:262-278`), which also starts the background thread |
| `Step.withHeap`, `withHeapPanics` | `GcContext::with_heap` (`gc.rs:137-145`): it takes an `Arc`; on a thread that has a context it panics and drops it |
| `World.release`         | the drop of one `Arc<Heap>`: with the last one `Drop for Heap` and the drop of `bg_thread` run (`heap.rs:88-92`, `:595-611`) |
| `Step.bgStart` .. `Step.bgEnd` | `background_gc_thread` (`heap.rs:614-650`); it owns an `Arc` until it ends (`:584-587`) |
| `roots`                 | the `GcRoot`s in user code (`ptr.rs:82-141`): they hold no `Arc` and no borrow |

`GcContext::new`, `off` and `with_options` are `create` followed by `withHeap` (or `withHeapPanics`).
The operations are whole ones. `stop` joins the thread; here the thread's end is a step of its own
that comes later, so the runs include those of the source. A box may be given an address that is free.

This module has the system and what holds in each of its runs (`base_step`); `Lifetimes` has what a
program must observe for roots and shutdown to work.
-/
namespace Abfall.Handles
open Chain Transition
open Contexts (HeapId ThreadId)

inductive Life
  | unused | live | dropped
deriving DecidableEq, Repr

structure Shared where
  heap : Heap
  bg : StartStop
  life : Life
  arcs : Nat
  ctxs : List ThreadId
  /-- The generations whose background thread has not ended. -/
  threads : List Nat

namespace Shared

/-- `Arc<Heap>`s and contexts in user code. -/
def user (x : Shared) : Nat := x.arcs + x.ctxs.length

/-- `Arc::strong_count`. -/
def strong (x : Shared) : Nat := x.user + x.threads.length

def withArcs (x : Shared) (n : Nat) : Shared := { x with arcs := n }

def withCtxs (x : Shared) (ts : List ThreadId) : Shared := { x with ctxs := ts }

def withThreads (x : Shared) (cs : List Nat) : Shared := { x with threads := cs }

def withHeap (x : Shared) (h : Heap) : Shared := { x with heap := h }

/-- A heap that was just made, with one `Arc` to it. -/
def new (o : GcOptions) : Shared := ⟨.withOptions o, .new, .live, 1, [], []⟩

/-- `start_background_collection` (heap.rs:579). -/
def startBackground (x : Shared) : Shared :=
  if x.heap.options.isBackgroundCollectionOff || x.bg.isStarted then x
  else { x with bg := x.bg.start.1, threads := x.bg.start.2.toList ++ x.threads }

/-- `stop_background_collection` (heap.rs:590), up to the join. -/
def stopBackground (x : Shared) : Shared := { x with bg := x.bg.stop.1 }

/-- What `Drop for Heap` and the drop of its fields leave. -/
def drop (x : Shared) : Shared := { x.stopBackground with life := .dropped }

end Shared

structure World where
  mem : Mem
  heaps : HeapId → Shared
  heapOf : Addr → Option HeapId
  /-- How many `GcRoot`s to an address exist. -/
  roots : Addr → Nat

namespace World

def view (w : World) (h : HeapId) : St := ⟨w.mem, (w.heaps h).heap⟩

def set (w : World) (h : HeapId) (x : Shared) : World := { w with heaps := Function.update w.heaps h x }

def put (w : World) (h : HeapId) (s : St) : World :=
  { w with mem := s.mem, heaps := Function.update w.heaps h ((w.heaps h).withHeap s.heap) }

def allocate (w : World) (h : HeapId) (a : Addr) (d : Data) : World :=
  { w.put h ((w.view h).allocate a d) with
    heapOf := Function.update w.heapOf a (some h)
    roots := Function.update w.roots a (w.roots a + 1) }

/-- The memory after a root operation on `a`, which has `n` roots then. -/
def setRoots (w : World) (m : Mem) (a : Addr) (n : Nat) : World :=
  { w with mem := m, roots := Function.update w.roots a n }

/-- The heap is gone; its objects are freed in `m`. -/
def gone (w : World) (h : HeapId) (m : Mem) : World :=
  { w with mem := m, heaps := Function.update w.heaps h (w.heaps h).drop }

/-- An owner of heap `h` has given up its `Arc`. -/
def release (fuel : Nat) (w : World) (h : HeapId) : Option World :=
  if (w.heaps h).strong = 0 then ((w.view h).dropHeap fuel).map (w.gone h) else some w

end World

inductive Op
  | create (h : HeapId) (o : GcOptions)
  | cloneArc (h : HeapId)
  | dropArc (h : HeapId)
  | withHeap (t : ThreadId) (h : HeapId)
  | withHeapPanics (t : ThreadId) (h : HeapId)
  | dropContext (t : ThreadId) (h : HeapId)
  | allocate (h : HeapId) (a : Addr) (d : Data)
  | cloneRoot (a : Addr)
  | derefRoot (a : Addr)
  | dropRoot (a : Addr)
  | forceCollect (h : HeapId)
  | startBackground (h : HeapId)
  | stopBackground (h : HeapId)
  | bgStart (h : HeapId)
  | bgMark (h : HeapId)
  | bgSweep (h : HeapId)
  | bgAbort (h : HeapId)
  | bgEnd (h : HeapId) (c : Nat)

/-- What safe code and the background threads can do. A method of a heap is called through a user
handle; a `GcRoot` operation needs nothing but the `GcRoot`. -/
inductive Step : World → Op → World → Prop
  | create {w : World} (h : HeapId) (o : GcOptions) : (w.heaps h).life = .unused →
      Step w (.create h o) (w.set h (Shared.new o).startBackground)
  | cloneArc {w : World} (h : HeapId) : 0 < (w.heaps h).user →
      Step w (.cloneArc h) (w.set h ((w.heaps h).withArcs ((w.heaps h).arcs + 1)))
  | dropArc {w w' : World} (h : HeapId) (fuel : Nat) : 0 < (w.heaps h).arcs →
      (w.set h ((w.heaps h).withArcs ((w.heaps h).arcs - 1))).release fuel h = some w' → Step w (.dropArc h) w'
  | withHeap {w : World} (t : ThreadId) (h : HeapId) : 0 < (w.heaps h).arcs → (∀ g, t ∉ (w.heaps g).ctxs) →
      Step w (.withHeap t h)
        (w.set h (((w.heaps h).withArcs ((w.heaps h).arcs - 1)).withCtxs (t :: (w.heaps h).ctxs)))
  | withHeapPanics {w w' : World} (t : ThreadId) (h : HeapId) (fuel : Nat) : 0 < (w.heaps h).arcs →
      (∃ g, t ∈ (w.heaps g).ctxs) →
      (w.set h ((w.heaps h).withArcs ((w.heaps h).arcs - 1))).release fuel h = some w' →
      Step w (.withHeapPanics t h) w'
  | dropContext {w w' : World} (t : ThreadId) (h : HeapId) (fuel : Nat) : t ∈ (w.heaps h).ctxs →
      (w.set h ((w.heaps h).withCtxs ((w.heaps h).ctxs.erase t))).release fuel h = some w' →
      Step w (.dropContext t h) w'
  | allocate {w : World} (h : HeapId) (a : Addr) (d : Data) : 0 < (w.heaps h).user → w.mem.alive a = false →
      Step w (.allocate h a d) (w.allocate h a d)
  | cloneRoot {w : World} (a : Addr) : 0 < w.roots a →
      Step w (.cloneRoot a) (w.setRoots (w.mem.incRoot a) a (w.roots a + 1))
  | derefRoot {w : World} (a : Addr) : 0 < w.roots a →
      Step w (.derefRoot a) (w.setRoots (w.mem.touch a) a (w.roots a))
  | dropRoot {w : World} (a : Addr) : 0 < w.roots a →
      Step w (.dropRoot a) (w.setRoots (w.mem.decRoot a) a (w.roots a - 1))
  | forceCollect {w : World} {s' : St} {live : Nat} (h : HeapId) (fuel : Nat) : 0 < (w.heaps h).user →
      (w.view h).forceCollect fuel = some (s', live) → Step w (.forceCollect h) (w.put h s')
  | startBackground {w : World} (h : HeapId) : 0 < (w.heaps h).user →
      Step w (.startBackground h) (w.set h (w.heaps h).startBackground)
  | stopBackground {w : World} (h : HeapId) : 0 < (w.heaps h).user →
      Step w (.stopBackground h) (w.set h (w.heaps h).stopBackground)
  | bgStart {w : World} {h' : Heap} {s' : St} (h : HeapId) (fuel : Nat) : (w.heaps h).threads ≠ [] →
      (w.heaps h).heap.shouldCollect = true → (w.heaps h).heap.tryStartMarking = (h', true) →
      St.doMarkRoots fuel ⟨w.mem, h'⟩ [] = some s' → Step w (.bgStart h) (w.put h s')
  | bgMark {w : World} (h : HeapId) : (w.heaps h).threads ≠ [] → (w.heaps h).heap.phase = .marking →
      Step w (.bgMark h)
        (w.put h ((w.view h).doMarkWithTracer [] (w.heaps h).heap.options.incrementalWorkBudget).1)
  | bgSweep {w : World} {s' : St} {live : Nat} (h : HeapId) (fuel : Nat) : (w.heaps h).threads ≠ [] →
      (w.heaps h).heap.phase = .marking → (w.view h).sweepAndFinish fuel = some (s', live) →
      Step w (.bgSweep h) (w.put h s')
  | bgAbort {w : World} (h : HeapId) : (w.heaps h).threads ≠ [] → (w.heaps h).heap.phase = .marking →
      Step w (.bgAbort h) (w.put h ⟨w.mem, (w.heaps h).heap.finishGc⟩)
  | bgEnd {w w' : World} (h : HeapId) (c : Nat) (fuel : Nat) : c ∈ (w.heaps h).threads →
      (w.heaps h).bg.isStopped c = true →
      (w.set h ((w.heaps h).withThreads ((w.heaps h).threads.erase c))).release fuel h = some w' →
      Step w (.bgEnd h c) w'

/-- No heap was made yet. -/
def init : World where
  mem := .empty
  heaps := fun _ => ⟨.withOptions .default, .new, .unused, 0, [], []⟩
  heapOf := fun _ => none
  roots := fun _ => 0

/-- The heap whose `Arc` an operation gives up. -/
def Op.releases : Op → Option HeapId
  | .dropArc h => some h
  | .withHeapPanics _ h => some h
  | .dropContext _ h => some h
  | .bgEnd h _ => some h
  | _ => none

/-- The same for the user's handles. -/
def Op.releasesUser : Op → Option HeapId
  | .dropArc h => some h
  | .withHeapPanics _ h => some h
  | .dropContext _ h => some h
  | _ => none

/-! ## Memory outside one heap -/

/-- `Drop for Heap` frees the listed objects. -/
theorem dropHeapLoop_some : ∀ (l : List Addr) (fuel : Nat) (m m' : Mem) (p : Option Addr), Seg m.next p l none →
    dropHeapLoop fuel m p = some m' → (∀ x, m'.alive x = (m.alive x && decide (x ∉ l))) ∧ m'.next = m.next ∧
      m'.rootCount = m.rootCount
  | [], fuel, m, m', p, hp, h => by
    obtain rfl : p = none := hp
    cases fuel <;> cases h <;> simp
  | a :: l, 0, m, m', p, hp, h => by
    obtain rfl : p = some a := hp.1
    cases h
  | a :: l, fuel + 1, m, m', p, hp, h => by
    obtain ⟨rfl, hp⟩ := hp
    obtain ⟨hal, hnext, hrc⟩ := dropHeapLoop_some l fuel ((m.touch a).drop a) m' (m.next a) hp h
    refine ⟨fun x => ?_, hnext, hrc⟩
    rw [hal]
    exact (m.touch a).drop_alive_and a l x

/-- `force_collect` marks, and then either returns or sweeps. -/
theorem forceCollect_cases {s s' : St} {l : List Addr} {fuel live : Nat} (hl : Seg s.mem.next s.heap.head l none)
    (h : s.forceCollect fuel = some (s', live)) : ∃ s₁ : St, s.mem.SameObjects s₁.mem ∧ s₁.heap.head = s.heap.head ∧
      (s' = s₁ ∨ s₁.sweepAndFinish fuel = some (s', live)) := by
  rcases forceCollect_some h with ⟨_, rfl⟩ | ⟨_, s₁, s₂, h₁, h₂, hsweep⟩
  · exact ⟨s', .refl _, rfl, .inl rfl⟩
  · obtain rfl := St.doMarkRoots_some (s := ⟨s.mem, s.heap.withPhase .marking⟩) hl h₁
    obtain ⟨hs, hh⟩ := doMarkWorkFull_frame fuel _ s₂ [] h₂
    exact ⟨s₂, (scanRoots_same l s.mem []).trans hs, by rw [hh]; rfl, .inr hsweep⟩

/-! ## Lists and owners -/

/-- `l` is the object list of heap `h`, and holds its allocated objects. -/
structure ListOf (w : World) (h : HeapId) (l : List Addr) : Prop where
  seg : Seg w.mem.next (w.heaps h).heap.head l none
  mem : ∀ a, a ∈ l ↔ w.mem.alive a = true ∧ w.heapOf a = some h

structure Objects (w : World) : Prop where
  list : ∀ h, (w.heaps h).life = .live → ∃ l, ListOf w h l
  owned : ∀ a, w.mem.alive a = true → ∃ h, w.heapOf a = some h ∧ (w.heaps h).life = .live

/-- A running generation is one of the background threads, the newest. -/
def HandleOk (x : Shared) : Prop := ∀ c, x.bg.handle = some c → c ∈ x.threads ∧ c = x.bg.counter

/-- A heap lives as long as it has an owner. -/
structure Owned (x : Shared) : Prop where
  live : x.life = .live ↔ 0 < x.strong
  handle : HandleOk x

structure Base (w : World) : Prop where
  objects : Objects w
  owners : ∀ h, Owned (w.heaps h)

theorem Base.live_of_user {w : World} (hb : Base w) {h : HeapId} (hu : 0 < (w.heaps h).user) :
    (w.heaps h).life = .live := (hb.owners h).live.2 (by unfold Shared.strong; omega)

theorem Base.live_of_threads {w : World} (hb : Base w) {h : HeapId} (ht : (w.heaps h).threads ≠ []) :
    (w.heaps h).life = .live := by
  refine (hb.owners h).live.2 ?_
  have := List.length_pos_iff.2 ht
  unfold Shared.strong
  omega

section
variable {w w' : World} {h : HeapId}

theorem set_self (w : World) (h : HeapId) (x : Shared) : (w.set h x).heaps h = x := Function.update_self _ _ _

theorem set_ne {g : HeapId} (x : Shared) (hg : g ≠ h) : (w.set h x).heaps g = w.heaps g := Function.update_of_ne hg _ _

theorem put_self (w : World) (h : HeapId) (s : St) : (w.put h s).heaps h = (w.heaps h).withHeap s.heap :=
  Function.update_self _ _ _

theorem put_ne {g : HeapId} (s : St) (hg : g ≠ h) : (w.put h s).heaps g = w.heaps g := Function.update_of_ne hg _ _

/-- Work on heap `h` that leaves the objects of the other heaps, their number and their links alone. -/
theorem Objects.change (ho : Objects w) (hne : ∀ g, g ≠ h → w'.heaps g = w.heaps g)
    (hsame : ∀ g, g ≠ h → ∀ x, (w'.mem.alive x = true ∧ w'.heapOf x = some g) ↔
      (w.mem.alive x = true ∧ w.heapOf x = some g))
    (hnext : ∀ x, w.mem.alive x = true → w.heapOf x ≠ some h → w'.mem.next x = w.mem.next x)
    (hknown : ∀ x, w'.mem.alive x = true → w'.heapOf x ≠ none)
    (hlist : (w'.heaps h).life = .live → ∃ l, ListOf w' h l)
    (hlive : ∀ x, w'.mem.alive x = true → w'.heapOf x = some h → (w'.heaps h).life = .live) : Objects w' := by
  refine ⟨fun g hg => ?_, fun x hx => ?_⟩
  · by_cases hgh : g = h
    · rw [hgh] at hg ⊢
      exact hlist hg
    · rw [hne g hgh] at hg
      obtain ⟨l, hl⟩ := ho.list g hg
      refine ⟨l, ?_, fun a => (hl.mem a).trans (hsame g hgh a).symm⟩
      rw [hne g hgh]
      refine seg_congr (fun a ha => ?_) hl.seg
      obtain ⟨hal, hof⟩ := (hl.mem a).1 ha
      refine hnext a hal fun hof' => hgh ?_
      exact Option.some.inj (hof.symm.trans hof')
  · obtain ⟨g, hg⟩ := Option.ne_none_iff_exists'.1 (hknown x hx)
    refine ⟨g, hg, ?_⟩
    by_cases hgh : g = h
    · rw [hgh] at hg ⊢
      exact hlive x hx hg
    · obtain ⟨hal, hof⟩ := (hsame g hgh x).1 ⟨hx, hg⟩
      obtain ⟨g', hof', hlive'⟩ := ho.owned x hal
      obtain rfl : g = g' := Option.some.inj (hof.symm.trans hof')
      rw [hne g hgh]
      exact hlive'

/-- Neither memory nor lists change. -/
theorem Objects.relabel (ho : Objects w) (ha : w'.mem.alive = w.mem.alive) (hn : w'.mem.next = w.mem.next)
    (hof : w'.heapOf = w.heapOf)
    (hh : ∀ g, (w'.heaps g).heap.head = (w.heaps g).heap.head ∧ (w'.heaps g).life = (w.heaps g).life) : Objects w' := by
  refine ⟨fun g hg => ?_, fun a hal => ?_⟩
  · rw [(hh g).2] at hg
    obtain ⟨l, hl⟩ := ho.list g hg
    refine ⟨l, ?_, fun a => ?_⟩
    · rw [hn, (hh g).1]; exact hl.seg
    · rw [ha, hof]; exact hl.mem a
  · rw [ha] at hal
    obtain ⟨g, hg, hlive⟩ := ho.owned a hal
    refine ⟨g, by rw [hof]; exact hg, ?_⟩
    rw [(hh g).2]
    exact hlive

theorem Objects.set (ho : Objects w) {x : Shared} (hh : x.heap.head = (w.heaps h).heap.head)
    (hl : x.life = (w.heaps h).life) : Objects (w.set h x) := by
  refine ho.relabel rfl rfl rfl fun g => ?_
  by_cases hg : g = h
  · rw [hg, set_self]; exact ⟨hh, hl⟩
  · rw [set_ne x hg]; exact ⟨rfl, rfl⟩

theorem Objects.same (ho : Objects w) {s' : St} (hs : w.mem.SameObjects s'.mem)
    (hh : s'.heap.head = (w.heaps h).heap.head) : Objects (w.put h s') := by
  refine ho.relabel hs.alive hs.next rfl fun g => ?_
  by_cases hg : g = h
  · rw [hg, put_self]; exact ⟨hh, rfl⟩
  · rw [put_ne s' hg]; exact ⟨rfl, rfl⟩

/-- A sweep of heap `h`, after marking has changed colors. -/
theorem Objects.swept (ho : Objects w) {l : List Addr} (hl : ListOf w h l) {m₁ : Mem} {s' : St}
    (hs : w.mem.SameObjects m₁) (hsw : Swept m₁ [] l s'.mem s'.heap.head)
    (hout : ∀ x ∉ l, s'.mem.next x = m₁.next x) : Objects (w.put h s') := by
  have halive : ∀ x, s'.mem.alive x = true ↔ w.mem.alive x = true ∧ x ∉ dead m₁ l := by
    intro x
    rw [hsw.alive, hs.alive]
    simp
  have hdead : ∀ x ∈ dead m₁ l, w.heapOf x = some h := fun x hx => ((hl.mem x).1 (mem_dead.1 hx).1).2
  refine ho.change (h := h) (fun g hg => put_ne s' hg) (fun g hg x => ?_) (fun x hx hof => ?_)
    (fun x hx => ?_) (fun _ => ⟨kept m₁ l, ?_, fun a => ?_⟩) fun x hx hof => ?_
  · show s'.mem.alive x = true ∧ w.heapOf x = some g ↔ _
    rw [halive]
    refine ⟨fun hx => ⟨hx.1.1, hx.2⟩, fun hx => ⟨⟨hx.1, fun hd => hg ?_⟩, hx.2⟩⟩
    exact Option.some.inj (hx.2.symm.trans (hdead x hd))
  · rw [← hs.next]
    exact hout x fun hm => hof ((hl.mem x).1 hm).2
  · obtain ⟨g, hg, _⟩ := ho.owned x ((halive x).1 hx).1
    rw [show (w.put h s').heapOf x = some g from hg]
    simp
  · rw [put_self]
    exact hsw.list
  · show _ ↔ s'.mem.alive a = true ∧ w.heapOf a = some h
    rw [mem_kept, hl.mem, halive]
    tauto
  · obtain ⟨g, hg, hlive⟩ := ho.owned x ((halive x).1 hx).1
    obtain rfl : h = g := Option.some.inj (Eq.trans (Eq.symm hof) hg)
    rw [put_self]
    exact hlive

theorem allocate_alive {a x : Addr} {d : Data} :
    (w.allocate h a d).mem.alive x = true ↔ x = a ∨ w.mem.alive x = true := by
  have hpush := St.push_alive (s := (w.view h).assist) (a := a) (x := x) (d := d)
  rw [(w.view h).assist_same.alive] at hpush
  exact hpush

/-- `allocate`: the assist marks, and the new object is pushed. -/
theorem Objects.allocate (ho : Objects w) {a : Addr} (d : Data) (hlive : (w.heaps h).life = .live)
    (ha : w.mem.alive a = false) : Objects (w.allocate h a d) := by
  obtain ⟨l, hl⟩ := ho.list h hlive
  have hs := (w.view h).assist_same
  have hhead : (w.view h).assist.heap.head = (w.heaps h).heap.head := by rw [(w.view h).assist_heap]; rfl
  have hal : a ∉ l := fun hm => Mem.ne_of_alive ha ((hl.mem a).1 hm).1 rfl
  have halive : ∀ x, (w.allocate h a d).mem.alive x = true ↔ x = a ∨ w.mem.alive x = true := fun x => allocate_alive
  have hof : ∀ x, x ≠ a → (w.allocate h a d).heapOf x = w.heapOf x := fun x hx => Function.update_of_ne hx _ _
  have hofa : (w.allocate h a d).heapOf a = some h := Function.update_self _ _ _
  have hne : ∀ x, w.mem.alive x = true → x ≠ a := fun x => Mem.ne_of_alive ha
  have hself : (w.allocate h a d).heaps h = (w.heaps h).withHeap ((w.view h).allocate a d).heap := put_self w h _
  refine ho.change (h := h) (fun g hg => put_ne _ hg) (fun g hg x => ?_) (fun x hx _ => ?_) (fun x hx => ?_)
    (fun _ => ⟨a :: l, ?_, fun x => ?_⟩) fun x hx _ => ?_
  · rw [halive]
    by_cases hxa : x = a
    · subst hxa
      rw [hofa]
      simp [ha, Ne.symm hg]
    · rw [hof x hxa]
      simp [hxa]
  · show Function.update (Function.update (w.view h).assist.mem.next a none) a _ x = _
    rw [Function.update_of_ne (hne x hx), Function.update_of_ne (hne x hx), hs.next]
    rfl
  · by_cases hxa : x = a
    · rw [hxa, hofa]; simp
    · rw [hof x hxa]
      obtain ⟨g, hg, _⟩ := ho.owned x (((halive x).1 hx).resolve_left hxa)
      rw [hg]; simp
  · -- the new node points at the old head
    rw [hself]
    have hold : Seg (Function.update (w.view h).assist.mem.next a none) (w.view h).assist.heap.head l none := by
      rw [seg_update_of_notMem hal, hs.next, hhead]
      exact hl.seg
    exact seg_push hal hold
  · rw [List.mem_cons, hl.mem, halive]
    by_cases hxa : x = a
    · subst hxa; simp [hofa]
    · rw [hof x hxa]; simp [hxa]
  · rw [hself]
    exact hlive

/-- A heap on which nothing was allocated. -/
theorem Objects.create (ho : Objects w) {x : Shared} (hun : (w.heaps h).life = .unused) (hx : x.heap.head = none) :
    Objects (w.set h x) := by
  have hnone : ∀ a, ¬ (w.mem.alive a = true ∧ w.heapOf a = some h) := by
    rintro a ⟨hal, hof⟩
    obtain ⟨g, hg, hlive⟩ := ho.owned a hal
    obtain rfl : h = g := Option.some.inj (hof.symm.trans hg)
    rw [hun] at hlive
    cases hlive
  refine ho.change (h := h) (fun g hg => set_ne x hg) (fun _ _ _ => Iff.rfl) (fun _ _ _ => rfl) (fun a ha => ?_)
    (fun _ => ⟨[], ?_, fun a => ?_⟩) fun a ha hof => absurd ⟨ha, hof⟩ (hnone a)
  · obtain ⟨g, hg, _⟩ := ho.owned a ha
    rw [show (w.set h x).heapOf a = some g from hg]
    simp
  · rw [set_self]; exact hx
  · exact ⟨fun hm => (by cases hm), fun hm => absurd hm (hnone a)⟩

theorem release_cases {fuel : Nat} (hrel : w.release fuel h = some w') :
    (0 < (w.heaps h).strong ∧ w' = w) ∨
    ((w.heaps h).strong = 0 ∧ ∃ m, (w.view h).dropHeap fuel = some m ∧ w' = w.gone h m) := by
  unfold World.release at hrel
  split at hrel
  · rename_i h0
    obtain ⟨m, hm, rfl⟩ := Option.map_eq_some_iff.1 hrel
    exact .inr ⟨h0, m, hm, rfl⟩
  · exact .inl ⟨by omega, (Option.some.inj hrel).symm⟩

theorem Objects.gone (ho : Objects w) {fuel : Nat} {m : Mem} (hlive : (w.heaps h).life = .live)
    (hm : (w.view h).dropHeap fuel = some m) : Objects (w.gone h m) ∧ m.rootCount = w.mem.rootCount ∧
      ∀ x, m.alive x = true ↔ w.mem.alive x = true ∧ w.heapOf x ≠ some h := by
  obtain ⟨l, hl⟩ := ho.list h hlive
  obtain ⟨hal, hnext, hrc⟩ := dropHeapLoop_some l fuel w.mem m _ hl.seg hm
  have halive : ∀ x, m.alive x = true ↔ w.mem.alive x = true ∧ w.heapOf x ≠ some h := by
    intro x
    rw [hal, Bool.and_eq_true, decide_eq_true_eq, hl.mem]
    tauto
  refine ⟨?_, hrc, halive⟩
  refine ho.change (h := h) (fun g hg => Function.update_of_ne hg _ _) (fun g hg x => ?_)
    (fun x _ _ => congrFun hnext x) (fun x hx => ?_) (fun hd => ?_) fun x hx hof => ?_
  · show m.alive x = true ∧ w.heapOf x = some g ↔ _
    rw [halive]
    refine ⟨fun hx => ⟨hx.1.1, hx.2⟩, fun hx => ⟨⟨hx.1, fun hof => hg ?_⟩, hx.2⟩⟩
    exact Option.some.inj (hx.2.symm.trans hof)
  · obtain ⟨g, hg, _⟩ := ho.owned x ((halive x).1 hx).1
    rw [show (w.gone h m).heapOf x = some g from hg]
    simp
  · rw [show (w.gone h m).heaps h = (w.heaps h).drop from Function.update_self _ _ _] at hd
    cases hd
  · exact absurd hof ((halive x).1 hx).2

/-- An `Arc` of a living heap is given up. -/
theorem Base.release (ho : Objects w) (hown : ∀ g, g ≠ h → Owned (w.heaps g)) (hlive : (w.heaps h).life = .live)
    (hh : HandleOk (w.heaps h)) {fuel : Nat} (hrel : w.release fuel h = some w') : Base w' := by
  rcases release_cases hrel with ⟨hpos, rfl⟩ | ⟨h0, m, hm, rfl⟩
  · refine ⟨ho, fun g => ?_⟩
    by_cases hg : g = h
    · rw [hg]; exact ⟨⟨fun _ => hpos, fun _ => hlive⟩, hh⟩
    · exact hown g hg
  · refine ⟨(ho.gone hlive hm).1, fun g => ?_⟩
    by_cases hg : g = h
    · rw [hg, show (w.gone h m).heaps h = (w.heaps h).drop from Function.update_self _ _ _]
      have hs : (w.heaps h).drop.strong = 0 := h0
      exact ⟨⟨fun hd => (by cases hd), fun hpos => (by omega)⟩, fun c hc => (by cases hc)⟩
    · rw [show (w.gone h m).heaps g = w.heaps g from Function.update_of_ne hg _ _]
      exact hown g hg

theorem Owned.of_live {x : Shared} (hl : x.life = .live) (hs : 0 < x.strong) (hh : HandleOk x) : Owned x :=
  ⟨⟨fun _ => hs, fun _ => hl⟩, hh⟩

/-- Nothing, or one more generation. -/
theorem startBackground_cases (x : Shared) : x.startBackground = x ∨
    (x.bg.handle = none ∧ x.startBackground =
      { x with bg := ⟨x.bg.counter + 1, some (x.bg.counter + 1)⟩, threads := (x.bg.counter + 1) :: x.threads }) := by
  unfold Shared.startBackground
  split
  · exact .inl rfl
  · rename_i hoff
    simp only [StartStop.isStarted, Bool.or_eq_true, not_or, Bool.not_eq_true, Option.isSome_eq_false_iff,
      Option.isNone_iff_eq_none] at hoff
    refine .inr ⟨hoff.2, ?_⟩
    simp [StartStop.start, hoff.2]

theorem startBackground_same (x : Shared) : x.startBackground.heap = x.heap ∧ x.startBackground.life = x.life ∧
    x.startBackground.user = x.user := by
  rcases startBackground_cases x with e | ⟨_, e⟩ <;> rw [e] <;> exact ⟨rfl, rfl, rfl⟩

theorem Owned.startBackground {x : Shared} (hx : Owned x) (hl : x.life = .live) : Owned x.startBackground := by
  rcases startBackground_cases x with e | ⟨_, e⟩ <;> rw [e]
  · exact hx
  · refine .of_live hl (Nat.lt_of_lt_of_le (Nat.succ_pos x.threads.length) (Nat.le_add_left _ _)) fun c hc => ?_
    obtain rfl : x.bg.counter + 1 = c := Option.some.inj hc
    exact ⟨by simp, rfl⟩

theorem owned_new (o : GcOptions) : Owned (Shared.new o) :=
  .of_live rfl (by simp [Shared.strong, Shared.user, Shared.new]) fun c hc => by cases hc

/-- The generation that is not stopped is the one whose handle is kept. -/
theorem isStopped_iff {x : Shared} (hh : HandleOk x) (c : Nat) : x.bg.isStopped c = true ↔ x.bg.handle ≠ some c := by
  unfold StartStop.isStopped
  cases hg : x.bg.handle with
  | none => simp
  | some d =>
    have hd := (hh d hg).2
    simp only [Option.isNone_some, Bool.false_or, bne_iff_ne, ne_eq, Option.some.injEq]
    omega

theorem Base.set (hb : Base w) {x : Shared} (hx : Owned x) (hh : x.heap.head = (w.heaps h).heap.head)
    (hl : x.life = (w.heaps h).life) : Base (w.set h x) := by
  refine ⟨hb.objects.set hh hl, fun g => ?_⟩
  by_cases hg : g = h
  · rw [hg, set_self]; exact hx
  · rw [set_ne x hg]; exact hb.owners g

theorem Base.put (hb : Base w) {s' : St} (ho : Objects (w.put h s')) : Base (w.put h s') := by
  refine ⟨ho, fun g => ?_⟩
  by_cases hg : g = h
  · rw [hg, put_self]
    exact ⟨(hb.owners h).live, (hb.owners h).handle⟩
  · rw [put_ne s' hg]; exact hb.owners g

/-- What marking and sweeping do to root counts and rooted objects. -/
structure Collects (m m' : Mem) : Prop where
  rootCount : m'.rootCount = m.rootCount
  alive : ∀ x, m'.alive x = true → m.alive x = true
  rooted : ∀ x, m.Rooted x → m'.alive x = true

theorem Collects.of_same {m m' : Mem} (hs : m.SameObjects m') : Collects m m' := by
  refine ⟨hs.rootCount, fun x hx => ?_, fun x hx => ?_⟩
  · rw [hs.alive] at hx; exact hx
  · rw [hs.alive]; exact hx.1

/-- A sweep that ended, after marking has changed colors. -/
theorem Base.sweep (hb : Base w) {s₁ s' : St} {fuel live : Nat} (hlive : (w.heaps h).life = .live)
    (hs : w.mem.SameObjects s₁.mem) (hhead : s₁.heap.head = (w.heaps h).heap.head)
    (h' : s₁.sweepAndFinish fuel = some (s', live)) : Base (w.put h s') ∧ Collects w.mem s'.mem := by
  obtain ⟨l, hl⟩ := hb.objects.list h hlive
  have hseg : Seg s₁.mem.next s₁.heap.head l none := by
    rw [hs.next, hhead]
    exact hl.seg
  have hall : ∀ x ∈ l, s₁.mem.alive x = true := fun x hx => by
    rw [hs.alive]
    exact ((hl.mem x).1 hx).1
  obtain ⟨hsw, _, _⟩ := sweepAndFinish_some hseg hall h'
  have hout := sweepAndFinish_outside hseg h'
  have halive : ∀ x, s'.mem.alive x = true ↔ w.mem.alive x = true ∧ x ∉ dead s₁.mem l := by
    intro x
    rw [hsw.alive, hs.alive]
    simp
  refine ⟨hb.put (hb.objects.swept hl hs hsw hout), hsw.rootCount.trans hs.rootCount, fun x hx => ((halive x).1 hx).1,
    fun x hx => (halive x).2 ⟨hx.1, fun hd => ?_⟩⟩
  have h0 := (mem_dead.1 hd).2.2
  have hpos := hx.2
  rw [hs.rootCount] at h0
  omega

theorem Base.forceCollect (hb : Base w) {s' : St} {fuel live : Nat} (hlive : (w.heaps h).life = .live)
    (h' : (w.view h).forceCollect fuel = some (s', live)) : Base (w.put h s') ∧ Collects w.mem s'.mem := by
  obtain ⟨l, hl⟩ := hb.objects.list h hlive
  obtain ⟨s₁, hs, hhead, rfl | hsweep⟩ := forceCollect_cases hl.seg h'
  · exact ⟨hb.put (hb.objects.same hs hhead), .of_same hs⟩
  · exact hb.sweep hlive hs hhead hsweep

/-- The start of a background cycle: the roots are scanned. -/
theorem Base.bgStart (hb : Base w) {g : Heap} {s' : St} {fuel : Nat} (hlive : (w.heaps h).life = .live)
    (hst : (w.heaps h).heap.tryStartMarking = (g, true)) (hr : St.doMarkRoots fuel ⟨w.mem, g⟩ [] = some s') :
    Base (w.put h s') ∧ Collects w.mem s'.mem := by
  obtain ⟨l, hl⟩ := hb.objects.list h hlive
  obtain ⟨_, rfl⟩ := Heap.tryStartMarking_true hst
  obtain rfl := St.doMarkRoots_some (s := ⟨w.mem, (w.heaps h).heap.withPhase .marking⟩) hl.seg hr
  have hs := scanRoots_same l w.mem []
  exact ⟨hb.put (hb.objects.same hs rfl), .of_same hs⟩

theorem Base.bgMark (hb : Base w) (b : Nat) : Base (w.put h ((w.view h).doMarkWithTracer [] b).1) ∧
    Collects w.mem ((w.view h).doMarkWithTracer [] b).1.mem := by
  have hs := doMarkWithTracer_same (w.view h) [] b
  have hhead : ((w.view h).doMarkWithTracer [] b).1.heap.head = (w.heaps h).heap.head := by
    rw [(w.view h).doMarkWithTracer_heap]; rfl
  exact ⟨hb.put (hb.objects.same hs hhead), .of_same hs⟩

theorem Base.bgAbort (hb : Base w) : Base (w.put h ⟨w.mem, (w.heaps h).heap.finishGc⟩) :=
  hb.put (hb.objects.same (.refl _) rfl)

/-- Heap `h` when one of its `Arc`s was given up and the strong count is not looked at yet. -/
structure Given (w : World) (op : Op) (h : HeapId) (x : Shared) : Prop where
  heap : x.heap = (w.heaps h).heap
  life : x.life = (w.heaps h).life
  bg : x.bg = (w.heaps h).bg
  handle : HandleOk x
  strong : x.strong + 1 = (w.heaps h).strong
  user : op.releasesUser = some h → x.user + 1 = (w.heaps h).user ∧ x.threads = (w.heaps h).threads
  thread : op.releasesUser = none → x.user = (w.heaps h).user

/-- The four ways to give up an `Arc`. -/
theorem releases_cases {op : Op} (hb : Base w) (hst : Step w op w') (hop : op.releases = some h) :
    ∃ x fuel, Given w op h x ∧ (w.set h x).release fuel h = some w' := by
  have hh := (hb.owners h).handle
  have harc : 0 < (w.heaps h).arcs → op.releasesUser = some h →
      Given w op h ((w.heaps h).withArcs ((w.heaps h).arcs - 1)) := by
    intro ha hu
    have e : (w.heaps h).arcs - 1 + (w.heaps h).ctxs.length + 1 = (w.heaps h).user := by unfold Shared.user; omega
    refine ⟨rfl, rfl, rfl, hh, ?_, fun _ => ⟨e, rfl⟩, fun hn => by rw [hu] at hn; cases hn⟩
    show (w.heaps h).arcs - 1 + (w.heaps h).ctxs.length + (w.heaps h).threads.length + 1 = (w.heaps h).strong
    unfold Shared.strong
    omega
  cases hst with
  | dropArc g fuel ha hrel =>
    cases hop
    exact ⟨_, fuel, harc ha rfl, hrel⟩
  | withHeapPanics t g fuel ha _ hrel =>
    cases hop
    exact ⟨_, fuel, harc ha rfl, hrel⟩
  | dropContext t g fuel ht hrel =>
    cases hop
    have hlen := List.length_erase_of_mem ht
    have hpos := List.length_pos_of_mem ht
    have e : (w.heaps h).arcs + ((w.heaps h).ctxs.erase t).length + 1 = (w.heaps h).user := by
      unfold Shared.user
      omega
    refine ⟨(w.heaps h).withCtxs ((w.heaps h).ctxs.erase t), fuel,
      ⟨rfl, rfl, rfl, hh, ?_, fun _ => ⟨e, rfl⟩, fun hn => (by cases hn)⟩, hrel⟩
    show (w.heaps h).arcs + ((w.heaps h).ctxs.erase t).length + (w.heaps h).threads.length + 1 = (w.heaps h).strong
    unfold Shared.strong
    omega
  | bgEnd g c fuel hc hstop hrel =>
    cases hop
    have hlen := List.length_erase_of_mem hc
    have hpos := List.length_pos_of_mem hc
    refine ⟨(w.heaps h).withThreads ((w.heaps h).threads.erase c), fuel,
      ⟨rfl, rfl, rfl, fun d hd => ?_, ?_, fun hu => (by cases hu), fun _ => rfl⟩, hrel⟩
    · -- the thread that ends is not the one whose handle is kept
      obtain ⟨hmem, hcount⟩ := hh d hd
      have hne : d ≠ c := by
        rintro rfl
        exact (isStopped_iff hh d).1 hstop hd
      exact ⟨(List.mem_erase_of_ne hne).2 hmem, hcount⟩
    · show (w.heaps h).user + ((w.heaps h).threads.erase c).length + 1 = (w.heaps h).strong
      unfold Shared.strong
      omega
  | _ => cases hop

theorem Base.given {op : Op} (hb : Base w) {x : Shared} (hg : Given w op h x) : Objects (w.set h x) ∧
    ((w.set h x).heaps h).life = .live := by
  refine ⟨hb.objects.set (by rw [hg.heap]) hg.life, ?_⟩
  rw [set_self, hg.life]
  exact (hb.owners h).live.2 (by have := hg.strong; omega)

theorem Base.releases {op : Op} (hb : Base w) (hst : Step w op w') (hop : op.releases = some h) : Base w' := by
  obtain ⟨x, fuel, hg, hrel⟩ := releases_cases hb hst hop
  obtain ⟨ho, hlive⟩ := hb.given hg
  refine Base.release ho (fun g hne => ?_) hlive ?_ hrel
  · rw [set_ne x hne]; exact hb.owners g
  · rw [set_self]; exact hg.handle

theorem base_step {op : Op} (hb : Base w) (hst : Step w op w') : Base w' := by
  have howned := hb.owners
  cases hop : op.releases with
  | some h => exact hb.releases hst hop
  | none =>
    cases hst with
    | create h o hun =>
      have hsame := startBackground_same (Shared.new o)
      refine ⟨hb.objects.create hun (by rw [hsame.1]; rfl), fun g => ?_⟩
      by_cases hg : g = h
      · rw [hg, set_self]; exact (owned_new o).startBackground rfl
      · rw [set_ne _ hg]; exact howned g
    | cloneArc h hu =>
      refine hb.set (.of_live (hb.live_of_user hu) ?_ (howned h).handle) rfl rfl
      simp only [Shared.strong, Shared.user, Shared.withArcs]
      omega
    | withHeap t h ha _ =>
      have hlive := hb.live_of_user (h := h) (by unfold Shared.user; omega)
      refine hb.set (.of_live hlive ?_ (howned h).handle) rfl rfl
      simp only [Shared.strong, Shared.user, Shared.withArcs, Shared.withCtxs, List.length_cons]
      omega
    | allocate h a d hu ha =>
      refine ⟨hb.objects.allocate d (hb.live_of_user hu) ha, fun g => ?_⟩
      by_cases hg : g = h
      · rw [hg, show (w.allocate h a d).heaps h = _ from put_self w h _]
        exact ⟨(howned h).live, (howned h).handle⟩
      · rw [show (w.allocate h a d).heaps g = _ from put_ne _ hg]
        exact howned g
    | cloneRoot a _ => exact ⟨hb.objects.relabel rfl rfl rfl fun _ => ⟨rfl, rfl⟩, howned⟩
    | derefRoot a _ => exact ⟨hb.objects.relabel rfl rfl rfl fun _ => ⟨rfl, rfl⟩, howned⟩
    | dropRoot a _ => exact ⟨hb.objects.relabel rfl rfl rfl fun _ => ⟨rfl, rfl⟩, howned⟩
    | forceCollect h _ hu hc => exact (hb.forceCollect (hb.live_of_user hu) hc).1
    | startBackground h hu =>
      have hsame := startBackground_same (w.heaps h)
      exact hb.set ((howned h).startBackground (hb.live_of_user hu)) (by rw [hsame.1]) hsame.2.1
    | stopBackground h _ => exact hb.set ⟨(howned h).live, fun c hc => by cases hc⟩ rfl rfl
    | bgStart h _ ht _ hst hr => exact (hb.bgStart (hb.live_of_threads ht) hst hr).1
    | bgMark h _ _ => exact (hb.bgMark _).1
    | bgSweep h _ ht _ hs => exact (hb.sweep (hb.live_of_threads ht) (.refl _) rfl hs).1
    | bgAbort h _ _ => exact hb.bgAbort
    | _ => cases hop

end

theorem base_init : Base init := by
  refine ⟨⟨fun h hl => ?_, fun a ha => ?_⟩, fun h => ⟨⟨fun hl => ?_, fun hs => ?_⟩, fun c hc => ?_⟩⟩
  · cases hl
  · cases ha
  · cases hl
  · cases hs
  · cases hc

end Abfall.Handles
