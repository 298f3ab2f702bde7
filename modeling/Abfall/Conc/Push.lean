import Abfall.Sweep
import Abfall.Transition
/-!
# Allocations against a running sweep: the atomic steps on the object list

| here | there |
| --- | --- |
| `AllocPc` | the push loop of `Heap::allocate` (`heap.rs:287-311`): box made, head loaded, `next` stored |
| `SweepPc` | the loop of `do_sweep` (`heap.rs:525-555`): `current`, `next` and `prev_next` are its locals |
| `Step`    | one load, store, compare-exchange or call of a destructor, by any allocator or by the sweep |

Allocations that a destructor makes are steps of some allocator while the sweep stands at `drop`.

The sweep unlinks with a plain store through `prev_next`, and `prev_next` is `&self.head` until the
first survivor. If an allocator has pushed since `head` was loaded, that store takes the new objects
off the list with it. `list_kept_iff` says that this is the only way an object is lost.

`Linked` is what the list keeps either way. Its lemmas are one for each step; the traversals and the byte
counter rest on them too.
-/
namespace Abfall.Push
open Chain Transition

abbrev ThreadId := Nat

inductive AllocPc
  | idle
  | boxed (n : Addr)
  | loaded (n : Addr) (h : Option Addr)
  | stored (n : Addr) (h : Option Addr)
deriving DecidableEq, Repr

/-- The box an allocator has made and not pushed yet. -/
def AllocPc.node : AllocPc → Option Addr
  | .idle => none
  | .boxed n => some n
  | .loaded n _ => some n
  | .stored n _ => some n

inductive SweepPc
  | start
  /-- At the `while`, with `current` and `prev_next`. -/
  | loop (current : Option Addr) (prev : PrevNext)
  | loaded (a : Addr) (nx : Option Addr) (prev : PrevNext)
  | unlink (a : Addr) (nx : Option Addr) (prev : PrevNext)
  | drop (a : Addr) (nx : Option Addr) (prev : PrevNext)
  | reset (a : Addr) (nx : Option Addr)
  | done
deriving DecidableEq, Repr

/-- The node that is unlinked and about to be dropped. -/
def SweepPc.dropping : SweepPc → Option Addr
  | .drop a _ _ => some a
  | _ => none

structure Sys where
  mem : Mem
  head : Option Addr
  /-- Pushed (the compare-exchange succeeded), and not dropped by the sweep. -/
  live : Addr → Bool
  alloc : ThreadId → AllocPc
  sweep : SweepPc

inductive Label
  | box (t : ThreadId) (n : Addr) (d : Data)
  | load (t : ThreadId)
  | store (t : ThreadId)
  | cas (t : ThreadId)
  | sweepHead
  | sweepNext
  | sweepCheck
  | sweepUnlink
  | sweepDrop
  | sweepReset
  | sweepEnd

namespace Sys

def setAlloc (s : Sys) (t : ThreadId) (p : AllocPc) : Sys := { s with alloc := Function.update s.alloc t p }

def setSweep (s : Sys) (p : SweepPc) : Sys := { s with sweep := p }

/-- `(*prev_next).store(next)`. -/
def storePrev (s : Sys) (prev : PrevNext) (nx : Option Addr) : Sys :=
  match prev with
  | .head => { s with head := nx }
  | .nextOf b => { s with mem := s.mem.setNext b nx }

/-- The compare-exchange of `head` from `h` to the new node succeeded. -/
def pushed (s : Sys) (n : Addr) : Sys := { s with head := some n, live := Function.update s.live n true }

/-- The vtable's `drop`. -/
def dropped (s : Sys) (a : Addr) : Sys := { s with mem := s.mem.drop a, live := Function.update s.live a false }

end Sys

inductive Step : Sys → Label → Sys → Prop
  | box {s : Sys} (t : ThreadId) (n : Addr) (d : Data) : s.alloc t = .idle → s.mem.alive n = false →
      Step s (.box t n d) ({ s with mem := s.mem.newBox n d }.setAlloc t (.boxed n))
  | load {s : Sys} (t : ThreadId) {n : Addr} : s.alloc t = .boxed n →
      Step s (.load t) (s.setAlloc t (.loaded n s.head))
  | store {s : Sys} (t : ThreadId) {n : Addr} {h : Option Addr} : s.alloc t = .loaded n h →
      Step s (.store t) ({ s with mem := s.mem.setNext n h }.setAlloc t (.stored n h))
  | casOk {s : Sys} (t : ThreadId) {n : Addr} {h : Option Addr} : s.alloc t = .stored n h → s.head = h →
      Step s (.cas t) ((s.pushed n).setAlloc t .idle)
  | casFail {s : Sys} (t : ThreadId) {n : Addr} {h : Option Addr} : s.alloc t = .stored n h → s.head ≠ h →
      Step s (.cas t) (s.setAlloc t (.boxed n))
  | sweepHead {s : Sys} : s.sweep = .start → Step s .sweepHead (s.setSweep (.loop s.head .head))
  | sweepNext {s : Sys} {a : Addr} {prev : PrevNext} : s.sweep = .loop (some a) prev →
      Step s .sweepNext (s.setSweep (.loaded a (s.mem.next a) prev))
  | sweepCheck {s : Sys} {a : Addr} {nx : Option Addr} {prev : PrevNext} : s.sweep = .loaded a nx prev →
      Step s .sweepCheck (s.setSweep (if s.mem.isWhite a then .unlink a nx prev else .reset a nx))
  | sweepUnlink {s : Sys} {a : Addr} {nx : Option Addr} {prev : PrevNext} : s.sweep = .unlink a nx prev →
      Step s .sweepUnlink ((s.storePrev prev nx).setSweep (.drop a nx prev))
  | sweepDrop {s : Sys} {a : Addr} {nx : Option Addr} {prev : PrevNext} : s.sweep = .drop a nx prev →
      Step s .sweepDrop ((s.dropped a).setSweep (.loop nx prev))
  | sweepReset {s : Sys} {a : Addr} {nx : Option Addr} : s.sweep = .reset a nx →
      Step s .sweepReset ({ s with mem := s.mem.setColor a .white }.setSweep (.loop nx (.nextOf a)))
  | sweepEnd {s : Sys} {prev : PrevNext} : s.sweep = .loop none prev → Step s .sweepEnd (s.setSweep .done)

/-- Any list of objects with any colors and root counts; no allocation is under way and the sweep has
not loaded `head` yet. -/
structure Start (s : Sys) : Prop where
  list : ∃ l, Seg s.mem.next s.head l none ∧ ∀ a, s.live a = true ↔ a ∈ l
  boxed : ∀ a, s.live a = true → s.mem.alive a = true
  alloc : ∀ t, s.alloc t = .idle
  sweep : s.sweep = .start

/-- Every object that was pushed and is not dropped is on the list from `head`, exactly once, except
the one the sweep is about to drop. -/
def ListKept (s : Sys) : Prop :=
  ∃ l, Seg s.mem.next s.head l none ∧ ∀ a, s.live a = true → s.sweep.dropping = some a ∨ l.count a = 1

/-- A store to `head` finds the node it unlinks still at the front. -/
def HeadStill (s : Sys) : Label → Prop
  | .sweepUnlink => ∀ a nx, s.sweep = .unlink a nx .head → s.head = some a
  | _ => True

/-! ## The invariant -/

def EndsAt (front : List Addr) : PrevNext → Prop
  | .head => True
  | .nextOf b => ∃ f, front = f ++ [b]

/-- The list still ahead of the sweep starts at `cur`, and `prev` is the field just before it, unless
it is `head`: what was pushed since then lies in between. -/
def Ahead (m : Mem) (l : List Addr) (cur : Option Addr) (prev : PrevNext) : Prop :=
  ∃ front post, l = front ++ post ∧ Seg m.next cur post none ∧ EndsAt front prev

/-- Where the sweep stands in the list. -/
def Pos (m : Mem) (l : List Addr) : SweepPc → Prop
  | .start => True
  | .loop cur prev => Ahead m l cur prev
  | .loaded a nx prev => Ahead m l (some a) prev ∧ m.next a = nx
  | .unlink a nx prev => Ahead m l (some a) prev ∧ m.next a = nx
  | .drop a nx prev => Ahead m l nx prev ∧ a ∉ l
  | .reset a nx => Ahead m l (some a) .head ∧ m.next a = nx
  | .done => True

/-- The list from `head`, with the boxes of running allocations beside it. It need not hold every object. -/
structure Linked (m : Mem) (head : Option Addr) (al : ThreadId → AllocPc) (pc : SweepPc) (l : List Addr) : Prop where
  seg : Seg m.next head l none
  alive : ∀ a ∈ l, m.alive a = true
  /-- Each allocator has a box of its own that is not on the list yet. -/
  own : ∀ t n, (al t).node = some n → m.alive n = true ∧ n ∉ l
  apart : ∀ t t' n, (al t).node = some n → (al t').node = some n → t = t'
  stored : ∀ t n h, al t = .stored n h → m.next n = h
  pos : Pos m l pc
  /-- What the sweep is about to drop is nobody's box. -/
  dropping : ∀ a, pc.dropping = some a → m.alive a = true ∧ ∀ t, (al t).node ≠ some a

/-- The list holds every object that was pushed and not dropped. -/
structure ListInv (s : Sys) (l : List Addr) : Prop where
  linked : Linked s.mem s.head s.alloc s.sweep l
  live : ∀ a, s.live a = true ↔ a ∈ l ∨ s.sweep.dropping = some a

def Inv (s : Sys) : Prop := ∃ l, ListInv s l

theorem Start.inv {s : Sys} (h : Start s) : Inv s := by
  obtain ⟨l, hl, hlive⟩ := h.list
  have hnode : ∀ t, (s.alloc t).node = none := fun t => by rw [h.alloc]; rfl
  have hdrop : s.sweep.dropping = none := by rw [h.sweep]; rfl
  refine ⟨l, ⟨hl, fun a ha => h.boxed a ((hlive a).2 ha), fun t n ht => ?_, fun t t' n ht => ?_, fun t n g ht => ?_,
    by rw [h.sweep]; trivial, fun a ha => ?_⟩, fun a => ?_⟩
  · rw [hnode] at ht; cases ht
  · rw [hnode] at ht; cases ht
  · rw [h.alloc] at ht; cases ht
  · rw [hdrop] at ha; cases ha
  · rw [hlive, hdrop]
    simp

theorem Inv.kept {s : Sys} (h : Inv s) : ListKept s := by
  obtain ⟨l, hl⟩ := h
  refine ⟨l, hl.linked.seg, fun a ha => ?_⟩
  rcases (hl.live a).1 ha with ha | ha
  · exact .inr (List.count_eq_one_of_mem (seg_nodup hl.linked.seg) ha)
  · exact .inl ha

/-! ### Positions under changes elsewhere -/

theorem Ahead.congr {m m' : Mem} {l : List Addr} {cur : Option Addr} {prev : PrevNext} (h : Ahead m l cur prev)
    (he : ∀ x ∈ l, m'.next x = m.next x) : Ahead m' l cur prev := by
  obtain ⟨front, post, rfl, hs, hend⟩ := h
  exact ⟨front, post, rfl, seg_congr (fun x hx => he x (by simp [hx])) hs, hend⟩

theorem Ahead.mem {m : Mem} {l : List Addr} {a : Addr} {prev : PrevNext} (h : Ahead m l (some a) prev) : a ∈ l := by
  obtain ⟨front, post, rfl, hs, _⟩ := h
  obtain ⟨r, rfl, _⟩ := seg_head hs
  simp

theorem Ahead.push {m : Mem} {l : List Addr} {cur : Option Addr} {prev : PrevNext} (n : Addr)
    (h : Ahead m l cur prev) : Ahead m (n :: l) cur prev := by
  obtain ⟨front, post, rfl, hs, hend⟩ := h
  refine ⟨n :: front, post, rfl, hs, ?_⟩
  cases prev with
  | head => trivial
  | nextOf b =>
    obtain ⟨f, rfl⟩ := hend
    exact ⟨n :: f, rfl⟩

theorem Ahead.weaken {m : Mem} {l : List Addr} {cur : Option Addr} {prev : PrevNext} (h : Ahead m l cur prev) :
    Ahead m l cur .head := by
  obtain ⟨front, post, e, hs, _⟩ := h
  exact ⟨front, post, e, hs, trivial⟩

theorem Pos.congr {m m' : Mem} {l : List Addr} {pc : SweepPc} (h : Pos m l pc)
    (he : ∀ x ∈ l, m'.next x = m.next x) : Pos m' l pc := by
  cases pc with
  | start => trivial
  | loop cur prev => exact Ahead.congr h he
  | loaded a nx prev => exact ⟨h.1.congr he, (he a h.1.mem).trans h.2⟩
  | unlink a nx prev => exact ⟨h.1.congr he, (he a h.1.mem).trans h.2⟩
  | drop a nx prev => exact ⟨h.1.congr he, h.2⟩
  | reset a nx => exact ⟨h.1.congr he, (he a h.1.mem).trans h.2⟩
  | done => trivial

theorem Pos.push {m : Mem} {l : List Addr} {pc : SweepPc} {n : Addr} (h : Pos m l pc) (hn : pc.dropping ≠ some n) :
    Pos m (n :: l) pc := by
  cases pc with
  | start => trivial
  | loop cur prev => exact Ahead.push n h
  | loaded a nx prev => exact ⟨h.1.push n, h.2⟩
  | unlink a nx prev => exact ⟨h.1.push n, h.2⟩
  | drop a nx prev =>
    refine ⟨h.1.push n, fun ha => ?_⟩
    rcases List.mem_cons.1 ha with rfl | ha
    · exact hn rfl
    · exact h.2 ha
  | reset a nx => exact ⟨h.1.push n, h.2⟩
  | done => trivial

/-- Moving past a node: the rest of the list starts at its `next`. -/
theorem Ahead.advance {m : Mem} {l : List Addr} {a : Addr} {prev : PrevNext} (h : Ahead m l (some a) prev) :
    ∃ front post, l = front ++ a :: post ∧ Seg m.next (m.next a) post none ∧ EndsAt front prev := by
  obtain ⟨front, post, rfl, hs, hend⟩ := h
  obtain ⟨r, rfl, hr⟩ := seg_head hs
  exact ⟨front, r, rfl, hr, hend⟩

/-! ### The list under the steps -/

namespace Linked

variable {m m' : Mem} {head : Option Addr} {al : ThreadId → AllocPc} {pc : SweepPc} {l : List Addr} {t : ThreadId}

/-- A change to headers that keeps `next` on the list and on the boxes still to be pushed. -/
theorem frame (h : Linked m head al pc l) (hl : ∀ x ∈ l, m'.next x = m.next x)
    (hal : ∀ x, m.alive x = true → m'.alive x = true)
    (hst : ∀ t n g, al t = .stored n g → m'.next n = m.next n) : Linked m' head al pc l where
  seg := seg_congr hl h.seg
  alive := fun a ha => hal a (h.alive a ha)
  own := fun t n hn => ⟨hal n (h.own t n hn).1, (h.own t n hn).2⟩
  apart := h.apart
  stored := fun t n g hg => (hst t n g hg).trans (h.stored t n g hg)
  pos := h.pos.congr hl
  dropping := fun a ha => ⟨hal a (h.dropping a ha).1, (h.dropping a ha).2⟩

/-- An allocator moves on with the box it has, or without one. -/
theorem keep (h : Linked m head al pc l) {p : AllocPc} (hp : ∀ n, p.node = some n → (al t).node = some n)
    (hst : ∀ n g, p = .stored n g → m.next n = g) : Linked m head (Function.update al t p) pc l := by
  have hnode : ∀ t' n, (Function.update al t p t').node = some n → (al t').node = some n := by
    intro t' n hn
    rcases update_cases AllocPc.node hn with ⟨rfl, hn'⟩ | ⟨_, hn'⟩
    · exact hp n hn'
    · exact hn'
  refine ⟨h.seg, h.alive, fun t' n hn => h.own t' n (hnode t' n hn),
    fun t₁ t₂ n h₁ h₂ => h.apart t₁ t₂ n (hnode t₁ n h₁) (hnode t₂ n h₂), fun t' n g hg => ?_, h.pos,
    fun a ha => ⟨(h.dropping a ha).1, fun t' hn => (h.dropping a ha).2 t' (hnode t' a hn)⟩⟩
  rcases update_cases id hg with ⟨_, hg⟩ | ⟨_, hg⟩
  · exact hst n g hg
  · exact h.stored t' n g hg

theorem box (h : Linked m head al pc l) {n : Addr} (d : Data) (hn : m.alive n = false) :
    Linked (m.newBox n d) head (Function.update al t (.boxed n)) pc l := by
  have hne : ∀ x, m.alive x = true → x ≠ n := fun x => Mem.ne_of_alive hn
  have hnext : ∀ x, x ≠ n → (m.newBox n d).next x = m.next x := fun x hx => Function.update_of_ne hx _ _
  have hnl : n ∉ l := fun hm => hne n (h.alive n hm) rfl
  have hfree : ∀ t', (al t').node ≠ some n := fun t' ht => hne n (h.own t' n ht).1 rfl
  have hframe : Linked (m.newBox n d) head al pc l := by
    refine h.frame (fun x hx => hnext x (hne x (h.alive x hx))) (fun x hx => ?_) fun t' n' g hg => hnext n' ?_
    · simpa [Mem.newBox, hne x hx] using hx
    · rintro rfl
      exact hfree t' (by rw [hg]; rfl)
  -- the new box is this allocator's, the others keep theirs
  refine ⟨hframe.seg, hframe.alive, fun t' n' hn' => ?_, fun t₁ t₂ n' h₁ h₂ => ?_, fun t' n' g hg => ?_, hframe.pos,
    fun a ha => ⟨(hframe.dropping a ha).1, fun t' hn' => ?_⟩⟩
  · rcases update_cases AllocPc.node hn' with ⟨_, hn'⟩ | ⟨_, hn'⟩
    · cases hn'
      exact ⟨by simp [Mem.newBox], hnl⟩
    · exact hframe.own t' n' hn'
  · rcases update_cases AllocPc.node h₁ with ⟨e₁, h₁⟩ | ⟨_, h₁⟩ <;>
      rcases update_cases AllocPc.node h₂ with ⟨e₂, h₂⟩ | ⟨_, h₂⟩
    · rw [e₁, e₂]
    · cases h₁
      exact absurd h₂ (hfree t₂)
    · cases h₂
      exact absurd h₁ (hfree t₁)
    · exact h.apart t₁ t₂ n' h₁ h₂
  · rcases update_cases id hg with ⟨_, hg⟩ | ⟨_, hg⟩
    · cases hg
    · exact hframe.stored t' n' g hg
  · rcases update_cases AllocPc.node hn' with ⟨_, hn'⟩ | ⟨_, hn'⟩
    · cases hn'
      exact hne n (h.dropping n ha).1 rfl
    · exact (h.dropping a ha).2 t' hn'

theorem store (h : Linked m head al pc l) {n : Addr} {g : Option Addr} (ht : al t = .loaded n g) :
    Linked (m.setNext n g) head (Function.update al t (.stored n g)) pc l := by
  have hnode : (al t).node = some n := by rw [ht]; rfl
  have hnext : ∀ x, x ≠ n → (m.setNext n g).next x = m.next x := fun x hx => Function.update_of_ne hx _ _
  have hframe : Linked (m.setNext n g) head al pc l := by
    refine h.frame (fun x hx => hnext x ?_) (fun _ hx => hx) fun t' n' g' hg => hnext n' ?_
    · rintro rfl
      exact (h.own t x hnode).2 hx
    · -- the other allocators' boxes are not this one
      rintro rfl
      obtain rfl := h.apart t' t n' (by rw [hg]; rfl) hnode
      rw [ht] at hg
      cases hg
  refine hframe.keep (fun n' hn' => hnode.trans hn') fun n' g' hg => ?_
  cases hg
  exact Function.update_self _ _ _

theorem casOk (h : Linked m head al pc l) {n : Addr} {g : Option Addr} (ht : al t = .stored n g) (hg : head = g) :
    Linked m (some n) (Function.update al t .idle) pc (n :: l) := by
  have hnode : (al t).node = some n := by rw [ht]; rfl
  have hnext : m.next n = head := by rw [hg]; exact h.stored t n g ht
  have hset : Linked m head (Function.update al t .idle) pc l :=
    h.keep (fun _ hn => by cases hn) fun _ _ hg' => by cases hg'
  refine ⟨⟨rfl, by rw [hnext]; exact h.seg⟩, fun a ha => ?_, fun t' n' hn' => ⟨(hset.own t' n' hn').1, ?_⟩, hset.apart,
    hset.stored, h.pos.push fun hd => (h.dropping n hd).2 t hnode, hset.dropping⟩
  · rcases List.mem_cons.1 ha with rfl | ha
    · exact (h.own t a hnode).1
    · exact h.alive a ha
  · rw [List.mem_cons, not_or]
    refine ⟨?_, (hset.own t' n' hn').2⟩
    -- the box is this allocator's no longer
    rintro rfl
    rcases update_cases AllocPc.node hn' with ⟨_, hn'⟩ | ⟨htt, hn'⟩
    · cases hn'
    · exact htt (h.apart t' t n' hn' hnode)

/-- The sweep reads, or ends: only its position changes. -/
theorem move (h : Linked m head al pc l) {pc' : SweepPc} (hd : pc'.dropping = none) (hp : Pos m l pc') :
    Linked m head al pc' l :=
  ⟨h.seg, h.alive, h.own, h.apart, h.stored, hp, fun a ha => by rw [hd] at ha; cases ha⟩

/-- The sweep moves on from a survivor. -/
theorem reset {a : Addr} {nx : Option Addr} (h : Linked m head al (.reset a nx) l) :
    Linked m head al (.loop nx (.nextOf a)) l := by
  obtain ⟨hah, rfl⟩ := h.pos
  obtain ⟨front, post, rfl, hseg, _⟩ := hah.advance
  exact h.move rfl ⟨front ++ [a], post, by simp, hseg, front, rfl⟩

/-- The unlinking store through `head` takes what was pushed since `head` was loaded off the list. -/
theorem unlink_head {a : Addr} {nx : Option Addr} (h : Linked m head al (.unlink a nx .head) l) :
    ∃ front post, l = front ++ a :: post ∧ Linked m nx al (.drop a nx .head) post := by
  obtain ⟨hah, rfl⟩ := h.pos
  obtain ⟨front, post, rfl, hseg, _⟩ := hah.advance
  have hna : a ∉ front ++ post := (seg_middle h.seg).1
  refine ⟨front, post, rfl, hseg, fun x hx => h.alive x (by simp [hx]), fun t n hn => ⟨(h.own t n hn).1, fun hm => ?_⟩,
    h.apart, h.stored, ⟨⟨[], post, rfl, hseg, trivial⟩, fun hm => hna (by simp [hm])⟩, fun x hx => ?_⟩
  · exact (h.own t n hn).2 (by simp [hm])
  · cases hx
    exact ⟨h.alive a (by simp), fun t hn => (h.own t a hn).2 (by simp)⟩

/-- Through the survivor before it, the store takes the node alone. -/
theorem unlink_next {a b : Addr} {nx : Option Addr} (h : Linked m head al (.unlink a nx (.nextOf b)) l) :
    ∃ front post, l = front ++ a :: post ∧ Linked (m.setNext b nx) head al (.drop a nx (.nextOf b)) (front ++ post) := by
  obtain ⟨hah, rfl⟩ := h.pos
  obtain ⟨front, post, rfl, hseg, f, rfl⟩ := hah.advance
  have hna : a ∉ f ++ [b] ++ post := (seg_middle h.seg).1
  obtain ⟨hunlinked, hrest⟩ := seg_unlink h.seg
  have hsub : ∀ x ∈ f ++ [b] ++ post, x ∈ f ++ [b] ++ a :: post := by
    intro x hx
    rcases List.mem_append.1 hx with hx | hx
    · exact List.mem_append.2 (.inl hx)
    · exact List.mem_append.2 (.inr (List.mem_cons_of_mem a hx))
  refine ⟨f ++ [b], post, rfl, hunlinked, fun x hx => h.alive x (hsub x hx),
    fun t n hn => ⟨(h.own t n hn).1, fun hm => (h.own t n hn).2 (hsub n hm)⟩, h.apart, fun t n g hg => ?_,
    ⟨⟨f ++ [b], post, rfl, hrest, f, rfl⟩, hna⟩, fun x hx => ?_⟩
  · have hne : n ≠ b := by
      rintro rfl
      exact (h.own t n (by rw [hg]; rfl)).2 (by simp)
    exact (Function.update_of_ne hne _ _).trans (h.stored t n g hg)
  · cases hx
    exact ⟨h.alive a (by simp), fun t hn => (h.own t a hn).2 (by simp)⟩

theorem drop {a : Addr} {nx : Option Addr} {prev : PrevNext} (h : Linked m head al (.drop a nx prev) l) :
    Linked (m.drop a) head al (.loop nx prev) l := by
  obtain ⟨hah, hal⟩ := h.pos
  have halive : ∀ x, x ≠ a → m.alive x = true → (m.drop a).alive x = true :=
    fun x hxa hx => (Function.update_of_ne hxa _ _).trans hx
  refine ⟨h.seg, fun x hx => halive x ?_ (h.alive x hx), fun t n hn => ⟨halive n ?_ (h.own t n hn).1, (h.own t n hn).2⟩,
    h.apart, h.stored, hah, fun x hx => by cases hx⟩
  · rintro rfl
    exact hal hx
  · rintro rfl
    exact (h.dropping n rfl).2 t hn

end Linked

/-! ### Every object pushed and not dropped -/

/-- A step that moves neither the objects nor what is dropped. -/
theorem ListInv.of_linked {s s' : Sys} {l : List Addr} (h : ListInv s l)
    (hl : Linked s'.mem s'.head s'.alloc s'.sweep l) (hlive : s'.live = s.live)
    (hd : s'.sweep.dropping = s.sweep.dropping) : Inv s' :=
  ⟨l, hl, fun a => by rw [hlive, hd]; exact h.live a⟩

theorem inv_casOk {s : Sys} {l : List Addr} (h : ListInv s l) {t : ThreadId} {n : Addr} {g : Option Addr}
    (ht : s.alloc t = .stored n g) (hg : s.head = g) : Inv ((s.pushed n).setAlloc t .idle) := by
  refine ⟨n :: l, h.linked.casOk ht hg, fun a => ?_⟩
  show Function.update s.live n true a = true ↔ a ∈ n :: l ∨ s.sweep.dropping = some a
  by_cases ha : a = n
  · simp [ha]
  · rw [Function.update_of_ne ha, h.live, List.mem_cons]
    simp [ha]

/-- The unlinking store. Through `head` it needs the node to be still at the front. -/
theorem inv_unlink {s : Sys} {l : List Addr} (h : ListInv s l) {a : Addr} {nx : Option Addr} {prev : PrevNext}
    (hpc : s.sweep = .unlink a nx prev) (hok : prev = .head → s.head = some a) :
    Inv ((s.storePrev prev nx).setSweep (.drop a nx prev)) := by
  obtain ⟨hl, hlive⟩ := h
  rw [hpc] at hl hlive
  have hmem : ∀ front post, l = front ++ a :: post → ∀ x, s.live x = true ↔ x ∈ front ++ post ∨ some a = some x := by
    rintro front post rfl x
    rw [hlive]
    simp only [List.mem_append, List.mem_cons, SweepPc.dropping, reduceCtorEq, or_false, Option.some.injEq]
    tauto
  cases prev with
  | head =>
    obtain ⟨front, post, e, hdrop⟩ := hl.unlink_head
    -- nothing was pushed in front of the node
    obtain rfl : front = [] := by
      cases front with
      | nil => rfl
      | cons x front =>
        have hseg := hl.seg
        rw [e] at hseg
        have ea : some x = some a := hseg.1.symm.trans (hok rfl)
        cases ea
        exact absurd (by simp) (seg_middle hseg).1
    exact ⟨post, hdrop, hmem [] post e⟩
  | nextOf b =>
    obtain ⟨front, post, e, hdrop⟩ := hl.unlink_next
    exact ⟨front ++ post, hdrop, hmem front post e⟩

theorem inv_drop {s : Sys} {l : List Addr} (h : ListInv s l) {a : Addr} {nx : Option Addr} {prev : PrevNext}
    (hpc : s.sweep = .drop a nx prev) : Inv ((s.dropped a).setSweep (.loop nx prev)) := by
  obtain ⟨hl, hlive⟩ := h
  rw [hpc] at hl hlive
  refine ⟨l, hl.drop, fun x => ?_⟩
  show Function.update s.live a false x = true ↔ x ∈ l ∨ none = some x
  by_cases hxa : x = a
  · subst hxa
    simp [hl.pos.2]
  · rw [Function.update_of_ne hxa, hlive]
    simp [SweepPc.dropping, Ne.symm hxa]

theorem step_inv {s s' : Sys} {i : Label} (hi : Inv s) (hst : Step s i s') (hok : HeadStill s i) : Inv s' := by
  obtain ⟨l, h⟩ := hi
  have hl := h.linked
  cases hst with
  | box t n d _ hn => exact h.of_linked (hl.box d hn) rfl rfl
  | load t ht =>
    exact h.of_linked (hl.keep (fun _ hn => by rw [ht]; exact hn) fun _ _ hg => by cases hg) rfl rfl
  | store t ht => exact h.of_linked (hl.store ht) rfl rfl
  | casOk t ht hg => exact inv_casOk h ht hg
  | casFail t ht _ =>
    exact h.of_linked (hl.keep (fun _ hn => by rw [ht]; exact hn) fun _ _ hg => by cases hg) rfl rfl
  | sweepHead hpc => exact h.of_linked (hl.move rfl ⟨[], l, rfl, hl.seg, trivial⟩) rfl (by rw [hpc]; rfl)
  | sweepNext hpc =>
    have hpos := hl.pos
    rw [hpc] at hpos
    exact h.of_linked (hl.move rfl ⟨hpos, rfl⟩) rfl (by rw [hpc]; rfl)
  | sweepCheck hpc =>
    have hpos := hl.pos
    rw [hpc] at hpos
    split
    · exact h.of_linked (hl.move rfl hpos) rfl (by rw [hpc]; rfl)
    · exact h.of_linked (hl.move rfl ⟨hpos.1.weaken, hpos.2⟩) rfl (by rw [hpc]; rfl)
  | sweepUnlink hpc => exact inv_unlink h hpc fun e => hok _ _ (by rw [hpc, e])
  | sweepDrop hpc => exact inv_drop h hpc
  | @sweepReset a nx hpc =>
    rw [hpc] at hl
    exact h.of_linked (hl.reset.frame (fun _ _ => rfl) (fun _ hx => hx) fun _ _ _ _ => rfl) rfl (by rw [hpc]; rfl)
  | sweepEnd hpc => exact h.of_linked (hl.move rfl trivial) rfl (by rw [hpc]; rfl)

/-- A store to `head` that finds another node at the front loses the nodes before the one it unlinks. -/
theorem not_kept_of_moved {s : Sys} {l : List Addr} (h : ListInv s l) {a : Addr} {nx : Option Addr}
    (hpc : s.sweep = .unlink a nx .head) (hk : ListKept ((s.storePrev .head nx).setSweep (.drop a nx .head))) :
    s.head = some a := by
  have hl := h.linked
  rw [hpc] at hl
  obtain ⟨front, post, rfl, hdrop⟩ := hl.unlink_head
  cases front with
  | nil => exact hl.seg.1
  | cons x front =>
    exfalso
    obtain ⟨l', hl', hall⟩ := hk
    obtain rfl : l' = post := seg_unique hl' hdrop.seg
    have hx : s.live x = true := (h.live x).2 (.inl (by simp))
    have hnd := seg_nodup hl.seg
    simp only [List.cons_append, List.nodup_cons, List.mem_append, List.mem_cons, not_or] at hnd
    rcases hall x hx with he | hc
    · exact hnd.1.2.1 (Option.some.inj he).symm
    · have : 0 < l'.count x := by omega
      exact hnd.1.2.2 (List.count_pos_iff.1 this)

/-- **No allocation is lost exactly in the runs where every store to `head` finds the node it unlinks
still at the front.** -/
theorem list_kept_iff (s t : Sys) (tr : List (Sys × Label)) (hs : Start s) (hrun : Run Step s tr t) :
    ((∀ e ∈ tr, ListKept e.1) ∧ ListKept t) ↔ ∀ e ∈ tr, HeadStill e.1 e.2 := by
  refine run_iff_of_inv hrun hs.inv (fun _ _ _ hi hst hok => step_inv hi hst hok) (fun _ => Inv.kept) ?_
  intro u i u' hi hst hk
  obtain ⟨l, h⟩ := hi
  cases hst with
  | sweepUnlink hpc =>
    intro a nx hpc'
    rw [hpc] at hpc'
    cases hpc'
    exact not_kept_of_moved h hpc hk
  | _ => trivial

/-- One White object without a root, `1`, at the head of the list. -/
def one : Sys where
  mem := ((Mem.empty.newBox 1 (.leaf 8)).setRootCount 1 0)
  head := some 1
  live := fun a => a == 1
  alloc := fun _ => .idle
  sweep := .start

theorem start_one : Start one where
  list := ⟨[1], ⟨rfl, rfl⟩, fun a => by simp [one]⟩
  boxed := by
    intro a ha
    obtain rfl : a = 1 := by simpa [one] using ha
    rfl
  alloc := fun _ => rfl
  sweep := rfl

/-- The allocator pushes `2` before the sweep loads `head`; the sweep then unlinks `1` through `2`. -/
theorem list_kept_iff_early : ∃ tr t, Run Step one tr t ∧ t.live 2 = true ∧ t.live 1 = false ∧ ListKept t := by
  have h₁ := (Run.nil one).snoc (Step.box 0 2 (.leaf 8) rfl rfl)
  have h₂ := h₁.snoc (Step.load 0 rfl)
  have h₃ := h₂.snoc (Step.store 0 rfl)
  have h₄ := h₃.snoc (Step.casOk 0 rfl rfl)
  have h₅ := h₄.snoc (Step.sweepHead rfl)
  have h₆ := h₅.snoc (Step.sweepNext rfl)
  have h₇ := h₆.snoc (Step.sweepCheck rfl)
  have h₈ := h₇.snoc (Step.sweepReset rfl)
  have h₉ := h₈.snoc (Step.sweepNext rfl)
  have h₁₀ := h₉.snoc (Step.sweepCheck rfl)
  have h₁₁ := h₁₀.snoc (Step.sweepUnlink rfl)
  have h₁₂ := h₁₁.snoc (Step.sweepDrop rfl)
  refine ⟨_, _, h₁₂, by decide, by decide, ((list_kept_iff _ _ _ start_one h₁₂).2 ?_).2⟩
  intro e he
  simp only [List.nil_append, List.cons_append, List.mem_cons, List.not_mem_nil, or_false] at he
  rcases he with rfl | rfl | rfl | rfl | rfl | rfl | rfl | rfl | rfl | rfl | rfl | rfl
  all_goals first | trivial | exact fun a nx h => by cases h

/-- The sweep has loaded `head` and `1`'s `next`; an allocator pushes `2`; the sweep stores null to
`head`. The new object is on no list any more. -/
theorem push_lost : ∃ s tr t, Start s ∧ Run Step s tr t ∧ t.live 2 = true ∧ t.head = none ∧ ¬ ListKept t := by
  have h₁ := (Run.nil one).snoc (Step.sweepHead rfl)
  have h₂ := h₁.snoc (Step.sweepNext rfl)
  have h₃ := h₂.snoc (Step.box 0 2 (.leaf 8) rfl rfl)
  have h₄ := h₃.snoc (Step.load 0 rfl)
  have h₅ := h₄.snoc (Step.store 0 rfl)
  have h₆ := h₅.snoc (Step.casOk 0 rfl rfl)
  have h₇ := h₆.snoc (Step.sweepCheck rfl)
  have h₈ := h₇.snoc (Step.sweepUnlink rfl)
  refine ⟨_, _, _, start_one, h₈, by decide, by decide, ?_⟩
  rintro ⟨l, hl, hall⟩
  obtain rfl : l = [] := seg_unique hl rfl
  rcases hall 2 (by decide) with h | h
  · cases h
  · cases h

end Abfall.Push
