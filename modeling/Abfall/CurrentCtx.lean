import Abfall.Contexts
/-!
# The thread-local pointer to the current context

`Abfall.Contexts` gives each thread at most one context. The source has a raw pointer per thread and heap-allocated boxes
behind it; here are both, and that they amount to the former.

| here | there |
| --- | --- |
| `Sys.tls`                  | `CURRENT_CTX` (`gc.rs:15-17`) |
| `Sys.boxes`                | every allocated `Pin<Box<GcContextInner>>` (`gc.rs:54-58`) |
| `Sys.guards`               | the `GcContext` values that a thread owns (`gc.rs:78`); they are `!Send` |
| `setCurrentContext`, `resetCurrentContext`, `withCurrentContext` | the functions of these names (`gc.rs:20-52`) |
| `withHeap`                 | `GcContext::with_heap` (`gc.rs:137-145`) |
| `dropCtx`, `forget`        | `Drop for GcContext` and the drop of its box (`gc.rs:173-178`), `std::mem::forget` |
| `Sys.set`                  | `GcCell::set` (`cell.rs:44-59`) |

`reset_current_context` compares addresses, and the address of a freed box can be given out again; `with_current_context`
dereferences what it finds. `current_ctx_valid` is the comment at `gc.rs:45`: the pointer is valid as long as the `GcContext` is
alive, and a thread whose `GcContext` was forgotten keeps its pointer, to a box that is never freed.
-/
namespace Abfall.CurrentCtx
open Transition Contexts

/-- `*const GcContextInner`. -/
abbrev CtxPtr := Nat

/-- `GcContextInner`, with the thread that made it. -/
structure Inner where
  thread : ThreadId
  heap : HeapId
  localGray : Tracer

structure Sys where
  mem : Mem
  heaps : HeapId → Heap
  heapOf : Addr → Option HeapId
  tls : ThreadId → Option CtxPtr
  boxes : CtxPtr → Option Inner
  guards : ThreadId → List CtxPtr
  /-- A `GcContextInner` was dereferenced that is not allocated. -/
  fault : Bool

namespace Sys

/-- What `Abfall.Contexts` sees. -/
def abs (c : Sys) : World where
  mem := c.mem
  heaps := c.heaps
  heapOf := c.heapOf
  ctx := fun t => (c.tls t).bind fun p => (c.boxes p).map fun b => ⟨b.heap, b.localGray⟩

/-- The heaps and objects of `w`. -/
def withWorld (c : Sys) (w : World) : Sys := { c with mem := w.mem, heaps := w.heaps, heapOf := w.heapOf }

def withTls (c : Sys) (t : ThreadId) (p : Option CtxPtr) : Sys := { c with tls := Function.update c.tls t p }

def withBox (c : Sys) (p : CtxPtr) (b : Option Inner) : Sys := { c with boxes := Function.update c.boxes p b }

def withGuards (c : Sys) (t : ThreadId) (ps : List CtxPtr) : Sys := { c with guards := Function.update c.guards t ps }

/-- `none`: the panic "A GcContext is already set for this thread". -/
def setCurrentContext (c : Sys) (t : ThreadId) (p : CtxPtr) : Option Sys :=
  if c.tls t ≠ none then none else some (c.withTls t (some p))

def resetCurrentContext (c : Sys) (t : ThreadId) (p : CtxPtr) : Sys :=
  if c.tls t = some p then c.withTls t none else c

def withCurrentContext (c : Sys) (t : ThreadId) (f : CtxPtr → Inner → Sys) : Sys × Bool :=
  match c.tls t with
  | none => (c, false)
  | some p =>
    match c.boxes p with
    | none => ({ c with fault := true }, true)
    | some b => (f p b, true)

/-- `p` is the address of the new box. A panic unwinds through `with_heap` and drops the box; the `GcContext` does not
exist yet, so `reset_current_context` is not called. -/
def withHeap (c : Sys) (t : ThreadId) (h : HeapId) (p : CtxPtr) : Except Sys Sys :=
  let c := c.withBox p (some ⟨t, h, []⟩)
  match c.setCurrentContext t p with
  | none => .error (c.withBox p none)
  | some c => .ok (c.withGuards t (p :: c.guards t))

def dropCtx (c : Sys) (t : ThreadId) (p : CtxPtr) : Sys :=
  let c := c.resetCurrentContext t p
  (c.withBox p none).withGuards t ((c.guards t).erase p)

def forget (c : Sys) (t : ThreadId) (p : CtxPtr) : Sys := c.withGuards t ((c.guards t).erase p)

def barrier (c : Sys) (t : ThreadId) (vals : List Addr) : Sys :=
  (c.withCurrentContext t fun p b =>
    let r := St.barrier ⟨c.mem, c.heaps b.heap⟩ b.localGray vals
    (c.withWorld (c.abs.put b.heap r.1)).withBox p (some ⟨b.thread, b.heap, r.2⟩)).1

def set (c : Sys) (t : ThreadId) (o : Addr) (k : Nat) (vals : List Addr) : Sys :=
  let c := c.barrier t vals
  c.withWorld (c.abs.storeCell o k vals)

end Sys

inductive Op
  | withHeap (t : ThreadId) (h : HeapId) (p : CtxPtr)
  | dropCtx (t : ThreadId) (p : CtxPtr)
  | forget (t : ThreadId) (p : CtxPtr)
  | set (t : ThreadId) (o : Addr) (k : Nat) (vals : List Addr)
  | heap (op : Contexts.Op)

/-- The operations that read no context. -/
def OnHeap : Contexts.Op → Prop
  | .enter _ _ => False
  | .leave _ => False
  | .set _ _ _ _ => False
  | _ => True

inductive Step : Sys → Op → Sys → Prop
  | withHeap {c c' : Sys} {t : ThreadId} {h : HeapId} {p : CtxPtr} : c.boxes p = none → c.withHeap t h p = .ok c' →
      Step c (.withHeap t h p) c'
  | panic {c c' : Sys} {t : ThreadId} {h : HeapId} {p : CtxPtr} : c.boxes p = none → c.withHeap t h p = .error c' →
      Step c (.withHeap t h p) c'
  | dropCtx {c : Sys} {t : ThreadId} {p : CtxPtr} : p ∈ c.guards t → Step c (.dropCtx t p) (c.dropCtx t p)
  | forget {c : Sys} {t : ThreadId} {p : CtxPtr} : p ∈ c.guards t → Step c (.forget t p) (c.forget t p)
  | set {c : Sys} (t : ThreadId) (o : Addr) (k : Nat) (vals : List Addr) : c.mem.alive o = true →
      k < (c.mem.data o).cells.length → (∀ p ∈ vals, c.mem.alive p = true) → Step c (.set t o k vals) (c.set t o k vals)
  | heap {c : Sys} {op : Contexts.Op} {w : World} : OnHeap op → Contexts.Step c.abs op w →
      Step c (.heap op) (c.withWorld w)

structure Start (c : Sys) : Prop where
  abs : Contexts.Start c.abs
  tls : ∀ t, c.tls t = none
  boxes : ∀ p, c.boxes p = none
  guards : ∀ t, c.guards t = []
  fault : c.fault = false

/-! ## The invariant -/

/-- A thread's pointer is to the one box that it has made and that is still allocated. -/
structure Inv (c : Sys) : Prop where
  fault : c.fault = false
  tls : ∀ t p, c.tls t = some p ↔ ∃ b, c.boxes p = some b ∧ b.thread = t
  guards : ∀ t p, p ∈ c.guards t → c.tls t = some p ∧ c.guards t = [p]

section
variable {c : Sys} {t : ThreadId} {h : HeapId} {p : CtxPtr}

theorem Inv.box (hi : Inv c) (ht : c.tls t = some p) : ∃ b, c.boxes p = some b ∧ b.thread = t := (hi.tls t p).1 ht

/-- Two threads never share a box. -/
theorem Inv.ne (hi : Inv c) {u : ThreadId} {q : CtxPtr} (ht : c.tls t = some p) (hu : c.tls u = some q) (hne : u ≠ t) :
    q ≠ p := by
  rintro rfl
  obtain ⟨b, hb, rfl⟩ := hi.box ht
  obtain ⟨b', hb', rfl⟩ := hi.box hu
  rw [hb] at hb'
  cases hb'
  exact hne rfl

theorem Inv.guards_of_none (hi : Inv c) (ht : c.tls t = none) : c.guards t = [] := by
  refine List.eq_nil_iff_forall_not_mem.2 fun q hq => ?_
  rw [(hi.guards t q hq).1] at ht
  cases ht

/-- `with_heap` on a thread with a pointer panics and leaves everything as it was. -/
theorem withHeap_error (hp : c.boxes p = none) (ht : c.tls t ≠ none) : c.withHeap t h p = .error c := by
  have hset : (c.withBox p (some ⟨t, h, []⟩)).setCurrentContext t p = none := if_pos ht
  have hback : (c.withBox p (some ⟨t, h, []⟩)).withBox p none = c := by
    simp only [Sys.withBox, Function.update_idem]
    rw [← hp, Function.update_eq_self]
  simp only [Sys.withHeap, hset, hback]

theorem withHeap_ok (ht : c.tls t = none) :
    c.withHeap t h p = .ok (((c.withBox p (some ⟨t, h, []⟩)).withTls t (some p)).withGuards t (p :: c.guards t)) := by
  have hset : (c.withBox p (some ⟨t, h, []⟩)).setCurrentContext t p =
      some ((c.withBox p (some ⟨t, h, []⟩)).withTls t (some p)) := if_neg (not_not.2 ht)
  simp only [Sys.withHeap, hset]
  rfl

theorem dropCtx_eq (hi : Inv c) (hp : p ∈ c.guards t) :
    c.dropCtx t p = ((c.withTls t none).withBox p none).withGuards t [] := by
  obtain ⟨ht, hg⟩ := hi.guards t p hp
  simp only [Sys.dropCtx, Sys.resetCurrentContext, ht, if_true]
  simp [Sys.withTls, hg]

theorem forget_eq (hi : Inv c) (hp : p ∈ c.guards t) : c.forget t p = c.withGuards t [] := by
  simp [Sys.forget, (hi.guards t p hp).2]

theorem Inv.withHeap (hi : Inv c) (hp : c.boxes p = none) (ht : c.tls t = none) :
    Inv (((c.withBox p (some ⟨t, h, []⟩)).withTls t (some p)).withGuards t (p :: c.guards t)) := by
  have hfresh : ∀ u, c.tls u ≠ some p := by
    intro u hu
    obtain ⟨b, hb, _⟩ := hi.box hu
    rw [hp] at hb
    cases hb
  refine ⟨hi.fault, fun u q => ?_, fun u q hq => ?_⟩
  · show Function.update c.tls t (some p) u = some q ↔
      ∃ b, Function.update c.boxes p (some ⟨t, h, []⟩) q = some b ∧ b.thread = u
    by_cases hu : u = t
    · subst hu
      rw [Function.update_self]
      by_cases hq : q = p
      · subst hq
        simp
      · rw [Function.update_of_ne hq, ← hi.tls u q, ht]
        simp [Ne.symm hq]
    · rw [Function.update_of_ne hu]
      by_cases hq : q = p
      · subst hq
        simp [hfresh u, Ne.symm hu]
      · rw [Function.update_of_ne hq]
        exact hi.tls u q
  · change q ∈ Function.update c.guards t (p :: c.guards t) u at hq
    show Function.update c.tls t (some p) u = some q ∧ Function.update c.guards t (p :: c.guards t) u = [q]
    by_cases hu : u = t
    · subst hu
      rw [Function.update_self, hi.guards_of_none ht] at hq ⊢
      obtain rfl := List.mem_singleton.1 hq
      simp
    · rw [Function.update_of_ne hu] at hq ⊢
      rw [Function.update_of_ne hu]
      exact hi.guards u q hq

theorem Inv.forget (hi : Inv c) : Inv (c.withGuards t []) := by
  refine ⟨hi.fault, hi.tls, fun u q hq => ?_⟩
  change q ∈ Function.update c.guards t [] u at hq
  show c.tls u = some q ∧ Function.update c.guards t [] u = [q]
  by_cases hu : u = t
  · subst hu
    rw [Function.update_self] at hq
    cases hq
  · rw [Function.update_of_ne hu] at hq ⊢
    exact hi.guards u q hq

theorem Inv.dropCtx (hi : Inv c) (ht : c.tls t = some p) : Inv (((c.withTls t none).withBox p none).withGuards t []) := by
  refine ⟨hi.fault, fun u q => ?_, fun u q hq => ?_⟩
  · show Function.update c.tls t none u = some q ↔ ∃ b, Function.update c.boxes p none q = some b ∧ b.thread = u
    by_cases hu : u = t
    · subst hu
      rw [Function.update_self]
      by_cases hq : q = p
      · subst hq
        simp
      · rw [Function.update_of_ne hq, ← hi.tls u q, ht]
        simp [Ne.symm hq]
    · rw [Function.update_of_ne hu]
      by_cases hq : q = p
      · -- the box was this thread's own
        subst hq
        rw [Function.update_self]
        exact ⟨fun hu' => absurd rfl (hi.ne ht hu' hu), fun hb => (by obtain ⟨_, hb, _⟩ := hb; cases hb)⟩
      · rw [Function.update_of_ne hq]
        exact hi.tls u q
  · have hq' := hi.forget.guards u q hq
    refine ⟨?_, hq'.2⟩
    have hu : u ≠ t := by
      rintro rfl
      change q ∈ Function.update c.guards u [] u at hq
      rw [Function.update_self] at hq
      cases hq
    show Function.update c.tls t none u = some q
    rw [Function.update_of_ne hu]
    exact hq'.1

theorem Inv.withWorld (hi : Inv c) (w : World) : Inv (c.withWorld w) := ⟨hi.fault, hi.tls, hi.guards⟩

/-- The barrier replaces a box by one of the same thread. -/
theorem Inv.withBox (hi : Inv c) {b b' : Inner} (hb : c.boxes p = some b) (ht : b'.thread = b.thread) :
    Inv (c.withBox p (some b')) := by
  refine ⟨hi.fault, fun u q => ?_, hi.guards⟩
  rw [show (c.withBox p (some b')).tls = c.tls from rfl, hi.tls u q]
  show (∃ x, c.boxes q = some x ∧ x.thread = u) ↔ ∃ x, Function.update c.boxes p (some b') q = some x ∧ x.thread = u
  by_cases hq : q = p
  · subst hq
    rw [Function.update_self]
    simp [hb, ht]
  · rw [Function.update_of_ne hq]

/-! ## The contexts of the threads -/

theorem abs_ctx_eq_none (hi : Inv c) : c.abs.ctx t = none ↔ c.tls t = none := by
  cases ht : c.tls t with
  | none => simp [Sys.abs, ht]
  | some p =>
    obtain ⟨b, hb, _⟩ := hi.box ht
    simp [Sys.abs, ht, hb]

/-- `with_heap` is `Contexts.Step.enter`. -/
theorem abs_withHeap (hi : Inv c) (hp : c.boxes p = none) :
    (((c.withBox p (some ⟨t, h, []⟩)).withTls t (some p)).withGuards t (p :: c.guards t)).abs =
      { c.abs with ctx := Function.update c.abs.ctx t (some ⟨h, []⟩) } := by
  refine congrArg (World.mk c.mem c.heaps c.heapOf) (funext fun u => ?_)
  show ((Function.update c.tls t (some p) u).bind fun q => (Function.update c.boxes p (some ⟨t, h, []⟩) q).map _) = _
  by_cases hu : u = t
  · subst hu
    simp
  · rw [Function.update_of_ne hu, Function.update_of_ne hu]
    show _ = (c.tls u).bind _
    refine Option.bind_congr fun q hq => ?_
    have hqp : q ≠ p := by
      rintro rfl
      obtain ⟨b, hb, _⟩ := hi.box hq
      rw [hp] at hb
      cases hb
    rw [Function.update_of_ne hqp]

/-- The drop of a `GcContext` is `Contexts.Step.leave`. -/
theorem abs_dropCtx (hi : Inv c) (ht : c.tls t = some p) : (((c.withTls t none).withBox p none).withGuards t []).abs =
    { c.abs with ctx := Function.update c.abs.ctx t none } := by
  refine congrArg (World.mk c.mem c.heaps c.heapOf) (funext fun u => ?_)
  show ((Function.update c.tls t none u).bind fun q => (Function.update c.boxes p none q).map _) = _
  by_cases hu : u = t
  · subst hu
    simp
  · rw [Function.update_of_ne hu, Function.update_of_ne hu]
    show _ = (c.tls u).bind _
    refine Option.bind_congr fun q hq => ?_
    rw [Function.update_of_ne (hi.ne ht hq hu)]

/-- The barrier finds the box that is the thread's context. -/
theorem barrier_refines (hi : Inv c) (vals : List Addr) :
    Inv (c.barrier t vals) ∧ (c.barrier t vals).abs = c.abs.barrier t vals := by
  unfold Sys.barrier Sys.withCurrentContext World.barrier
  cases ht : c.tls t with
  | none =>
    rw [(abs_ctx_eq_none hi).2 ht]
    exact ⟨hi, rfl⟩
  | some p =>
    obtain ⟨b, hb, hbt⟩ := hi.box ht
    have hctx : c.abs.ctx t = some ⟨b.heap, b.localGray⟩ := by simp [Sys.abs, ht, hb]
    simp only [hb, hctx]
    refine ⟨(hi.withWorld _).withBox (b := b) hb rfl, ?_⟩
    refine congrArg (World.mk _ _ _) (funext fun u => ?_)
    show ((c.tls u).bind fun q => (Function.update c.boxes p (some ⟨b.thread, b.heap, _⟩) q).map _) = _
    by_cases hu : u = t
    · subst hu
      rw [Function.update_self, ht]
      simp
      rfl
    · rw [Function.update_of_ne hu]
      show _ = (c.tls u).bind _
      refine Option.bind_congr fun q hq => ?_
      rw [Function.update_of_ne (hi.ne ht hq hu)]

theorem set_refines (hi : Inv c) (o : Addr) (k : Nat) (vals : List Addr) :
    Inv (c.set t o k vals) ∧ (c.set t o k vals).abs = c.abs.set t o k vals := by
  obtain ⟨hi', e⟩ := barrier_refines (t := t) hi vals
  refine ⟨hi'.withWorld _, ?_⟩
  show ((c.barrier t vals).abs.storeCell o k vals) = (c.abs.barrier t vals).storeCell o k vals
  rw [e]

end

/-- Collectors and allocations leave the contexts alone. -/
theorem onHeap_ctx {w w' : World} {op : Contexts.Op} (hop : OnHeap op) (hst : Contexts.Step w op w') : w'.ctx = w.ctx := by
  cases hst with
  | enter => cases hop
  | leave => cases hop
  | set => cases hop
  | _ => rfl

theorem abs_withWorld {c : Sys} {w : World} (h : w.ctx = c.abs.ctx) : (c.withWorld w).abs = w := by
  obtain ⟨m, hs, ho, ctx⟩ := w
  cases h
  rfl

/-- A step keeps the invariant, and is a step of `Abfall.Contexts` or none at all. -/
theorem step_refines {c c' : Sys} {op : Op} (hi : Inv c) (hst : Step c op c') :
    Inv c' ∧ (c'.abs = c.abs ∨ ∃ op', Contexts.Step c.abs op' c'.abs) := by
  cases hst with
  | @withHeap _ t h p hp e =>
    have ht : c.tls t = none := by
      by_contra ht
      rw [withHeap_error hp ht] at e
      cases e
    rw [withHeap_ok ht] at e
    cases e
    refine ⟨hi.withHeap hp ht, .inr ⟨.enter t h, ?_⟩⟩
    rw [abs_withHeap hi hp]
    exact .enter t h ((abs_ctx_eq_none hi).2 ht)
  | @panic _ t h p hp e =>
    have ht : c.tls t ≠ none := by
      intro ht
      rw [withHeap_ok ht] at e
      cases e
    rw [withHeap_error hp ht] at e
    cases e
    exact ⟨hi, .inl rfl⟩
  | @dropCtx t p hp =>
    have ht := (hi.guards t p hp).1
    rw [dropCtx_eq hi hp]
    refine ⟨hi.dropCtx ht, .inr ⟨.leave t, ?_⟩⟩
    rw [abs_dropCtx hi ht]
    exact .leave t
  | @forget t p hp =>
    rw [forget_eq hi hp]
    exact ⟨hi.forget, .inl rfl⟩
  | set t o k vals ho hk hv =>
    obtain ⟨hi', e⟩ := set_refines hi o k vals
    refine ⟨hi', .inr ⟨.set t o k vals, ?_⟩⟩
    rw [e]
    exact .set t o k vals ho hk hv
  | @heap op w hop hst =>
    refine ⟨hi.withWorld w, .inr ⟨op, ?_⟩⟩
    rw [abs_withWorld (onHeap_ctx hop hst)]
    exact hst

theorem start_inv {c : Sys} (h : Start c) : Inv c := by
  refine ⟨h.fault, fun t p => ?_, fun t p hp => ?_⟩
  · simp [h.tls t, h.boxes p]
  · rw [h.guards t] at hp
    cases hp

/-- **The thread-local context never dangles.** In every run of any number of threads, whatever they forget and whichever
addresses the allocator gives out: the pointer of a thread is to the one box that the thread made and that is still
allocated, so no freed context is dereferenced; a thread has at most one `GcContext`, and that is the one pointed to;
`with_heap` panics iff the thread has such a box, and then changes nothing. What the threads see is a run of
`Abfall.Contexts`. -/
theorem current_ctx_valid (c : Sys) (hc : Reach Step Start c) :
    c.fault = false ∧ (∀ t p, c.tls t = some p ↔ ∃ b, c.boxes p = some b ∧ b.thread = t) ∧
    (∀ t p, p ∈ c.guards t → c.tls t = some p ∧ c.guards t = [p]) ∧
    (∀ t h p, c.boxes p = none →
      ((∃ c', c.withHeap t h p = .error c') ↔ ∃ q b, c.boxes q = some b ∧ b.thread = t) ∧
      ∀ c', c.withHeap t h p = .error c' → c' = c) ∧
    Reach Contexts.Step Contexts.Start c.abs := by
  have hboth : Inv c ∧ Reach Contexts.Step Contexts.Start c.abs := by
    refine hc.inv (I := fun c => Inv c ∧ Reach Contexts.Step Contexts.Start c.abs) (fun c h => ?_) fun c op c' hi hst => ?_
    · exact ⟨start_inv h, .init h.abs⟩
    · obtain ⟨hi', e | ⟨op', hst'⟩⟩ := step_refines hi.1 hst
      · exact ⟨hi', e ▸ hi.2⟩
      · exact ⟨hi', hi.2.step hst'⟩
  obtain ⟨hi, hreach⟩ := hboth
  refine ⟨hi.fault, hi.tls, hi.guards, fun t h p hp => ?_, hreach⟩
  cases ht : c.tls t with
  | none =>
    rw [withHeap_ok ht]
    refine ⟨⟨fun he => (by obtain ⟨_, he⟩ := he; cases he), ?_⟩, fun c' he => (by cases he)⟩
    rintro ⟨q, b, hb⟩
    rw [(hi.tls t q).2 ⟨b, hb⟩] at ht
    cases ht
  | some q =>
    rw [withHeap_error hp (by rw [ht]; simp)]
    refine ⟨⟨fun _ => ⟨q, hi.box ht⟩, fun _ => ⟨c, rfl⟩⟩, fun c' he => ?_⟩
    cases he
    rfl

/-- Nothing is allocated and no thread has a context. -/
def fresh : Sys where
  mem := .empty
  heaps := fun _ => .withOptions .default
  heapOf := fun _ => none
  tls := fun _ => none
  boxes := fun _ => none
  guards := fun _ => []
  fault := false

/-- Thread `0` drops its context; thread `1` is given the same address for its own, and forgets it. A second context on
thread `1` panics. -/
theorem current_ctx_valid_reused : ∃ c, Reach Step Start c ∧ c.tls 0 = none ∧ c.tls 1 = some 64 ∧ c.guards 1 = [] ∧
    c.withHeap 1 0 128 = .error c ∧ c.fault = false := by
  have hstart : Start fresh :=
    ⟨⟨rfl, fun _ => ⟨_, rfl⟩, fun _ => rfl, fun _ => rfl⟩, fun _ => rfl, fun _ => rfl, fun _ => rfl, rfl⟩
  have h₀ : Reach Step Start fresh := .init hstart
  have h₁ := h₀.step (.withHeap (t := 0) (h := 0) (p := 64) rfl (withHeap_ok rfl))
  have h₂ := h₁.step (.dropCtx (t := 0) (p := 64) (by decide))
  have h₃ := h₂.step (.withHeap (t := 1) (h := 1) (p := 64) (by rfl) (withHeap_ok (by rfl)))
  have h₄ := h₃.step (.forget (t := 1) (p := 64) (by decide))
  obtain ⟨hf, htls, _, hwith, _⟩ := current_ctx_valid _ h₄
  obtain ⟨hpanic, hsame⟩ := hwith 1 0 128 (by rfl)
  obtain ⟨c', e⟩ := hpanic.2 ⟨64, ⟨1, 1, []⟩, by rfl, rfl⟩
  refine ⟨_, h₄, by rfl, (htls 1 64).2 ⟨⟨1, 1, []⟩, by rfl, rfl⟩, by rfl, ?_, hf⟩
  rw [e, hsame c' e]

end Abfall.CurrentCtx
