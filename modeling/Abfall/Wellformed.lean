import Abfall.Collect
/-!
# Well-formed heaps

`WF s` is what every operation keeps whatever the phase: the list from `head` holds exactly the
allocated objects, `bytes_allocated` is their size sum, every pointer stored in an allocated object or
waiting in the gray queue is to an allocated object, and no dangling header was dereferenced so far.
Only the sweep can break it: `wf_of_swept` asks that no survivor points to a dropped object.
-/
namespace Abfall
open Chain

/-- `l` is the list from `head`: exactly the allocated objects, with their byte count. -/
structure Listed (s : St) (l : List Addr) : Prop where
  seg : Seg s.mem.next s.heap.head l none
  alive : ∀ a, a ∈ l ↔ s.mem.alive a = true
  bytes : s.heap.bytesAllocated = sizeSum s.mem l

structure WF (s : St) : Prop where
  listed : ∃ l, Listed s l
  sane : Sane s.mem (waiting [] s.heap.grayQueue)

theorem Listed.of_same {s s' : St} {l : List Addr} (h : Listed s l) (hs : s.mem.SameObjects s'.mem)
    (hh : s'.heap.head = s.heap.head) (hb : s'.heap.bytesAllocated = s.heap.bytesAllocated) : Listed s' l := by
  refine ⟨by rw [hs.next, hh]; exact h.seg, fun a => by rw [hs.alive]; exact h.alive a, ?_⟩
  rw [hb, h.bytes]
  exact (sizeSum_congr fun a _ => by rw [hs.data]).symm

/-- A reachable object is allocated. -/
theorem WF.alive_of_reachable {s : St} (h : WF s) {a : Addr} (ha : s.mem.Reachable a) : s.mem.alive a = true :=
  ha.of_closed (fun _ hr => hr.1) h.sane.closed

theorem wf_fresh (o : GcOptions) : WF (St.fresh o) := by
  have hnone : ∀ a, (St.fresh o).mem.alive a = false := fun _ => rfl
  refine ⟨⟨[], rfl, fun a => by simp [hnone], rfl⟩, rfl, ?_, fun a b ha _ => by simp [hnone] at ha⟩
  rintro x (hx | hx) <;> cases hx

/-! ## Marking -/

theorem doMarkWithTracer_same (s : St) (t : Tracer) (b : Nat) :
    s.mem.SameObjects (s.doMarkWithTracer t b).1.mem :=
  s.doMarkWithTracer_rule (J := fun m _ => s.mem.SameObjects m)
    (fun m t _ a h => h.trans (m.processObject_same t a)) b (.refl _)

/-- The loop of a full marking phase, whatever the budget. -/
theorem doMarkWorkFull_frame : ∀ (fuel : Nat) (s s' : St) (t : Tracer), doMarkWorkFull fuel s t = some s' →
    s.mem.SameObjects s'.mem ∧ s'.heap = s.heap.withQueue s'.heap.grayQueue
  | 0, _, _, _, h => by cases h
  | fuel + 1, s, s', t, h => by
    have hsame := doMarkWithTracer_same s t s.heap.options.incrementalWorkBudget
    have hheap := s.doMarkWithTracer_heap t s.heap.options.incrementalWorkBudget
    simp only [doMarkWorkFull] at h
    split at h
    · obtain ⟨h1, h2⟩ := doMarkWorkFull_frame fuel _ s' _ h
      refine ⟨hsame.trans h1, h2.trans ?_⟩
      rw [hheap]
      rfl
    · cases h
      exact ⟨hsame, hheap⟩

theorem WF.doMark {s : St} (h : WF s) (b : Nat) : WF (s.doMarkWithTracer [] b).1 := by
  obtain ⟨l, hl⟩ := h.listed
  have hh := s.doMarkWithTracer_heap [] b
  exact ⟨⟨l, hl.of_same (doMarkWithTracer_same s [] b) (by rw [hh]; rfl) (by rw [hh]; rfl)⟩,
    s.doMarkWithTracer_rule sane_process b h.sane⟩

theorem WF.doMarkRoots {s s' : St} {fuel : Nat} (h : WF s) (hr : s.doMarkRoots fuel [] = some s') : WF s' := by
  obtain ⟨l, hl⟩ := h.listed
  obtain rfl := St.doMarkRoots_some hl.seg hr
  refine ⟨⟨l, hl.of_same (scanRoots_same l s.mem []) rfl rfl⟩, ?_⟩
  have := scanRoots_sane (q := s.heap.grayQueue) l s.mem [] (fun a ha => (hl.alive a).1 ha) h.sane
  simpa [waiting] using this

/-- Fields of the heap that well-formedness does not read. -/
theorem WF.of_heap {s : St} {h' : Heap} (h : WF s) (hhead : h'.head = s.heap.head)
    (hb : h'.bytesAllocated = s.heap.bytesAllocated) (hq : h'.grayQueue = s.heap.grayQueue) : WF ⟨s.mem, h'⟩ := by
  obtain ⟨l, hl⟩ := h.listed
  exact ⟨⟨l, hl.of_same (.refl _) hhead hb⟩, by simp only [hq]; exact h.sane⟩

/-! ## Mutators -/

/-- The assist: nothing, or a marking call between two moves of the busy counter. -/
theorem St.assist_cases (s : St) : ((s.heap.options.assistWorkBudget = 0 ∨ s.heap.phase ≠ .marking) ∧ s.assist = s) ∨
    (s.heap.phase = .marking ∧ ∃ n, s.assist =
      ⟨(St.doMarkWithTracer ⟨s.mem, s.heap.withBusy n⟩ [] s.heap.options.assistWorkBudget).1.mem,
        s.heap.withQueue
          (St.doMarkWithTracer ⟨s.mem, s.heap.withBusy n⟩ [] s.heap.options.assistWorkBudget).1.heap.grayQueue⟩) := by
  unfold St.assist
  split
  case isFalse hb => exact .inl ⟨.inl (Nat.eq_zero_of_not_pos hb), rfl⟩
  by_cases hp : s.heap.phase = .marking
  · refine .inr ⟨hp, s.heap.nBusyMarking + 1, ?_⟩
    simp only [Heap.checkIsMarking_of_eq hp, ↓reduceIte, St.doMarkIncremental, Heap.decrementBusyMarking]
    rw [St.doMarkWithTracer_heap]
    rfl
  · refine .inl ⟨.inr hp, ?_⟩
    simp only [Heap.checkIsMarking_of_ne hp, Bool.false_eq_true, ↓reduceIte]

theorem St.assist_of_not_marking {s : St} (h : s.heap.phase ≠ .marking) : s.assist = s :=
  (s.assist_cases.resolve_right fun ⟨hp, _⟩ => h hp).2

theorem St.assist_same (s : St) : s.mem.SameObjects s.assist.mem := by
  rcases s.assist_cases with ⟨_, e⟩ | ⟨_, n, e⟩ <;> rw [e]
  · exact .refl _
  · exact doMarkWithTracer_same ⟨s.mem, s.heap.withBusy n⟩ [] _

theorem St.assist_heap (s : St) : s.assist.heap = s.heap.withQueue s.assist.heap.grayQueue := by
  rcases s.assist_cases with ⟨_, e⟩ | ⟨_, n, e⟩ <;> rw [e] <;> rfl

/-- Properties kept by processing an object are kept by an assist. -/
theorem St.assist_rule {J : Mem → Set Addr → Prop} (hJ : ProcessKeeps J) {s : St}
    (h : J s.mem (waiting [] s.heap.grayQueue)) : J s.assist.mem (waiting [] s.assist.heap.grayQueue) := by
  rcases s.assist_cases with ⟨_, e⟩ | ⟨_, n, e⟩ <;> rw [e]
  · exact h
  · exact St.doMarkWithTracer_rule (s := ⟨s.mem, s.heap.withBusy n⟩) hJ _ h

theorem Listed.assist {s : St} {l : List Addr} (h : Listed s l) : Listed s.assist l :=
  h.of_same s.assist_same (by rw [s.assist_heap]; rfl) (by rw [s.assist_heap]; rfl)

theorem WF.assist {s : St} (h : WF s) : WF s.assist := by
  obtain ⟨l, hl⟩ := h.listed
  exact ⟨⟨l, hl.assist⟩, St.assist_rule sane_process h.sane⟩

theorem St.push_data {s : St} {a x : Addr} {d : Data} (hx : x ≠ a) : (s.push a d).mem.data x = s.mem.data x :=
  Function.update_of_ne hx _ _

theorem St.push_data_self (s : St) (a : Addr) (d : Data) : (s.push a d).mem.data a = d :=
  Function.update_self _ _ _

theorem St.push_edge {s : St} {a x y : Addr} {d : Data} :
    (s.push a d).mem.Edge x y ↔ (x = a ∧ y ∈ d.ptrs) ∨ (x ≠ a ∧ s.mem.Edge x y) := by
  unfold Mem.Edge Mem.ptrs
  by_cases hx : x = a
  · subst hx; simp [s.push_data_self x d]
  · simp [St.push_data hx, hx]

theorem St.push_alive {s : St} {a x : Addr} {d : Data} :
    (s.push a d).mem.alive x = true ↔ x = a ∨ s.mem.alive x = true := by
  by_cases hx : x = a
  · subst hx; simp [push, Mem.newBox, Mem.setNext]
  · simp [push, Mem.newBox, Mem.setNext, hx]

theorem Listed.push {s : St} {l : List Addr} {a : Addr} {d : Data} (h : Listed s l)
    (ha : s.mem.alive a = false) : Listed (s.push a d) (a :: l) := by
  have hal : a ∉ l := fun hm => by have := (h.alive a).1 hm; simp [ha] at this
  refine ⟨?_, fun x => ?_, ?_⟩
  · have hseg := seg_push hal h.seg
    have e : (s.push a d).mem.next = Function.update s.mem.next a s.heap.head := by
      simp [St.push, Mem.setNext, Mem.newBox]
    rw [e]
    exact hseg
  · rw [List.mem_cons, h.alive, St.push_alive]
  · have e : sizeSum (s.push a d).mem l = sizeSum s.mem l :=
      sizeSum_congr fun x hx => by rw [St.push_data (by rintro rfl; exact hal hx)]
    have e2 : (s.push a d).heap.bytesAllocated = s.heap.bytesAllocated + d.size := rfl
    rw [e2, h.bytes]
    rw [sizeSum_cons, s.push_data_self a d]
    omega

theorem WF.push {s : St} {a : Addr} {d : Data} (h : WF s) (ha : s.mem.alive a = false)
    (hd : ∀ p ∈ d.ptrs, s.mem.alive p = true) : WF (s.push a d) := by
  obtain ⟨l, hl⟩ := h.listed
  refine ⟨⟨_, hl.push ha⟩, h.sane.noFault, fun x hx => ?_, fun x y hx he => ?_⟩
  · exact St.push_alive.2 (.inr (h.sane.waits x hx))
  · rw [St.push_alive]
    rcases St.push_edge.1 he with ⟨_, hy⟩ | ⟨hne, he⟩
    · exact .inr (hd y hy)
    · exact .inr (h.sane.closed x y ((St.push_alive.1 hx).resolve_left hne) he)

theorem WF.allocate {s : St} {a : Addr} {d : Data} (h : WF s) (ha : s.mem.alive a = false)
    (hd : ∀ p ∈ d.ptrs, s.mem.alive p = true) : WF (s.allocate a d) :=
  h.assist.push (by rw [s.assist_same.alive]; exact ha) (by rw [s.assist_same.alive]; exact hd)

theorem WF.setRootCount {s : St} {a : Addr} {n : Nat} (h : WF s) (ha : s.mem.alive a = true) :
    WF ⟨(s.mem.touch a).setRootCount a n, s.heap⟩ := by
  obtain ⟨l, hl⟩ := h.listed
  exact ⟨⟨l, hl.seg, hl.alive, hl.bytes⟩, touch_fault h.sane.noFault ha, h.sane.waits, h.sane.closed⟩

theorem St.barrier_of_not_marking {s : St} (h : s.heap.phase ≠ .marking) (vals : List Addr) :
    (s.barrier [] vals).1 = s := by
  unfold St.barrier
  simp only [Heap.checkIsMarking_of_ne h, Bool.false_eq_true, ↓reduceIte]

theorem St.barrier_of_marking {s : St} (h : s.heap.phase = .marking) (vals : List Addr) :
    (s.barrier [] vals).1 = ⟨(Mem.markAll vals s.mem []).1,
      s.heap.withQueue ((Mem.markAll vals s.mem []).2 ++ s.heap.grayQueue)⟩ := by
  unfold St.barrier
  simp only [Heap.checkIsMarking_of_eq h, ↓reduceIte, St.mergeWork, Heap.decrementBusyMarking]
  rfl

/-- The barrier: nothing, or the shading of the new value. -/
theorem St.barrier_cases (s : St) (vals : List Addr) : (s.barrier [] vals).1 = s ∨
    (s.heap.phase = .marking ∧ (s.barrier [] vals).1 = ⟨(Mem.markAll vals s.mem []).1,
      s.heap.withQueue ((Mem.markAll vals s.mem []).2 ++ s.heap.grayQueue)⟩) := by
  by_cases hp : s.heap.phase = .marking
  · exact .inr ⟨hp, St.barrier_of_marking hp vals⟩
  · exact .inl (St.barrier_of_not_marking hp vals)

theorem St.barrier_same (s : St) (vals : List Addr) : s.mem.SameObjects (s.barrier [] vals).1.mem := by
  rcases s.barrier_cases vals with e | ⟨_, e⟩ <;> rw [e]
  · exact .refl _
  · exact Mem.markAll_same vals s.mem []

theorem Listed.barrier {s : St} {l : List Addr} (h : Listed s l) (vals : List Addr) :
    Listed (s.barrier [] vals).1 l := by
  refine h.of_same (s.barrier_same vals) ?_ ?_
  · rcases s.barrier_cases vals with e | ⟨_, e⟩ <;> rw [e]; rfl
  · rcases s.barrier_cases vals with e | ⟨_, e⟩ <;> rw [e]; rfl

theorem WF.barrier {s : St} {vals : List Addr} (h : WF s) (hv : ∀ p ∈ vals, s.mem.alive p = true) :
    WF (s.barrier [] vals).1 := by
  obtain ⟨l, hl⟩ := h.listed
  refine ⟨⟨l, hl.barrier vals⟩, ?_⟩
  rcases s.barrier_cases vals with e | ⟨_, e⟩ <;> rw [e]
  · exact h.sane
  · have h0 : Sane s.mem ({x | x ∈ s.heap.grayQueue} ∪ {x | x ∈ ([] : Tracer)}) := by simpa [waiting] using h.sane
    have ew : waiting [] ((Mem.markAll vals s.mem []).2 ++ s.heap.grayQueue) =
        {x | x ∈ s.heap.grayQueue} ∪ {x | x ∈ (Mem.markAll vals s.mem []).2} := by
      ext x; simp [waiting, or_comm]
    simp only [Heap.withQueue_grayQueue, ew]
    exact h0.markAll hv

theorem St.storeCell_edge {s : St} {o x y : Addr} {k : Nat} {vals : List Addr}
    (h : (s.storeCell o k vals).mem.Edge x y) : (x = o ∧ y ∈ vals) ∨ s.mem.Edge x y := by
  unfold Mem.Edge Mem.ptrs at h ⊢
  by_cases hx : x = o
  · subst hx
    have e : (s.storeCell x k vals).mem.data x = (s.mem.data x).setCell k vals := Function.update_self _ _ _
    rw [e] at h
    exact (Data.mem_ptrs_setCell h).imp (fun h => ⟨rfl, h⟩) id
  · have e : (s.storeCell o k vals).mem.data x = s.mem.data x := Function.update_of_ne hx _ _
    rw [e] at h
    exact .inr h

/-- A store does not change the size of a box. -/
theorem Listed.storeCell {s : St} {l : List Addr} (h : Listed s l) (o : Addr) (k : Nat) (vals : List Addr) :
    Listed (s.storeCell o k vals) l := by
  refine ⟨h.seg, h.alive, ?_⟩
  have e : (s.storeCell o k vals).heap.bytesAllocated = s.heap.bytesAllocated := rfl
  rw [e, h.bytes]
  refine (sizeSum_congr fun x _ => ?_).symm
  by_cases hx : x = o
  · subst hx; simp [St.storeCell, Mem.setData, Data.setCell]
  · simp [St.storeCell, Mem.setData, Mem.touch, Function.update_of_ne hx]

theorem WF.storeCell {s : St} {o : Addr} {k : Nat} {vals : List Addr} (h : WF s) (ho : s.mem.alive o = true)
    (hv : ∀ p ∈ vals, s.mem.alive p = true) : WF (s.storeCell o k vals) := by
  obtain ⟨l, hl⟩ := h.listed
  refine ⟨⟨l, hl.storeCell o k vals⟩, touch_fault h.sane.noFault ho, h.sane.waits, fun x y hx he => ?_⟩
  rcases St.storeCell_edge he with ⟨_, hy⟩ | he
  · exact hv y hy
  · exact h.sane.closed x y hx he

theorem WF.setCell {s : St} {o : Addr} {k : Nat} {vals : List Addr} (h : WF s) (ho : s.mem.alive o = true)
    (hv : ∀ p ∈ vals, s.mem.alive p = true) : WF (s.setCell o k vals) :=
  (h.barrier hv).storeCell (by rw [(s.barrier_same vals).alive]; exact ho)
    (by rw [(s.barrier_same vals).alive]; exact hv)

theorem WF.mutate {s : St} {ok : Addr → Prop} {op : MutOp} (h : WF s) (hok : ∀ p, ok p → s.mem.alive p = true)
    (ha : op.Allowed ok s) : WF (s.mutate op) := by
  cases op with
  | allocate a d => exact h.allocate ha.1 fun p hp => hok p (ha.2 p hp)
  | clone a => exact h.setRootCount ha.1
  | dropRoot a => exact h.setRootCount ha.1
  | root a => exact h.setRootCount (hok a ha)
  | set o k vals => exact h.setCell ha.1 fun p hp => hok p (ha.2.2 p hp)

/-- The list after a mutator's operation: a new object in front, or the same. -/
theorem Listed.mutate {s : St} {l : List Addr} {ok : Addr → Prop} {op : MutOp} (h : Listed s l)
    (ha : op.Allowed ok s) : ∃ l', Listed (s.mutate op) l' := by
  cases op with
  | allocate a d => exact ⟨a :: l, h.assist.push (by rw [s.assist_same.alive]; exact ha.1)⟩
  | set o k vals => exact ⟨l, (h.barrier vals).storeCell o k vals⟩
  | _ => exact ⟨l, h.seg, h.alive, h.bytes⟩

/-- Of the heap's fields a mutator writes only the queue, the head and the byte count. -/
theorem St.mutate_heap (s : St) (op : MutOp) :
    ∃ q hd n, (s.mutate op).heap = ((s.heap.withQueue q).withHead hd).withBytes n := by
  cases op with
  | allocate a d =>
    refine ⟨s.assist.heap.grayQueue, some a, s.heap.bytesAllocated + d.size, ?_⟩
    show (s.assist.heap.withHead (some a)).withBytes (s.assist.heap.bytesAllocated + d.size) = _
    rw [s.assist_heap]
    rfl
  | set o k vals =>
    refine ⟨(s.barrier [] vals).1.heap.grayQueue, s.heap.head, s.heap.bytesAllocated, ?_⟩
    show (s.barrier [] vals).1.heap = _
    rcases s.barrier_cases vals with e | ⟨_, e⟩ <;> rw [e] <;> rfl
  | _ => exact ⟨s.heap.grayQueue, s.heap.head, s.heap.bytesAllocated, rfl⟩

/-- Outside marking a mutator shades nothing and queues nothing. -/
theorem St.mutate_white {s : St} {op : MutOp} (hm : s.heap.phase ≠ .marking)
    (h : ∀ a, s.mem.alive a = true → s.mem.color a = .white) (a : Addr) (ha : (s.mutate op).mem.alive a = true) :
    (s.mutate op).mem.color a = .white := by
  cases op with
  | allocate b d =>
    change (s.assist.push b d).mem.alive a = true at ha
    show Function.update s.assist.mem.color b .white a = .white
    rw [St.assist_of_not_marking hm] at ha ⊢
    by_cases hab : a = b
    · simp [hab]
    · rw [Function.update_of_ne hab]; exact h a ((St.push_alive.1 ha).resolve_left hab)
  | set o k vals =>
    change (s.barrier [] vals).1.mem.alive a = true at ha
    show (s.barrier [] vals).1.mem.color a = .white
    rw [St.barrier_of_not_marking hm] at ha ⊢
    exact h a ha
  | _ => exact h a ha

/-! ## Sweeping -/

/-- What a sweep leaves: the survivors on the list, counted. -/
theorem Listed.swept {s : St} {l : List Addr} {m' : Mem} {hd' : Option Addr} (hl : Listed s l)
    (hsw : Swept s.mem [] l m' hd') {h : Heap} (hhd : h.head = hd')
    (hb : h.bytesAllocated = s.heap.bytesAllocated - sizeSum s.mem (dead s.mem l)) :
    Listed ⟨m', h⟩ (kept s.mem l) := by
  refine ⟨?_, fun x => ?_, ?_⟩
  · simp only [hhd]; simpa using hsw.list
  · rw [mem_kept, hl.alive]
    simp [hsw.alive x]
  · have hsplit := sizeSum_split s.mem l
    have e : sizeSum m' (kept s.mem l) = sizeSum s.mem (kept s.mem l) :=
      sizeSum_congr fun a _ => by rw [hsw.data]
    rw [e]
    simp only [hb, hl.bytes]
    omega

/-- It stays well-formed when no survivor points to a dropped object. -/
theorem wf_of_swept {s : St} {l : List Addr} {m' : Mem} {hd' : Option Addr} (hl : Listed s l)
    (hsane : Sane s.mem (waiting [] s.heap.grayQueue)) (hsw : Swept s.mem [] l m' hd') {h' : Heap}
    (hhd : h'.head = hd') (hb : h'.bytesAllocated = s.heap.bytesAllocated - sizeSum s.mem (dead s.mem l))
    (hq : ∀ x ∈ h'.grayQueue, x ∈ s.heap.grayQueue ∧ x ∉ dead s.mem l)
    (hspare : ∀ a b, a ∈ kept s.mem l → s.mem.Edge a b → b ∉ dead s.mem l) : WF ⟨m', h'⟩ := by
  have hal : ∀ x, m'.alive x = true ↔ s.mem.alive x = true ∧ x ∉ dead s.mem l := fun x => by simp [hsw.alive x]
  have hlisted := hl.swept hsw hhd hb
  refine ⟨⟨_, hlisted⟩, ?_, ?_, ?_⟩
  · exact hsw.fault.trans hsane.noFault
  · rintro x (hx | hx)
    · cases hx
    · exact (hal x).2 ⟨hsane.waits x (.inr (hq x hx).1), (hq x hx).2⟩
  · intro a b ha he
    have he' : s.mem.Edge a b := by simpa [Mem.Edge, Mem.ptrs, hsw.data] using he
    exact (hal b).2 ⟨hsane.closed a b ((hal a).1 ha).1 he', hspare a b ((hlisted.alive a).2 ha) he'⟩

end Abfall
