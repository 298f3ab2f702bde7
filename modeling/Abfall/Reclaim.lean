import Abfall.Cycles
/-!
# Garbage is freed by the second complete cycle

An object that is garbage when a cycle starts its root scan may survive that cycle: an aborted cycle
or a barrier may have left it shaded, or queued, and then the cycle traces it and what it points to.
`garbage_freed_by_second_cycle`: it does not survive a second one.

`Left G n p` is the invariant. `G` is what is left of the garbage of some earlier time, and `n` counts
the cycles that were started and completed since. Nothing outside `G` ever points into it again, since
a mutator only has pointers that it found along live objects. When the first such cycle has drained
the queue, no object of `G` is queued; its sweep makes them White; from then on nothing shades them,
and the next sweep frees them.
-/
namespace Abfall.Reclaim
open Chain Transition Cycles
open Incremental (BgPc Sys)

/-- Reachable from a root along stored pointers of allocated objects. -/
def LiveReachable (m : Mem) (x : Addr) : Prop :=
  ∃ r, m.Rooted r ∧ Relation.ReflTransGen (fun a b => m.alive a = true ∧ m.Edge a b) r x

/-- A mutator uses what it can reach. -/
def UsesReachable (s : St) (op : MutOp) : Prop := op.Allowed (LiveReachable s.mem) s

/-- The complete cycles of a run, and whether the one in progress has started its root scan in it. -/
structure Tally where
  cycles : Nat
  started : Bool
deriving DecidableEq, Repr

def Tally.count (n : Tally) : Op → Tally
  | .start _ => ⟨n.cycles, true⟩
  | .abort => ⟨n.cycles, false⟩
  | .sweep _ => ⟨if n.started then n.cycles + 1 else n.cycles, false⟩
  | _ => n

def tally (tr : List (Sys × Op)) : Tally := tr.foldl (fun n e => n.count e.2) ⟨0, false⟩

theorem tally_snoc (tr : List (Sys × Op)) (e : Sys × Op) : tally (tr ++ [e]) = (tally tr).count e.2 := by
  simp [tally]

/-! ## Marking outside a set -/

theorem mark_fault {m : Mem} {t : Tracer} {p : Addr} (h : m.fault = true) : (m.mark t p).1.fault = true := by
  rcases m.mark_cases t p with ⟨_, e⟩ | ⟨_, e⟩ | ⟨_, e⟩ <;> rw [e] <;> simp [Mem.touch, Mem.setColor, h]

theorem processObject_fault {m : Mem} {t : Tracer} {a : Addr} (h : (m.touch a).fault = true) :
    (m.processObject t a).1.fault = true := by
  show ((m.touch a).trace t a).1.fault = true
  unfold Mem.trace
  split
  · exact h
  · exact Mem.markAll_rule (K := fun m' _ => m'.fault = true) (fun _ _ _ _ hk => mark_fault hk) h

/-- Nothing in `G` waits, and the colors of `G` are those of `m₀`. -/
structure Untouched (G : Set Addr) (m₀ m : Mem) (W : Set Addr) : Prop where
  same : m₀.SameObjects m
  waits : ∀ x ∈ G, x ∉ W
  color : ∀ x ∈ G, m.color x = m₀.color x

/-- What is left of the garbage of an earlier time. -/
structure Garbage (G : Set Addr) (m : Mem) : Prop where
  alive : ∀ x ∈ G, m.alive x = true
  unrooted : ∀ x ∈ G, m.rootCount x = 0
  /-- Only garbage points to it. -/
  cut : ∀ y x, m.alive y = true → y ∉ G → x ∈ G → ¬ m.Edge y x

variable {G W : Set Addr} {m₀ m : Mem}

theorem Garbage.of_same {m' : Mem} (h : Garbage G m) (hs : m.SameObjects m') : Garbage G m' := by
  refine ⟨fun x hx => ?_, fun x hx => ?_, fun y x hy hyG hx => ?_⟩
  · rw [hs.alive]; exact h.alive x hx
  · rw [hs.rootCount]; exact h.unrooted x hx
  · rw [hs.alive] at hy
    rw [hs.edge]
    exact h.cut y x hy hyG hx

/-- A mutator has no pointer into the garbage. -/
theorem Garbage.notMem (h : Garbage G m) {x : Addr} (hx : LiveReachable m x) : x ∉ G := by
  obtain ⟨r, hr, hp⟩ := hx
  induction hp with
  | refl =>
    intro hG
    have := h.unrooted r hG
    have := hr.2
    omega
  | tail _ he ih => exact fun hG => h.cut _ _ he.1 ih hG he.2

theorem garbage_of_unreachable (m : Mem) : Garbage {x | m.alive x = true ∧ ¬ LiveReachable m x} m := by
  refine ⟨fun x hx => hx.1, fun x hx => ?_, fun y x hy hyG hx he => hx.2 ?_⟩
  · by_contra h0
    exact hx.2 ⟨x, ⟨hx.1, by omega⟩, .refl⟩
  · obtain ⟨r, hr, hp⟩ : LiveReachable m y := by
      by_contra hn
      exact hyG ⟨hy, hn⟩
    exact ⟨r, hr, hp.tail ⟨hy, he⟩⟩

/-- Processing objects outside `G` leaves `G` alone, unless the object is not allocated. -/
theorem untouched_process (hg : Garbage G m₀) :
    ProcessKeeps fun m W => m.fault = true ∨ Untouched G m₀ m W := by
  intro m t q a h
  rcases h with hf | h
  · exact .inl (processObject_fault (by simp [Mem.touch, hf]))
  have haG : a ∉ G := fun ha => h.waits a ha (Set.mem_insert a _)
  by_cases ha : m.alive a = true
  swap
  · exact .inl (processObject_fault (by simp [Mem.touch, ha]))
  right
  -- no pointer of `a` is into `G`
  have hps : ∀ p ∈ (m.touch a).ptrs a, p ∉ G := by
    intro p hp hpG
    refine hg.cut a p (by rw [← h.same.alive]; exact ha) haG hpG ?_
    rw [← h.same.edge]
    exact hp
  have htr : ∀ x ∈ G, ((m.touch a).trace t a).1.color x = m₀.color x ∧ x ∉ ((m.touch a).trace t a).2 := by
    intro x hx
    have hxt : x ∉ t := fun hxt => h.waits x hx (.inr (.inl hxt))
    unfold Mem.trace
    split
    · exact ⟨h.color x hx, hxt⟩
    · have hxp : x ∉ (m.touch a).ptrs a := fun hp => hps x hp hx
      rw [Mem.markAll_color, if_neg hxp, Mem.mem_markAll]
      exact ⟨h.color x hx, fun hc => hc.elim hxt fun hc => hxp hc.1⟩
  refine ⟨h.same.trans (m.processObject_same t a), fun x hx hw => ?_, fun x hx => ?_⟩
  · exact hw.elim (htr x hx).2 fun hq => h.waits x hx (.inr (.inr hq))
  · show (Mem.setColor _ a .black).color x = _
    rw [Mem.setColor_color, if_neg (by rintro rfl; exact haG hx)]
    exact (htr x hx).1

/-! ## The invariant -/

/-- Nothing of the garbage is queued: the queue was drained in a cycle that started after it became
garbage. -/
def Cleared (n : Tally) (pc : BgPc) : Prop := 1 ≤ n.cycles ∨ (n.started = true ∧ Drained pc)

structure Left (G : Set Addr) (n : Tally) (p : Sys) : Prop extends Base p where
  garbage : Garbage G p.st.mem
  queue : Cleared n p.pc → ∀ x ∈ G, x ∉ p.st.heap.grayQueue
  white : 1 ≤ n.cycles → ∀ x ∈ G, p.st.mem.color x = .white
  none : 2 ≤ n.cycles → G = ∅

variable {n : Tally}

/-- Marking work that leaves the colors of `G` alone. -/
theorem Left.untouched {p : Sys} {m' : Mem} (h : Left G n p) {q : List Addr}
    (hm : Cleared n p.pc → m'.fault = true ∨ Untouched G p.st.mem m' (waiting [] q)) (hf : m'.fault = false) :
    (Cleared n p.pc → ∀ x ∈ G, x ∉ q) ∧ (1 ≤ n.cycles → ∀ x ∈ G, m'.color x = .white) := by
  have hun : Cleared n p.pc → Untouched G p.st.mem m' (waiting [] q) := fun hc =>
    (hm hc).resolve_left (by simp [hf])
  refine ⟨fun hc x hx hq => (hun hc).waits x hx (.inr hq), fun h1 x hx => ?_⟩
  rw [(hun (.inl h1)).color x hx]
  exact h.white h1 x hx

theorem Left.start_untouched {p : Sys} (h : Left G n p) (hc : Cleared n p.pc) :
    p.st.mem.fault = true ∨ Untouched G p.st.mem p.st.mem (waiting [] p.st.heap.grayQueue) :=
  .inr ⟨.refl _, fun x hx hw => hw.elim (fun hw => by cases hw) (h.queue hc x hx), fun _ _ => rfl⟩

theorem Left.mark {s : St} {b : Nat} (h : Left G n ⟨s, .marking⟩) (hb : 1 ≤ b)
    (hbase : Base ⟨(s.doMarkIncremental b).1, if (s.doMarkIncremental b).2 then .found else .marking⟩)
    (hf : (s.doMarkIncremental b).1.mem.fault = false) :
    Left G n ⟨(s.doMarkIncremental b).1, if (s.doMarkIncremental b).2 then .found else .marking⟩ := by
  obtain ⟨hq, hw⟩ := h.untouched (q := (s.doMarkWithTracer [] b).1.heap.grayQueue)
    (fun hc => s.doMarkWithTracer_rule (untouched_process h.garbage) b (h.start_untouched hc)) hf
  refine ⟨hbase, h.garbage.of_same (doMarkWithTracer_same s [] b), fun hc => ?_, hw, h.none⟩
  rcases hc with hc | ⟨_, hd⟩
  · exact hq (.inl hc)
  · -- `found`: the call has left the queue empty
    by_cases hz : (s.doMarkWithTracer [] b).2.2 = 0
    · obtain ⟨_, hempty, es⟩ := St.doMarkWithTracer_zero hb hz
      intro x _ hx
      change x ∈ (s.doMarkWithTracer [] b).1.heap.grayQueue at hx
      rw [es, hempty] at hx
      cases hx
    · simp [St.doMarkIncremental, hz, Drained] at hd

theorem Left.start {s : St} {l : List Addr} (h : Left G n ⟨s, .waiting⟩)
    (hbase : Base ⟨⟨(scanRoots l s.mem []).1,
      (s.heap.withPhase .marking).withQueue ((scanRoots l s.mem []).2 ++ s.heap.grayQueue)⟩, .marking⟩) :
    Left G ⟨n.cycles, true⟩ ⟨⟨(scanRoots l s.mem []).1,
      (s.heap.withPhase .marking).withQueue ((scanRoots l s.mem []).2 ++ s.heap.grayQueue)⟩, .marking⟩ := by
  have hscan : ∀ x ∈ G, _ := fun x hx => scanRoots_unrooted l s.mem [] fun _ => h.garbage.unrooted x hx
  refine ⟨hbase, h.garbage.of_same (scanRoots_same l s.mem []), fun hc x hx hq => ?_, fun h1 x hx => ?_, h.none⟩
  · have h1 : 1 ≤ n.cycles := hc.resolve_right (by simp [Drained])
    rcases List.mem_append.1 hq with hq | hq
    · cases (hscan x hx).2 hq
    · exact h.queue (.inl h1) x hx hq
  · exact (hscan x hx).1.trans (h.white h1 x hx)

/-- The sweep: what is White is freed, the rest is White from now on. -/
theorem Left.sweep {s s' : St} {l : List Addr} (h : Left G n ⟨s, .complete⟩) (hl : Listed s l)
    (hbase : Base ⟨s', .waiting⟩) (hsw : Swept s.mem [] l s'.mem s'.heap.head)
    (hq : s'.heap.grayQueue = s.heap.grayQueue) :
    Left {x | x ∈ G ∧ x ∉ dead s.mem l} ⟨if n.started then n.cycles + 1 else n.cycles, false⟩ ⟨s', .waiting⟩ := by
  have hal : ∀ x, s'.mem.alive x = true ↔ s.mem.alive x = true ∧ x ∉ dead s.mem l := fun x => by simp [hsw.alive x]
  have hcl : 1 ≤ (if n.started then n.cycles + 1 else n.cycles) → Cleared n .complete := by
    intro h1
    by_cases hst : n.started = true
    · exact .inr ⟨hst, .inr rfl⟩
    · exact .inl (by simpa [hst] using h1)
  refine ⟨hbase, ⟨fun x hx => ?_, fun x hx => ?_, fun y x hy hyG hx he => ?_⟩, fun hc x hx hxq => ?_, fun _ x hx => ?_,
    fun h2 => ?_⟩
  · exact (hal x).2 ⟨h.garbage.alive x hx.1, hx.2⟩
  · rw [hsw.rootCount]; exact h.garbage.unrooted x hx.1
  · obtain ⟨hys, hyd⟩ := (hal y).1 hy
    have he' : s.mem.Edge y x := by simpa [Mem.Edge, Mem.ptrs, hsw.data] using he
    exact h.garbage.cut y x hys (fun hyG' => hyG ⟨hyG', hyd⟩) hx.1 he'
  · have h1 := hc.resolve_right (by simp)
    simp only [hq] at hxq
    exact h.queue (hcl h1) x hx.1 hxq
  · show s'.mem.color x = .white
    rw [hsw.color x, if_pos (mem_kept.2 ⟨(hl.alive x).2 (h.garbage.alive x hx.1), hx.2⟩)]
  · -- everything left was White before this sweep
    have h1 : 1 ≤ n.cycles := by
      simp only at h2
      split at h2 <;> omega
    ext x
    simp only [Set.mem_ofPred_eq, Set.mem_empty_iff_false, iff_false, not_and, not_not]
    intro hx
    exact mem_dead.2 ⟨(hl.alive x).2 (h.garbage.alive x hx), h.white h1 x hx, h.garbage.unrooted x hx⟩

/-! ## Mutators -/

theorem Garbage.push {s : St} {a : Addr} {d : Data} (h : Garbage G s.mem) (ha : s.mem.alive a = false)
    (hd : ∀ p ∈ d.ptrs, p ∉ G) : Garbage G (s.push a d).mem := by
  have hne : ∀ x ∈ G, x ≠ a := by
    rintro x hx rfl
    have := h.alive x hx
    simp [ha] at this
  refine ⟨fun x hx => St.push_alive.2 (.inr (h.alive x hx)), fun x hx => ?_, fun y x hy hyG hx he => ?_⟩
  · show Function.update s.mem.rootCount a 1 x = 0
    rw [Function.update_of_ne (hne x hx)]
    exact h.unrooted x hx
  · rcases St.push_edge.1 he with ⟨_, hxd⟩ | ⟨hya, he⟩
    · exact hd x hxd hx
    · exact h.cut y x ((St.push_alive.1 hy).resolve_left hya) hyG hx he

theorem Garbage.setRootCount {a : Addr} {k : Nat} (h : Garbage G m) (ha : a ∉ G) :
    Garbage G ((m.touch a).setRootCount a k) := by
  refine ⟨h.alive, fun x hx => ?_, h.cut⟩
  show Function.update m.rootCount a k x = 0
  rw [Function.update_of_ne (by rintro rfl; exact ha hx)]
  exact h.unrooted x hx

theorem Garbage.storeCell {s : St} {o : Addr} {k : Nat} {vals : List Addr} (h : Garbage G s.mem)
    (hv : ∀ p ∈ vals, p ∉ G) : Garbage G (s.storeCell o k vals).mem := by
  refine ⟨h.alive, h.unrooted, fun y x hy hyG hx he => ?_⟩
  rcases St.storeCell_edge he with ⟨_, hxv⟩ | he
  · exact hv x hxv hx
  · exact h.cut y x hy hyG hx he

theorem Left.mutate {p : Sys} {op : MutOp} (h : Left G n p) (ha : UsesReachable p.st op)
    (hbase : Base ⟨p.st.mutate op, p.pc⟩) (hf : (p.st.mutate op).mem.fault = false) :
    Left G n ⟨p.st.mutate op, p.pc⟩ := by
  have hroot : ∀ {a}, p.st.mem.Rooted a → a ∉ G := fun hr => h.garbage.notMem ⟨_, hr, .refl⟩
  cases op with
  | allocate a d =>
    have hal : p.st.assist.mem.alive a = false := by rw [p.st.assist_same.alive]; exact ha.1
    obtain ⟨hq, hw⟩ := h.untouched (q := p.st.assist.heap.grayQueue)
      (fun hc => St.assist_rule (untouched_process h.garbage) (h.start_untouched hc)) hf
    refine ⟨hbase, (h.garbage.of_same p.st.assist_same).push hal fun q hqd => h.garbage.notMem (ha.2 q hqd), hq,
      fun h1 x hx => ?_, h.none⟩
    show Function.update p.st.assist.mem.color a .white x = .white
    by_cases hxa : x = a
    · subst hxa; exact Function.update_self _ _ _
    · rw [Function.update_of_ne hxa]; exact hw h1 x hx
  | clone a => exact ⟨hbase, h.garbage.setRootCount (hroot ha), h.queue, h.white, h.none⟩
  | dropRoot a => exact ⟨hbase, h.garbage.setRootCount (hroot ha), h.queue, h.white, h.none⟩
  | root a => exact ⟨hbase, h.garbage.setRootCount (h.garbage.notMem ha), h.queue, h.white, h.none⟩
  | set o k vals =>
    have hv : ∀ q ∈ vals, q ∉ G := fun q hq => h.garbage.notMem (ha.2.2 q hq)
    refine ⟨hbase, (h.garbage.of_same (p.st.barrier_same vals)).storeCell hv, fun hc x hx hq => ?_,
      fun h1 x hx => ?_, h.none⟩
    · change x ∈ (p.st.barrier [] vals).1.heap.grayQueue at hq
      rcases p.st.barrier_cases vals with e | ⟨_, e⟩ <;> rw [e] at hq
      · exact h.queue hc x hx hq
      · rcases List.mem_append.1 hq with hq | hq
        · rcases (Mem.mem_markAll vals p.st.mem [] x).1 hq with hq | hq
          · cases hq
          · exact hv x hq.1 hx
        · exact h.queue hc x hx hq
    · show (p.st.barrier [] vals).1.mem.color x = .white
      rcases p.st.barrier_cases vals with e | ⟨_, e⟩ <;> rw [e]
      · exact h.white h1 x hx
      · rw [Mem.markAll_color, if_neg fun hxv => hv x hxv hx]
        exact h.white h1 x hx

/-! ## Runs -/

/-- One step: the garbage that is left, or it was dropped just now. -/
theorem left_step {p p' : Sys} {op : Op} (hi : Left G n p) (h : Step 1 UsesReachable p op p')
    (hf : p'.st.mem.fault = false) : ∃ G' ds, p'.st.mem.dropped = ds ++ p.st.mem.dropped ∧
      (∀ x ∈ G, x ∈ G' ∨ x ∈ ds) ∧ Left G' (n.count op) p' := by
  have hbase := base_step (fun _ _ ha => ha.mono fun _ _ => trivial) hi.toBase h
  obtain ⟨l, hl⟩ := hi.listed
  cases h with
  | @start s s' h fuel hst hr =>
    obtain ⟨_, rfl⟩ := Heap.tryStartMarking_true hst
    obtain rfl := St.doMarkRoots_some (s := ⟨s.mem, s.heap.withPhase .marking⟩) hl.seg hr
    exact ⟨G, [], (scanRoots_same l s.mem []).dropped, fun _ => .inl, hi.start hbase⟩
  | @mark s b hb => exact ⟨G, [], (doMarkWithTracer_same s [] b).dropped, fun _ => .inl, hi.mark hb hbase hf⟩
  | busyCheck =>
    refine ⟨G, [], rfl, fun _ => .inl, hbase, hi.garbage, fun hc => hi.queue ?_, hi.white, hi.none⟩
    exact hc.imp id fun hc => ⟨hc.1, .inl rfl⟩
  | abort =>
    refine ⟨G, [], rfl, fun _ => .inl, hbase, hi.garbage, fun hc => hi.queue ?_, hi.white, hi.none⟩
    exact .inl (hc.resolve_right (by simp [Tally.count]))
  | @sweep s s' live fuel hs =>
    obtain ⟨hsw, _, hh⟩ := sweepAndFinish_some hl.seg (fun x hx => (hl.alive x).1 hx) hs
    refine ⟨_, (dead s.mem l).reverse, hsw.dropped, fun x hx => ?_, hi.sweep hl hbase hsw (by rw [hh]; rfl)⟩
    by_cases hd : x ∈ dead s.mem l
    · exact .inr (List.mem_reverse.2 hd)
    · exact .inl ⟨hx, hd⟩
  | @mutate s pc op ha => exact ⟨G, [], St.mutate_dropped s op, fun _ => .inl, hi.mutate ha hbase hf⟩

theorem left_run {p q : Sys} {tr : List (Sys × Op)} (h : Run (Step 1 UsesReachable) p tr q) (hp : Left G ⟨0, false⟩ p)
    (hf : ∀ e ∈ tr, e.1.st.mem.fault = false) (hq : q.st.mem.fault = false) :
    ∃ G' ds, q.st.mem.dropped = ds ++ p.st.mem.dropped ∧ (∀ x ∈ G, x ∈ G' ∨ x ∈ ds) ∧ Left G' (tally tr) q := by
  induction h with
  | nil => exact ⟨G, [], rfl, fun _ => .inl, hp⟩
  | @snoc t u op tr _ hst ih =>
    obtain ⟨G₁, ds₁, hd₁, hG₁, hl₁⟩ := ih (fun e he => hf e (by simp [he])) (hf (t, op) (by simp))
    obtain ⟨G₂, ds₂, hd₂, hG₂, hl₂⟩ := left_step hl₁ hst hq
    refine ⟨G₂, ds₂ ++ ds₁, by rw [hd₂, hd₁, List.append_assoc], fun x hx => ?_, by rw [tally_snoc]; exact hl₂⟩
    rcases hG₁ x hx with hx | hx
    · exact (hG₂ x hx).imp id (List.mem_append_left ds₁)
    · exact .inr (List.mem_append_right ds₂ hx)

/-- **Garbage is freed by the second complete cycle.** Take any state of any run, an object that is
unreachable there, and any continuation that dereferences no freed object. Once two cycles have
started and completed in it, the object has been dropped since. -/
theorem garbage_freed_by_second_cycle (o : GcOptions) (p q : Sys) (tr : List (Sys × Op)) (x : Addr)
    (hp : Reach (Step 1 UsesReachable) (· = ⟨.fresh o, .waiting⟩) p) (h : Run (Step 1 UsesReachable) p tr q)
    (hf : ∀ e ∈ tr, e.1.st.mem.fault = false) (hq : q.st.mem.fault = false)
    (hx : p.st.mem.alive x = true) (hg : ¬ LiveReachable p.st.mem x) (h2 : 2 ≤ (tally tr).cycles) :
    ∃ ds, q.st.mem.dropped = ds ++ p.st.mem.dropped ∧ x ∈ ds := by
  have hbase : Base p := hp.inv (I := Base) (by rintro _ rfl; exact base_fresh o) fun _ _ _ hi h =>
    base_step (fun _ _ ha => ha.mono fun _ _ => trivial) hi h
  have hleft : Left {y | p.st.mem.alive y = true ∧ ¬ LiveReachable p.st.mem y} ⟨0, false⟩ p := by
    refine ⟨hbase, garbage_of_unreachable p.st.mem, fun hc => ?_, fun h1 => ?_, fun h2 => ?_⟩
    · simp [Cleared] at hc
    · simp at h1
    · simp at h2
  obtain ⟨G', ds, hd, hG, hl⟩ := left_run h hleft hf hq
  refine ⟨ds, hd, (hG x ⟨hx, hg⟩).resolve_left ?_⟩
  rw [hl.none h2]
  exact Set.notMem_empty x

/-- An aborted cycle leaves `1` Gray and queued, and then the only pointer to it is overwritten. The
first cycle after that traces `1` and keeps it; the second one frees it. -/
theorem garbage_freed_by_second_cycle_stale : ∃ (p q : Sys) (tr : List (Sys × Op)),
    Reach (Step 1 UsesReachable) (· = ⟨.fresh .default, .waiting⟩) p ∧ Run (Step 1 UsesReachable) p tr q ∧
    (tally tr).cycles = 2 ∧ p.st.mem.dropped = [] ∧ p.st.heap.grayQueue = [1] ∧ 1 ∈ q.st.mem.dropped := by
  have h₁ : Reach (Step 1 UsesReachable) (· = ⟨.fresh .default, .waiting⟩) _ := .step (.init rfl)
    (Step.mutate (.allocate 1 (.node 48 [])) ⟨rfl, fun q hq => by cases hq⟩)
  have h₂ := h₁.step (Step.mutate (.allocate 2 (.node 48 [1])) ⟨by decide, fun q hq => by
    obtain rfl : q = 1 := List.mem_singleton.1 hq
    exact ⟨1, ⟨by decide, by decide⟩, .refl⟩⟩)
  have h₃ := h₂.step (Step.mutate (.dropRoot 1) ⟨by decide, by decide⟩)
  have h₄ := h₃.step (Step.start 2 rfl (Option.eq_some_of_isSome (by decide)))
  have h₅ := h₄.step (Step.mark_more (b := 1) (by decide) (by decide))
  have h₆ := h₅.step Step.abort
  have h₇ := h₆.step (Step.mutate (.set 2 0 []) ⟨by decide, by decide, fun q hq => by cases hq⟩)
  have r₀ := (fun {p : Sys} (_ : Reach (Step 1 UsesReachable) (· = ⟨.fresh .default, .waiting⟩) p) =>
    (Run.nil p : Run (Step 1 UsesReachable) p [] p)) h₇
  have r₁ := r₀.snoc (Step.start 2 rfl (Option.eq_some_of_isSome (by decide)))
  have r₂ := r₁.snoc (Step.mark_more (b := 5) (by decide) (by decide))
  have r₃ := r₂.snoc (Step.mark_found (b := 5) (by decide) (by decide))
  have r₄ : Run (Step 1 UsesReachable) _ _ ⟨_, .complete⟩ := r₃.snoc Step.busyCheck
  have r₅ := r₄.snoc (Step.sweep 2 (Option.eq_some_of_isSome (by decide)))
  have r₆ := r₅.snoc (Step.start 2 rfl (Option.eq_some_of_isSome (by decide)))
  have r₇ := r₆.snoc (Step.mark_more (b := 5) (by decide) (by decide))
  have r₈ := r₇.snoc (Step.mark_found (b := 5) (by decide) (by decide))
  have r₉ : Run (Step 1 UsesReachable) _ _ ⟨_, .complete⟩ := r₈.snoc Step.busyCheck
  have r₁₀ := r₉.snoc (Step.sweep 2 (Option.eq_some_of_isSome (by decide)))
  have hfreed := garbage_freed_by_second_cycle .default _ _ _ 1 h₇ r₁₀
  refine (hfreed ?fault (by decide) (by decide) ?garbage (by decide)).elim fun ds hd =>
    ⟨_, _, _, h₇, r₁₀, by decide, by decide, by decide, by rw [hd.1]; exact List.mem_append_left _ hd.2⟩
  case fault =>
    intro e he
    simp only [List.nil_append, List.cons_append, List.mem_cons, List.not_mem_nil, or_false] at he
    rcases he with rfl | rfl | rfl | rfl | rfl | rfl | rfl | rfl | rfl | rfl <;> decide
  case garbage =>
    rintro ⟨r, ⟨hal, hr⟩, hpath⟩
    have hal' : Function.update (Function.update (fun _ => false) 1 true) 2 true r = true := hal
    -- only `2` has a root, and it stores nothing
    have h2 : r = 2 := by
      by_contra h2
      by_cases h1 : r = 1
      · subst h1
        exact absurd hr (by decide)
      · simp [Function.update_of_ne h2, Function.update_of_ne h1] at hal'
    subst h2
    rcases hpath.cases_head with h | ⟨c, ⟨_, he⟩, _⟩
    · cases h
    · have he' : c ∈ ([] : List Addr) := he
      cases he'

end Abfall.Reclaim
