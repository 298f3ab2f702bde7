import Abfall.Tricolor
/-!
# The background collector between mutator operations

| here | there |
| --- | --- |
| `BgPc`          | where `background_gc_thread` stands (`heap.rs:614-649`) |
| `Step.start`    | `should_collect`, `try_start_marking` and the root scan (`:622-625`) |
| `Step.mark`     | one `do_mark_incremental` (`:634`) |
| `Step.busyCheck`| `yield_once_if_marking_busy` after a call that found no work (`:637`) |
| `Step.sweep`    | `sweep_and_finish` (`:647`) |

Roots are scanned once, when marking starts. An object that is allocated or rooted later keeps itself
alive by its root count, but nothing traces what it points to: `GcHeader::new` makes it White, and
`do_mark_roots` is not run again. `Spared` says what this asks of the mutators, step by step; a run
whose steps all meet it never frees a reachable object (`sweep_spares_reachable`), and
`sweep_frees_reachable` is a run that does.
-/
namespace Abfall.Incremental
open Chain Transition

inductive BgPc
  | waiting
  | marking
  /-- `do_mark_incremental` returned true; the busy counter has not been read yet. -/
  | found
  | complete
deriving DecidableEq, Repr

structure Sys where
  st : St
  pc : BgPc

inductive Op
  | start (fuel : Nat)
  | mark (workBudget : Nat)
  | busyCheck
  | sweep (fuel : Nat)
  | mutate (op : MutOp)

inductive Step : Sys → Op → Sys → Prop
  | start {s s' : St} {h : Heap} (fuel : Nat) : s.heap.shouldCollect = true →
      s.heap.tryStartMarking = (h, true) → St.doMarkRoots fuel ⟨s.mem, h⟩ [] = some s' →
      Step ⟨s, .waiting⟩ (.start fuel) ⟨s', .marking⟩
  | mark {s : St} (b : Nat) : 1 ≤ b →
      Step ⟨s, .marking⟩ (.mark b)
        ⟨(s.doMarkIncremental b).1, if (s.doMarkIncremental b).2 then .found else .marking⟩
  | busyCheck {s : St} :
      Step ⟨s, .found⟩ .busyCheck ⟨s, if 0 < s.heap.nBusyMarking then .marking else .complete⟩
  | sweep {s s' : St} {fuel live : Nat} : s.sweepAndFinish fuel = some (s', live) →
      Step ⟨s, .complete⟩ (.sweep fuel) ⟨s', .waiting⟩
  | mutate {s : St} {pc : BgPc} (op : MutOp) : op.Allowed s.mem.Reachable s →
      Step ⟨s, pc⟩ (.mutate op) ⟨s.mutate op, pc⟩

/-! ## What keeps a late root harmless -/

/-- Every pointer stored in the object at `a` is to an object that is not White. -/
def Shaded (m : Mem) (a : Addr) : Prop := ∀ b, m.Edge a b → m.color b ≠ .white

/-- While marking is in progress no new root holds a pointer that the collector may never see: the
initial pointers of a new object are shaded when its box is made (after the assist), and an object
that is rooted is shaded itself or stores shaded pointers only. -/
def Spared (p : Sys) : Op → Prop
  | .mutate (.allocate _ d) => p.st.heap.phase = .marking → ∀ q ∈ d.ptrs, p.st.assist.mem.color q ≠ .white
  | .mutate (.root a) => p.st.heap.phase = .marking → p.st.mem.color a ≠ .white ∨ Shaded p.st.mem a
  | _ => True

theorem Shaded.mono {m m' : Mem} {a : Addr} (hs : Shades m m') (h : Shaded m a) : Shaded m' a := by
  intro b he
  rw [hs.same.edge] at he
  exact hs.mono b (h b he)

/-- A root is not White, or what it points to is not. -/
def RootOk (m : Mem) : Prop := ∀ a, m.Rooted a → m.color a ≠ .white ∨ Shaded m a

theorem RootOk.mono {m m' : Mem} (hs : Shades m m') (h : RootOk m) : RootOk m' := fun a ha =>
  (h a ((hs.same.rooted a).1 ha)).imp (hs.mono a) (Shaded.mono hs)

theorem RootOk.push {s : St} {a : Addr} {d : Data} (h : RootOk s.mem) (hwf : WF s) (ha : s.mem.alive a = false)
    (hd : ∀ p ∈ d.ptrs, s.mem.alive p = true ∧ s.mem.color p ≠ .white) : RootOk (s.push a d).mem := by
  have hne : ∀ {y}, s.mem.alive y = true → y ≠ a := by rintro y hy rfl; simp [ha] at hy
  have hcol : ∀ {y}, s.mem.alive y = true → (s.push a d).mem.color y = s.mem.color y := fun hy =>
    Function.update_of_ne (hne hy) _ _
  rintro x ⟨hx, hr⟩
  by_cases hxa : x = a
  · -- the new object is White; its pointers are shaded
    refine .inr fun y he => ?_
    rcases St.push_edge.1 he with ⟨_, hy⟩ | ⟨hn, _⟩
    · rw [hcol (hd y hy).1]; exact (hd y hy).2
    · exact absurd hxa hn
  · have hal : s.mem.alive x = true := (St.push_alive.1 hx).resolve_left hxa
    have hr' : 0 < s.mem.rootCount x := by
      change 0 < Function.update s.mem.rootCount a 1 x at hr
      rwa [Function.update_of_ne hxa] at hr
    refine (h x ⟨hal, hr'⟩).imp (fun hc => by rw [hcol hal]; exact hc) fun hs y he => ?_
    have he' : s.mem.Edge x y := (St.push_edge.1 he).elim (fun h => absurd h.1 hxa) fun h => h.2
    rw [hcol (hwf.sane.closed x y hal he')]
    exact hs y he'

/-- Only the object whose count changes can become a root. -/
theorem RootOk.setRootCount {m : Mem} {a : Addr} {n : Nat} (h : RootOk m) (ha : m.color a ≠ .white ∨ Shaded m a) :
    RootOk ((m.touch a).setRootCount a n) := by
  rintro x ⟨hx, hr⟩
  by_cases hxa : x = a
  · subst hxa; exact ha
  · refine h x ⟨hx, ?_⟩
    change 0 < Function.update m.rootCount a n x at hr
    rwa [Function.update_of_ne hxa] at hr

theorem RootOk.storeCell {s : St} {o : Addr} {k : Nat} {vals : List Addr} (h : RootOk s.mem)
    (hv : ∀ p ∈ vals, s.mem.color p ≠ .white) : RootOk (s.storeCell o k vals).mem := by
  intro a ha
  refine (h a ha).imp id fun hs b he => ?_
  rcases St.storeCell_edge he with ⟨_, hb⟩ | he
  · exact hv b hb
  · exact hs b he

/-! ## After a call that found no work -/

/-- Marking is complete: what is shaded stores shaded pointers only, and what is queued since then is
shaded. -/
structure Done (m : Mem) (W : Set Addr) : Prop where
  closed : ∀ a, m.alive a = true → m.color a ≠ .white → Shaded m a
  queued : ∀ x ∈ W, m.alive x = true ∧ m.color x ≠ .white

theorem Done.of_same {m m' : Mem} {W : Set Addr} (h : Done m W) (hs : m.SameObjects m')
    (hc : ∀ x, m'.color x ≠ .white ↔ m.color x ≠ .white) : Done m' W := by
  refine ⟨fun a ha hw b he => ?_, fun x hx => ?_⟩
  · rw [hs.alive] at ha
    rw [hs.edge] at he
    exact (hc b).2 (h.closed a ha ((hc a).1 hw) b he)
  · rw [hs.alive]
    exact ⟨(h.queued x hx).1, (hc x).2 (h.queued x hx).2⟩

/-- Shading an object whose pointers are shaded already. -/
theorem Done.mark {m : Mem} {V : Set Addr} {t : Tracer} {p : Addr} (h : Done m (V ∪ {x | x ∈ t}))
    (hp : m.alive p = true) (hs : Shaded m p) :
    Done (m.mark t p).1 (V ∪ {x | x ∈ (m.mark t p).2}) := by
  have hsame := m.mark_same t p
  have hmono : ∀ x, m.color x ≠ .white → (m.mark t p).1.color x ≠ .white := fun x => m.mark_mono t p
  have hback : ∀ x, x ≠ p → (m.mark t p).1.color x ≠ .white → m.color x ≠ .white := by
    intro x hx
    rcases m.mark_cases t p with ⟨_, e⟩ | ⟨_, e⟩ | ⟨_, e⟩ <;> rw [e] <;> simp [hx]
  refine ⟨fun a ha hw b he => ?_, fun x hx => ?_⟩
  · rw [hsame.alive] at ha
    rw [hsame.edge] at he
    by_cases hap : a = p
    · exact hmono b (hs b (hap ▸ he))
    · exact hmono b (h.closed a ha (hback a hap hw) b he)
  · rw [hsame.alive]
    by_cases hxp : x = p
    · subst hxp; exact ⟨hp, m.mark_nonwhite t x⟩
    · have hx' : x ∈ V ∪ {x | x ∈ t} := by
        refine hx.imp id fun ht => ?_
        rcases m.mark_cases t p with ⟨_, e⟩ | ⟨_, e⟩ | ⟨_, e⟩ <;> rw [e] at ht
        · exact ht
        · exact (List.mem_cons.1 ht).resolve_left hxp
        · exact ht
      exact ⟨(h.queued x hx').1, hmono x (h.queued x hx').2⟩

theorem Done.markAll {m : Mem} {V : Set Addr} {t : Tracer} (ps : List Addr) (h : Done m (V ∪ {x | x ∈ t}))
    (hp : ∀ p ∈ ps, m.alive p = true ∧ Shaded m p) :
    Done (Mem.markAll ps m t).1 (V ∪ {x | x ∈ (Mem.markAll ps m t).2}) := by
  refine (Mem.markAll_rule (K := fun m' t => Shades m m' ∧ Done m' (V ∪ {x | x ∈ t}))
    (fun m' t p hpm hk => ⟨?_, ?_⟩) ⟨⟨.refl _, fun _ h => h⟩, h⟩).2
  · exact ⟨hk.1.same.trans (m'.mark_same t p), fun x hx => m'.mark_mono t p (hk.1.mono x hx)⟩
  · exact hk.2.mark (by rw [hk.1.same.alive]; exact (hp p hpm).1) ((hp p hpm).2.mono hk.1)

/-- Objects that are still queued may be processed. -/
theorem done_process : ProcessKeeps fun m W => Sane m W ∧ Done m W := by
  rintro m t q a ⟨hsane, h⟩
  refine ⟨sane_process m t q a hsane, ?_⟩
  obtain ⟨hal, hw⟩ := h.queued a (Set.mem_insert a _)
  have htr : Done ((m.touch a).trace t a).1 ({x | x ∈ q} ∪ {x | x ∈ ((m.touch a).trace t a).2}) := by
    have h0 : Done (m.touch a) ({x | x ∈ q} ∪ {x | x ∈ t}) := by
      refine ⟨h.closed, ?_⟩
      rintro x (hx | hx)
      · exact h.queued x (.inr (.inr hx))
      · exact h.queued x (.inr (.inl hx))
    unfold Mem.trace
    split
    · exact h0
    · refine h0.markAll _ fun p hp => ?_
      have hpal := hsane.closed a p hal hp
      exact ⟨hpal, h.closed p hpal (h.closed a hal hw p hp)⟩
  have hwa : ((m.touch a).trace t a).1.color a ≠ .white := by
    unfold Mem.trace
    split
    · exact hw
    · exact Mem.markAll_mono _ _ _ hw
  -- `a` was not White before it is blackened
  have hblack : Done (m.processObject t a).1 ({x | x ∈ q} ∪ {x | x ∈ ((m.touch a).trace t a).2}) := by
    refine htr.of_same (Mem.setColor_same _ a .black) fun x => ?_
    change (Mem.setColor _ a .black).color x ≠ .white ↔ _
    rw [Mem.setColor_color]
    split
    · rename_i hxa; subst hxa; simpa using hwa
    · rfl
  refine ⟨hblack.closed, ?_⟩
  rintro x (hx | hx)
  · exact hblack.queued x (.inr hx)
  · exact hblack.queued x (.inl hx)

theorem Done.push {s : St} {a : Addr} {d : Data} {W : Set Addr} (h : Done s.mem W) (hwf : WF s)
    (ha : s.mem.alive a = false) : Done (s.push a d).mem W := by
  have hcol : ∀ {y}, s.mem.alive y = true → (s.push a d).mem.color y = s.mem.color y := by
    intro y hy
    refine Function.update_of_ne ?_ _ _
    rintro rfl; simp [ha] at hy
  refine ⟨fun x hx hw y he => ?_, fun x hx => ?_⟩
  · have hxa : x ≠ a := by
      rintro rfl
      exact hw (Function.update_self _ _ _)
    have hal : s.mem.alive x = true := (St.push_alive.1 hx).resolve_left hxa
    have he' : s.mem.Edge x y := (St.push_edge.1 he).elim (fun h => absurd h.1 hxa) fun h => h.2
    rw [hcol hal] at hw
    rw [hcol (hwf.sane.closed x y hal he')]
    exact h.closed x hal hw y he'
  · obtain ⟨hal, hw⟩ := h.queued x hx
    exact ⟨St.push_alive.2 (.inr hal), by rw [hcol hal]; exact hw⟩

theorem Done.storeCell {s : St} {o : Addr} {k : Nat} {vals : List Addr} {W : Set Addr} (h : Done s.mem W)
    (hv : ∀ p ∈ vals, s.mem.color p ≠ .white) : Done (s.storeCell o k vals).mem W := by
  refine ⟨fun a ha hw b he => ?_, h.queued⟩
  rcases St.storeCell_edge he with ⟨_, hb⟩ | he
  · exact hv b hb
  · exact h.closed a ha hw b he

/-- Once marking is complete, what is reachable is not White or has a root of its own, and stores
shaded pointers only. -/
theorem shaded_of_reachable {s : St} (hwf : WF s) (hr : RootOk s.mem) (hd : Done s.mem (waiting [] s.heap.grayQueue))
    {a : Addr} (ha : s.mem.Reachable a) : (s.mem.color a ≠ .white ∨ s.mem.Rooted a) ∧ Shaded s.mem a := by
  refine ha.of_closed (S := fun a => (s.mem.color a ≠ .white ∨ s.mem.Rooted a) ∧ Shaded s.mem a ∧ s.mem.alive a = true)
    (fun a ha => ?_) (fun a b h he => ?_) |>.imp id And.left
  · exact ⟨.inr ha, (hr a ha).elim (hd.closed a ha.1) id, ha.1⟩
  · have hal := hwf.sane.closed a b h.2.2 he
    have hw := h.2.1 b he
    exact ⟨.inl hw, hd.closed b hal hw, hal⟩

/-! ## The invariant of a run -/

/-- A heap between two cycles. -/
structure Resting (s : St) : Prop where
  wf : WF s
  phase : s.heap.phase = .idle
  white : ∀ a, s.mem.alive a = true → s.mem.color a = .white

/-- A heap during the marking phase of a cycle. -/
structure Active (s : St) : Prop where
  wf : WF s
  phase : s.heap.phase = .marking
  tri : Tri s.mem (waiting [] s.heap.grayQueue)
  roots : RootOk s.mem

inductive Inv : Sys → Prop
  | waiting {s : St} : Resting s → Inv ⟨s, .waiting⟩
  | marking {s : St} : Active s → Inv ⟨s, .marking⟩
  | found {s : St} : Active s → Done s.mem (waiting [] s.heap.grayQueue) → Inv ⟨s, .found⟩
  | complete {s : St} : Active s → Done s.mem (waiting [] s.heap.grayQueue) → Inv ⟨s, .complete⟩

theorem RootOk.mutate {p : Sys} {op : MutOp} (hwf : WF p.st) (hm : p.st.heap.phase = .marking)
    (ha : op.Allowed p.st.mem.Reachable p.st) (hok : Spared p (.mutate op)) (h : RootOk p.st.mem) :
    RootOk (p.st.mutate op).mem := by
  cases op with
  | allocate a d =>
    have hsame := p.st.assist_same
    refine (h.mono p.st.assist_shades).push hwf.assist (by rw [hsame.alive]; exact ha.1) fun q hq => ?_
    exact ⟨by rw [hsame.alive]; exact hwf.alive_of_reachable (ha.2 q hq), hok hm q hq⟩
  | clone a => exact h.setRootCount (h a ha)
  | dropRoot a => exact h.setRootCount (h a ha)
  | root a => exact h.setRootCount (hok hm)
  | set o k vals =>
    refine (h.mono (p.st.barrier_shades vals)).storeCell fun q hq => ?_
    rw [St.barrier_of_marking hm]
    exact Mem.markAll_nonwhite vals p.st.mem [] q hq

theorem Done.mutate {s : St} {op : MutOp} (hwf : WF s) (hm : s.heap.phase = .marking)
    (ha : op.Allowed s.mem.Reachable s) (hr : RootOk s.mem) (h : Done s.mem (waiting [] s.heap.grayQueue)) :
    Done (s.mutate op).mem (waiting [] (s.mutate op).heap.grayQueue) := by
  cases op with
  | allocate a d =>
    have hassist := St.assist_rule done_process ⟨hwf.sane, h⟩
    exact hassist.2.push hwf.assist (by rw [s.assist_same.alive]; exact ha.1)
  | set o k vals =>
    have h0 : Done s.mem ({x | x ∈ s.heap.grayQueue} ∪ {x | x ∈ ([] : List Addr)}) :=
      ⟨h.closed, fun x hx => h.queued x (.inr (hx.resolve_right (by simp)))⟩
    have hmark := h0.markAll vals fun p hp =>
      ⟨hwf.alive_of_reachable (ha.2.2 p hp), (shaded_of_reachable hwf hr h (ha.2.2 p hp)).2⟩
    show Done ((s.barrier [] vals).1.storeCell o k vals).mem (waiting [] (s.barrier [] vals).1.heap.grayQueue)
    refine Done.storeCell ?_ fun p hp => ?_
    · rw [St.barrier_of_marking hm]
      refine ⟨hmark.closed, ?_⟩
      rintro x (hx | hx)
      · cases hx
      · exact hmark.queued x ((List.mem_append.1 hx).symm)
    · rw [St.barrier_of_marking hm]
      exact Mem.markAll_nonwhite vals s.mem [] p hp
  | _ => exact ⟨h.closed, h.queued⟩

theorem Resting.mutate {s : St} {op : MutOp} (h : Resting s) (ha : op.Allowed s.mem.Reachable s) :
    Resting (s.mutate op) :=
  ⟨h.wf.mutate (fun _ => h.wf.alive_of_reachable) ha, by rw [s.mutate_phase]; exact h.phase,
    St.mutate_white (by rw [h.phase]; decide) h.white⟩

theorem Active.mutate {p : Sys} {op : MutOp} (h : Active p.st) (ha : op.Allowed p.st.mem.Reachable p.st)
    (hok : Spared p (.mutate op)) : Active (p.st.mutate op) :=
  ⟨h.wf.mutate (fun _ => h.wf.alive_of_reachable) ha, by rw [p.st.mutate_phase]; exact h.phase,
    h.tri.mutate h.phase h.wf ha, h.roots.mutate h.wf h.phase ha hok⟩

theorem inv_mutate {p : Sys} {op : MutOp} (hi : Inv p) (ha : op.Allowed p.st.mem.Reachable p.st)
    (hok : Spared p (.mutate op)) : Inv ⟨p.st.mutate op, p.pc⟩ := by
  cases hi with
  | waiting h => exact .waiting (h.mutate ha)
  | marking h => exact .marking (h.mutate ha hok)
  | found h hd => exact .found (h.mutate ha hok) (hd.mutate h.wf h.phase ha h.roots)
  | complete h hd => exact .complete (h.mutate ha hok) (hd.mutate h.wf h.phase ha h.roots)

/-- The root scan shades every root. -/
theorem Resting.start {s s' : St} {h : Heap} {fuel : Nat} (hi : Resting s)
    (hst : s.heap.tryStartMarking = (h, true)) (hr : St.doMarkRoots fuel ⟨s.mem, h⟩ [] = some s') : Active s' := by
  obtain ⟨_, rfl⟩ := Heap.tryStartMarking_true hst
  have hwf : WF ⟨s.mem, s.heap.withPhase .marking⟩ := hi.wf.of_heap rfl rfl rfl
  have hwf' := hwf.doMarkRoots hr
  obtain ⟨l, hl⟩ := hwf.listed
  obtain rfl := St.doMarkRoots_some hl.seg hr
  have htri : Tri s.mem (waiting [] s.heap.grayQueue) := by
    refine ⟨fun a b ha hb _ => ?_, fun a ha hg => ?_⟩
    · rw [hi.white a ha] at hb; cases hb
    · rw [hi.white a ha] at hg; cases hg
  refine ⟨hwf', rfl, ?_, fun a ha => .inl ?_⟩
  · exact (tri_scanRoots l s.mem [] htri).mono fun x hx => .inr (List.mem_append.2 hx)
  · have ha' := ((scanRoots_same l s.mem []).rooted a).1 ha
    exact scanRoots_nonwhite l s.mem [] a (.inr ⟨(hl.alive a).2 ha'.1, ha'.2⟩)

theorem Active.done {s : St} (h : Active s) (hq : s.heap.grayQueue = []) :
    Done s.mem (waiting [] s.heap.grayQueue) := by
  have hempty : Tri s.mem ∅ := h.tri.mono fun x hx => by simp [waiting, hq] at hx
  refine ⟨fun a ha hw b he => (hempty.nonwhite_of_path h.wf.sane.closed ⟨ha, hw⟩ (.single he)).2, fun x hx => ?_⟩
  simp [waiting, hq] at hx

theorem Active.mark {s : St} {b : Nat} (h : Active s) (hb : 1 ≤ b) :
    Inv ⟨(s.doMarkIncremental b).1, if (s.doMarkIncremental b).2 then .found else .marking⟩ := by
  by_cases hz : (s.doMarkWithTracer [] b).2.2 = 0
  · -- no work found: the queue is empty and the call changed nothing
    obtain ⟨_, hq, e⟩ := St.doMarkWithTracer_zero hb hz
    have hc : (s.doMarkIncremental b).2 = true := by simp [St.doMarkIncremental, hz]
    have e' : (s.doMarkIncremental b).1 = s := e
    rw [if_pos hc, e']
    exact .found h (h.done hq)
  · have hc : ¬ (s.doMarkIncremental b).2 = true := by simp [St.doMarkIncremental, hz]
    have hph : (s.doMarkWithTracer [] b).1.heap.phase = .marking := by
      rw [s.doMarkWithTracer_heap]; exact h.phase
    rw [if_neg hc]
    exact .marking ⟨h.wf.doMark b, hph, s.doMarkWithTracer_rule tri_process b h.tri,
      h.roots.mono (s.doMarkWithTracer_shades b)⟩

/-- What the sweep drops is not reachable: it is White and has no root, and what is reachable is
shaded or has one. -/
theorem not_reachable_of_dead {s : St} {l : List Addr} (h : Active s) (hd : Done s.mem (waiting [] s.heap.grayQueue))
    {a : Addr} (ha : a ∈ dead s.mem l) : ¬ s.mem.Reachable a := by
  intro hr
  obtain ⟨_, hw, h0⟩ := mem_dead.1 ha
  rcases (shaded_of_reachable h.wf h.roots hd hr).1 with hc | hc
  · exact hc hw
  · have := hc.2; omega

theorem Active.sweep {s s' : St} {fuel live : Nat} (h : Active s) (hd : Done s.mem (waiting [] s.heap.grayQueue))
    (hs : s.sweepAndFinish fuel = some (s', live)) :
    Resting s' ∧ ∀ a, s.mem.alive a = true → s'.mem.alive a = false → ¬ s.mem.Reachable a := by
  obtain ⟨l, hl⟩ := h.wf.listed
  have hsp := sweepAndFinish_spec hl.seg fun x hx => (hl.alive x).1 hx
  have hlen : l.length ≤ fuel := by
    by_contra hlt
    rw [(hsp fuel).1 (by omega)] at hs
    cases hs
  obtain ⟨m', hd', live', hsw, hlive, e⟩ := (hsp fuel).2 hlen
  rw [e] at hs
  cases hs
  have halive : ∀ x, m'.alive x = true ↔ s.mem.alive x = true ∧ x ∉ dead s.mem l := fun x => by simp [hsw.alive x]
  refine ⟨⟨?_, rfl, fun a ha => ?_⟩, fun a ha hfree => ?_⟩
  · refine wf_of_swept hl h.wf.sane hsw rfl hlive (fun x hx => ⟨hx, fun hdx => ?_⟩) fun a b ha he hb => ?_
    · exact (hd.queued x (.inr hx)).2 (mem_dead.1 hdx).2.1
    · -- a survivor is shaded or has a root; either way its pointers are shaded
      obtain ⟨hal, hnd⟩ := mem_kept.1 ha
      have hal' := (hl.alive a).1 hal
      refine absurd (mem_dead.1 hb).2.1 ?_
      by_cases hw : s.mem.color a = .white
      · have h0 : 0 < s.mem.rootCount a := by
          by_contra h0
          exact hnd (mem_dead.2 ⟨hal, hw, by omega⟩)
        exact (h.roots a ⟨hal', h0⟩).elim (fun hc => absurd hw hc) fun hc => hc b he
      · exact hd.closed a hal' hw b he
  · obtain ⟨hal, hnd⟩ := (halive a).1 ha
    show m'.color a = .white
    rw [hsw.color a, if_pos (mem_kept.2 ⟨(hl.alive a).2 hal, hnd⟩)]
  · refine not_reachable_of_dead h hd (l := l) ?_
    by_contra hnd
    have := (halive a).2 ⟨ha, hnd⟩
    exact absurd (this.symm.trans hfree) (by decide)

theorem step_inv {p p' : Sys} {op : Op} (hi : Inv p) (h : Step p op p') (hok : Spared p op) : Inv p' := by
  cases h with
  | start _ _ hst hr =>
    cases hi with
    | waiting h => exact .marking (h.start hst hr)
  | mark _ hb =>
    cases hi with
    | marking h => exact h.mark hb
  | @busyCheck s =>
    cases hi with
    | found h hd =>
      split
      · exact .marking h
      · exact .complete h hd
  | sweep hs =>
    cases hi with
    | complete h hd => exact .waiting (h.sweep hd hs).1
  | mutate _ ha => exact inv_mutate hi ha hok

theorem Inv.wf {p : Sys} (h : Inv p) : WF p.st := by
  cases h with
  | waiting h => exact h.wf
  | marking h => exact h.wf
  | found h _ => exact h.wf
  | complete h _ => exact h.wf

theorem Inv.of_reach {o : GcOptions} {p : Sys} (hp : Reach (guarded Step Spared) (· = ⟨.fresh o, .waiting⟩) p) : Inv p := by
  refine hp.inv (I := Inv) (fun s h => ?_) fun _ _ _ hi h => step_inv hi h.1 h.2
  subst h
  exact .waiting ⟨wf_fresh o, rfl, fun _ _ => rfl⟩

/-- **No reachable object is freed** in a run whose steps all meet `Spared`: wherever such a run
stands before a sweep, the sweep ends, and what it frees is not reachable. -/
theorem sweep_spares_reachable (o : GcOptions) (p : Sys)
    (hp : Reach (guarded Step Spared) (· = ⟨.fresh o, .waiting⟩) p) :
    (p.pc = .complete → ∃ fuel p', Step p (.sweep fuel) p') ∧
    ∀ fuel p', Step p (.sweep fuel) p' → ∀ a, p.st.mem.alive a = true → p'.st.mem.alive a = false →
      ¬ p.st.mem.Reachable a := by
  have hi : Inv p := .of_reach hp
  refine ⟨fun hpc => ?_, fun fuel p' hst => ?_⟩
  · obtain ⟨s, pc⟩ := p
    obtain rfl : pc = .complete := hpc
    cases hi with
    | complete h hd =>
      obtain ⟨l, hl⟩ := h.wf.listed
      obtain ⟨m', hd', live, _, _, e⟩ :=
        (sweepAndFinish_spec hl.seg (fun x hx => (hl.alive x).1 hx) l.length).2 (Nat.le_refl _)
      exact ⟨_, _, .sweep e⟩
  · cases hst with
    | sweep hs =>
      cases hi with
      | complete h hd => exact (h.sweep hd hs).2

/-- `3` points to `2`, and only `3` has a root when marking starts. The program roots `2` and allocates `4`, which
points to the shaded `3`; the garbage `1` is freed. -/
theorem sweep_spares_reachable_garbage :
    ∃ p fuel p', Reach (guarded Step Spared) (· = ⟨.fresh .default, .waiting⟩) p ∧ Step p (.sweep fuel) p' ∧
      p.st.mem.alive 1 = true ∧ p'.st.mem.alive 1 = false ∧ ¬ p.st.mem.Reachable 1 ∧ p'.st.mem.Rooted 2 ∧
      p'.st.mem.Edge 3 2 ∧ p'.st.mem.Rooted 4 ∧ p'.st.mem.Edge 4 3 ∧ p'.st.mem.alive 3 = true := by
  have h₁ : Reach (guarded Step Spared) (· = ⟨.fresh .default, .waiting⟩) _ := .step (.init rfl)
    ⟨Step.mutate (.allocate 1 (.leaf 2000000)) ⟨rfl, fun q hq => by cases hq⟩, by intro h; cases h⟩
  have h₂ := h₁.step ⟨Step.mutate (.allocate 2 (.leaf 8)) ⟨by decide, fun q hq => by cases hq⟩, by intro h; cases h⟩
  have h₃ := h₂.step ⟨Step.mutate (.allocate 3 (.node 48 [2])) ⟨by decide, fun q hq => by
    obtain rfl : q = 2 := List.mem_singleton.1 hq
    exact Mem.Rooted.reachable ⟨by decide, by decide⟩⟩, by intro h; cases h⟩
  have h₄ := h₃.step ⟨Step.mutate (.dropRoot 1) ⟨by decide, by decide⟩, trivial⟩
  have h₅ := h₄.step ⟨Step.mutate (.dropRoot 2) ⟨by decide, by decide⟩, trivial⟩
  have h₆ := h₅.step ⟨Step.start 3 (by decide) rfl (Option.eq_some_of_isSome (by decide)), trivial⟩
  have h₇ := h₆.step ⟨Step.mutate (.root 2) ⟨3, ⟨by decide, by decide⟩, .single (by decide : 2 ∈ _)⟩,
    fun _ => .inr fun b hb => (by cases (show b ∈ ([] : List Addr) from hb))⟩
  have h₈ := h₇.step ⟨Step.mutate (.allocate 4 (.node 48 [3])) ⟨by decide, fun q hq => by
    obtain rfl : q = 3 := List.mem_singleton.1 hq
    exact Mem.Rooted.reachable ⟨by decide, by decide⟩⟩, fun _ q hq => by
    obtain rfl : q = 3 := List.mem_singleton.1 hq
    decide⟩
  have h₉ : Reach (guarded Step Spared) _ ⟨_, .found⟩ := h₈.step ⟨Step.mark 100 (by decide), trivial⟩
  have h₁₀ : Reach (guarded Step Spared) _ ⟨_, .complete⟩ := h₉.step ⟨Step.busyCheck, trivial⟩
  refine ⟨_, 4, _, h₁₀, Step.sweep (Option.eq_some_of_isSome (by decide)), by decide, by decide, ?_,
    ⟨by decide, by decide⟩, (by decide : 2 ∈ _), ⟨by decide, by decide⟩, (by decide : 3 ∈ _), by decide⟩
  exact (sweep_spares_reachable .default _ h₁₀).2 4 _ (Step.sweep (Option.eq_some_of_isSome (by decide))) 1
    (by decide) (by decide)

/-- `3` points to `2` and `2` to `1`; only `3` has a root. The collector scans it, then the program
roots `2` and overwrites the cell of `3`. Nothing traces `2` any more, and the sweep frees `1`. -/
theorem sweep_frees_reachable :
    ∃ p fuel p', Reach Step (· = ⟨.fresh .default, .waiting⟩) p ∧ Step p (.sweep fuel) p' ∧
      p.st.mem.alive 1 = true ∧ p'.st.mem.alive 1 = false ∧ p.st.mem.Reachable 1 ∧
      p'.st.mem.Rooted 2 ∧ p'.st.mem.Edge 2 1 := by
  have h₁ : Reach Step (· = ⟨.fresh .default, .waiting⟩) _ := .step (.init rfl)
    (Step.mutate (.allocate 1 (.leaf 2000000)) ⟨rfl, fun q hq => by cases hq⟩)
  have h₂ := h₁.step (Step.mutate (.allocate 2 (.node 48 [1])) ⟨by decide, fun q hq => by
    obtain rfl : q = 1 := List.mem_singleton.1 hq
    exact Mem.Rooted.reachable ⟨by decide, by decide⟩⟩)
  have h₃ := h₂.step (Step.mutate (.allocate 3 (.node 48 [2])) ⟨by decide, fun q hq => by
    obtain rfl : q = 2 := List.mem_singleton.1 hq
    exact Mem.Rooted.reachable ⟨by decide, by decide⟩⟩)
  have h₄ := h₃.step (Step.mutate (.dropRoot 1) ⟨by decide, by decide⟩)
  have h₅ := h₄.step (Step.mutate (.dropRoot 2) ⟨by decide, by decide⟩)
  have h₆ := h₅.step (Step.start 3 (by decide) rfl (Option.eq_some_of_isSome (by decide)))
  have h₇ := h₆.step (Step.mutate (.root 2)
    ⟨3, ⟨by decide, by decide⟩, .single (by decide : 2 ∈ _)⟩)
  have h₈ := h₇.step (Step.mutate (.set 3 0 []) ⟨by decide, by decide, fun q hq => by cases hq⟩)
  have h₉ : Reach Step _ ⟨_, .marking⟩ := h₈.step (Step.mark 100 (by decide))
  have h₁₀ : Reach Step _ ⟨_, .found⟩ := h₉.step (Step.mark 100 (by decide))
  have h₁₁ : Reach Step _ ⟨_, .complete⟩ := h₁₀.step Step.busyCheck
  refine ⟨_, 3, _, h₁₁, Step.sweep (Option.eq_some_of_isSome (by decide)), by decide, by decide,
    ⟨2, ⟨by decide, by decide⟩, .single (by decide : 1 ∈ _)⟩, ⟨by decide, by decide⟩, (by decide : 1 ∈ _)⟩

end Abfall.Incremental
