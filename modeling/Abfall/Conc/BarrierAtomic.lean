import Abfall.Conc.Barrier
/-!
# A set is as good as an atomic one, unless it straddles the start of a cycle

A set whose check saw the current cycle never does harm: its value is shaded before the store, and
colors do not go back to White while the phase is Marking. A set whose check came earlier can still
store while the cycle runs (`white_under_black`). `set_atomic` says that nothing else goes wrong.

The invariant follows the collector: between cycles no Black object stores pointers, so a cycle starts
with nothing to worry about; during marking it is the strong tri-color invariant; during the sweep the
Black objects with pointers are still ahead on the list.
-/
namespace Abfall.Barrier
open Chain Transition

/-- An Idle heap, all White, with an empty queue; nobody is inside a call. -/
structure Start (s : Sys) : Prop where
  list : ∃ l, Seg s.st.mem.next s.st.heap.head l none ∧ ∀ x, x ∈ l ↔ s.st.mem.alive x = true
  white : ∀ a, s.st.mem.alive a = true → s.st.mem.color a = .white
  queue : s.st.heap.grayQueue = []
  phase : s.st.heap.phase = .idle
  busy : s.st.heap.nBusyMarking = 0
  collector : s.collector = .rest
  threads : ∀ i, s.threads i = .out

/-- A set whose check did not see the current cycle does not, while the phase is Marking, store a
White pointer into a Black object. -/
def Kept (s : Sys) : Label → Prop
  | .store i => ∀ c n, s.threads i = .store c n → n ≠ some s.cycle → s.st.heap.phase = .marking →
      s.st.mem.alive c.owner = true → s.st.mem.color c.owner = .black → ∀ v ∈ c.vals, s.st.mem.color v ≠ .white
  | _ => True

/-! ## The invariant -/

/-- The only Black objects that store pointers are in `l`. -/
def Calm (m : Mem) (l : List Addr) : Prop :=
  ∀ a, m.alive a = true → m.color a = .black → (m.data a).noTrace = true ∨ a ∈ l

/-- What the colors are like where the collector stands; `pre` is swept, `l` is not. -/
def Colors (m : Mem) (pre l : List Addr) : CollectorPc → Prop
  | .rest | .finishing _ => Calm m []
  | .sweep cur prev _ => PrevOk pre prev ∧ Seg m.next cur l none ∧ Calm m l
  | _ => Strong m

structure Inv (s : Sys) : Prop where
  phase : s.st.heap.phase = s.collector.phase
  list : ∃ pre l, Seg s.st.mem.next s.st.heap.head (pre ++ l) none ∧ (∀ x, x ∈ pre ++ l ↔ s.st.mem.alive x = true) ∧
    Colors s.st.mem pre l s.collector
  cell : ∀ i c, (s.threads i).call = some c → c.cell < (s.st.mem.data c.owner).cells.length
  seen : ∀ i n, (s.threads i).seen = some n → n ≤ s.cycle
  /-- The value of a set that has seen this cycle is shaded, or about to be. -/
  shaded : s.st.heap.phase = .marking → ∀ i c, (s.threads i).seen = some s.cycle → (s.threads i).call = some c →
    ∀ v ∈ c.vals, v ∈ (s.threads i).todo ∨ s.st.mem.color v ≠ .white

theorem colors_marking {m : Mem} {pre l : List Addr} {p : CollectorPc} (hp : p.phase = .marking) :
    Colors m pre l p ↔ Strong m := by
  cases p with
  | rest => cases hp
  | finishing n => cases hp
  | sweep cur prev n => cases hp
  | _ => exact Iff.rfl

theorem Calm.strong {m : Mem} (h : Calm m []) : Strong m := by
  intro a b ha hb he
  have hn := (h a ha hb).resolve_right List.not_mem_nil
  exact absurd he (Mem.not_edge_of_noTrace hn)

theorem Start.inv {s : Sys} (h : Start s) : Inv s where
  phase := by rw [h.phase, h.collector]; rfl
  list := by
    obtain ⟨l, hl, hal⟩ := h.list
    refine ⟨[], l, hl, hal, ?_⟩
    rw [h.collector]
    intro a ha hb
    rw [h.white a ha] at hb
    cases hb
  cell := fun i c hc => by rw [h.threads i] at hc; cases hc
  seen := fun i n hn => by rw [h.threads i] at hn; cases hn
  shaded := fun hm => by rw [h.phase] at hm; cases hm

theorem Inv.strong {s : Sys} (h : Inv s) (hm : s.st.heap.phase = .marking) : Strong s.st.mem := by
  obtain ⟨pre, l, _, _, hc⟩ := h.list
  exact (colors_marking (h.phase.symm.trans hm)).1 hc

/-! ## A set's steps -/

/-- What one step of a set may do to the memory. -/
structure Gentle (m m' : Mem) : Prop where
  next : m'.next = m.next
  alive : m'.alive = m.alive
  cells : ∀ x, (m'.data x).cells.length = (m.data x).cells.length
  mono : ∀ x, m.color x ≠ .white → m'.color x ≠ .white
  calm : ∀ l, Calm m l → Calm m' l

theorem Gentle.refl (m : Mem) : Gentle m m := ⟨rfl, rfl, fun _ => rfl, fun _ h => h, fun _ h => h⟩

/-- Only a NO_TRACE object is blackened at once. -/
theorem gentle_mark (m : Mem) (t : Tracer) (v : Addr) : Gentle m (m.mark t v).1 := by
  have hs := m.mark_same t v
  refine ⟨hs.next, hs.alive, fun x => by rw [hs.data], fun x hx => m.mark_mono t v hx, fun l h a ha hb => ?_⟩
  rw [hs.alive] at ha
  rw [hs.data]
  rcases m.mark_cases t v with ⟨hn, e⟩ | ⟨_, e⟩ | ⟨_, e⟩ <;> rw [e] at hb
  · by_cases hav : a = v
    · subst hav; exact .inl hn
    · exact h a ha (by simpa [hav] using hb)
  · by_cases hav : a = v
    · simp [hav] at hb
    · exact h a ha (by simpa [hav] using hb)
  · exact h a ha hb

theorem gentle_storeCell (s : St) (o : Addr) (k : Nat) (vals : List Addr) : Gentle s.mem (s.storeCell o k vals).mem := by
  have hdata : ∀ x, (s.storeCell o k vals).mem.data x = if x = o then (s.mem.data o).setCell k vals else s.mem.data x :=
    fun x => Function.update_apply _ _ _ _
  refine ⟨rfl, rfl, fun x => ?_, fun x hx => hx, fun l h a ha hb => ?_⟩
  · rw [hdata]
    split
    · rename_i hx
      rw [hx]
      exact List.length_set
    · rfl
  · refine (h a ha hb).imp (fun hn => ?_) id
    rw [hdata]
    split
    · rename_i hx
      subst hx
      exact hn
    · exact hn

theorem Gentle.colors {m m' : Mem} {pre l : List Addr} {p : CollectorPc} (hg : Gentle m m')
    (hs : p.phase = .marking → Strong m → Strong m') (h : Colors m pre l p) : Colors m' pre l p := by
  cases p with
  | rest => exact hg.calm [] h
  | finishing n => exact hg.calm [] h
  | sweep cur prev n =>
    obtain ⟨hprev, hseg, hcalm⟩ := h
    exact ⟨hprev, by rw [hg.next]; exact hseg, hg.calm l hcalm⟩
  | _ => exact hs rfl h

/-- A step of thread `i`. -/
theorem Inv.threadStep {s : Sys} {r : St} {i : ThreadId} {p : SetPc} (h : Inv s) (hg : Gentle s.st.mem r.mem)
    (hhead : r.heap.head = s.st.heap.head) (hphase : r.heap.phase = s.st.heap.phase)
    (hstrong : s.st.heap.phase = .marking → Strong s.st.mem → Strong r.mem)
    (hcell : ∀ c, p.call = some c → c.cell < (s.st.mem.data c.owner).cells.length)
    (hseen : ∀ n, p.seen = some n → n ≤ s.cycle)
    (hshaded : s.st.heap.phase = .marking → p.seen = some s.cycle → ∀ c, p.call = some c →
      ∀ v ∈ c.vals, v ∈ p.todo ∨ r.mem.color v ≠ .white) :
    Inv ((s.setSt r).setThread i p) where
  phase := hphase.trans h.phase
  list := by
    obtain ⟨pre, l, hl, hal, hc⟩ := h.list
    refine ⟨pre, l, ?_, fun x => ?_, ?_⟩
    · show Seg r.mem.next r.heap.head _ _
      rw [hg.next, hhead]
      exact hl
    · show _ ↔ r.mem.alive x = true
      rw [hg.alive]
      exact hal x
    · exact hg.colors (fun hp => hstrong (h.phase.trans hp)) hc
  cell := by
    intro j c hc
    show c.cell < (r.mem.data c.owner).cells.length
    rw [hg.cells]
    by_cases hj : j = i
    · subst hj
      rw [Sys.setThread_threads, Function.update_self] at hc
      exact hcell c hc
    · rw [Sys.setThread_threads, Function.update_of_ne hj] at hc
      exact h.cell j c hc
  seen := by
    intro j n hn
    by_cases hj : j = i
    · subst hj
      rw [Sys.setThread_threads, Function.update_self] at hn
      exact hseen n hn
    · rw [Sys.setThread_threads, Function.update_of_ne hj] at hn
      exact h.seen j n hn
  shaded := by
    intro hm j c hn hc v hv
    have hm' : s.st.heap.phase = .marking := hphase.symm.trans hm
    by_cases hj : j = i
    · subst hj
      rw [Sys.setThread_threads, Function.update_self] at hn hc ⊢
      exact hshaded hm' hn c hc v hv
    · rw [Sys.setThread_threads, Function.update_of_ne hj] at hn hc ⊢
      exact (h.shaded hm' j c hn hc v hv).imp id fun hw => hg.mono v hw

/-- A step of thread `i` that only moves on in its set: queue and counter may change. -/
theorem Inv.threadPc {s : Sys} {r : St} {i : ThreadId} {p : SetPc} (h : Inv s) (hmem : r.mem = s.st.mem)
    (hhead : r.heap.head = s.st.heap.head) (hphase : r.heap.phase = s.st.heap.phase)
    (hcall : p.call = (s.threads i).call) (hseen : p.seen = (s.threads i).seen) (htodo : p.todo = (s.threads i).todo) :
    Inv ((s.setSt r).setThread i p) := by
  refine h.threadStep (by rw [hmem]; exact .refl _) hhead hphase (fun _ hs => by rw [hmem]; exact hs) ?_ ?_ ?_
  · intro c hc
    exact h.cell i c (hcall.symm.trans hc)
  · intro n hn
    exact h.seen i n (hseen.symm.trans hn)
  · intro hm hn c hc v hv
    rw [htodo, hmem]
    exact h.shaded hm i c (hseen.symm.trans hn) (hcall.symm.trans hc) v hv

/-! ## The collector's steps -/

/-- A step of the marking loop. -/
theorem Inv.markStep {s : Sys} {r : St} {p : CollectorPc} (h : Inv s) (hm : s.collector.phase = .marking)
    (hp : p.phase = .marking) (hs : Shades s.st.mem r.mem) (hstrong : Strong s.st.mem → Strong r.mem)
    (hhead : r.heap.head = s.st.heap.head) (hphase : r.heap.phase = s.st.heap.phase) :
    Inv ((s.setSt r).setCollector p) where
  phase := by
    show r.heap.phase = p.phase
    rw [hphase, h.phase, hm, hp]
  list := by
    obtain ⟨pre, l, hl, hal, _⟩ := h.list
    refine ⟨pre, l, ?_, fun x => ?_, (colors_marking hp).2 (hstrong (h.strong (h.phase.trans hm)))⟩
    · show Seg r.mem.next r.heap.head _ _
      rw [hs.same.next, hhead]
      exact hl
    · show _ ↔ r.mem.alive x = true
      rw [hs.same.alive]
      exact hal x
  cell := by
    intro i c hc
    show c.cell < (r.mem.data c.owner).cells.length
    rw [hs.same.data]
    exact h.cell i c hc
  seen := h.seen
  shaded := fun hm' i c hn hc v hv =>
    (h.shaded (hphase.symm.trans hm') i c hn hc v hv).imp id fun hw => hs.mono v hw

/-- The same when the memory is left alone. -/
theorem Inv.markPc {s : Sys} {r : St} {p : CollectorPc} (h : Inv s) (hm : s.collector.phase = .marking)
    (hp : p.phase = .marking) (hmem : r.mem = s.st.mem) (hhead : r.heap.head = s.st.heap.head)
    (hphase : r.heap.phase = s.st.heap.phase) : Inv ((s.setSt r).setCollector p) :=
  h.markStep hm hp ⟨by rw [hmem]; exact .refl _, fun x hx => by rw [hmem]; exact hx⟩
    (fun hst => by rw [hmem]; exact hst) hhead hphase

/-- A step after which the phase is not Marking. -/
theorem Inv.unmarked {s : Sys} {r : St} {p : CollectorPc} (h : Inv s) (hp : p.phase ≠ .marking)
    (hphase : r.heap.phase = p.phase) (hdata : r.mem.data = s.st.mem.data)
    (hlist : ∃ pre l, Seg r.mem.next r.heap.head (pre ++ l) none ∧ (∀ x, x ∈ pre ++ l ↔ r.mem.alive x = true) ∧
      Colors r.mem pre l p) : Inv ((s.setSt r).setCollector p) where
  phase := hphase
  list := hlist
  cell := by
    intro i c hc
    show c.cell < (r.mem.data c.owner).cells.length
    rw [hdata]
    exact h.cell i c hc
  seen := h.seen
  shaded := fun hm => absurd (hphase.symm.trans hm) hp

theorem inv_tryStart {s : Sys} {hp : Heap} (h : Inv s) (hc : s.collector = .rest)
    (hs : s.st.heap.tryStartMarking = (hp, true)) :
    Inv ⟨⟨s.st.mem, hp⟩, s.cycle + 1, .scan s.st.heap.head [], s.threads⟩ := by
  obtain ⟨_, rfl⟩ := Heap.tryStartMarking_true hs
  obtain ⟨pre, l, hl, hal, hcol⟩ := h.list
  rw [hc] at hcol
  refine ⟨rfl, ⟨pre, l, hl, hal, Calm.strong hcol⟩, h.cell, fun i n hn => ?_, fun _ i c hn => ?_⟩
  · exact Nat.le_succ_of_le (h.seen i n hn)
  · -- no set has seen the new cycle yet
    exact absurd (h.seen i _ hn) (Nat.not_succ_le_self _)

theorem inv_startSweeping {s : Sys} (h : Inv s) :
    Inv ((s.setSt ⟨s.st.mem, s.st.heap.startSweeping⟩).setCollector (.sweep s.st.heap.head .head 0)) := by
  obtain ⟨pre, l, hl, hal, _⟩ := h.list
  refine h.unmarked (by simp [CollectorPc.phase]) rfl rfl ⟨[], pre ++ l, hl, hal, rfl, hl, fun a ha _ => ?_⟩
  exact .inr ((hal a).2 ha)

theorem inv_drop {s : Sys} {a : Addr} {prev : PrevNext} {freed : Nat} (h : Inv s)
    (hc : s.collector = .sweep (some a) prev freed) :
    Inv ((s.setSt ⟨((St.storePrev ⟨s.st.mem.touch a, s.st.heap⟩ prev (s.st.mem.next a)).mem).drop a,
        (St.storePrev ⟨s.st.mem.touch a, s.st.heap⟩ prev (s.st.mem.next a)).heap⟩).setCollector
      (.sweep (s.st.mem.next a) prev (freed + (s.st.mem.data a).size))) := by
  obtain ⟨pre, l, hl, hal, hcol⟩ := h.list
  rw [hc] at hcol
  obtain ⟨hprev, hseg, hcalm⟩ := hcol
  obtain ⟨r, rfl, hr⟩ := seg_head hseg
  have haa : s.st.mem.alive a = true := (hal a).1 (by simp)
  rw [Mem.touch_of_alive haa]
  obtain ⟨nx, hd, e, hl', hseg'⟩ := storePrev_unlink hprev hl fun x hx => (hal x).1 (by simp [hx])
  rw [e]
  have hna : a ∉ pre ++ r := (seg_middle hl).1
  refine h.unmarked (by simp [CollectorPc.phase]) ?_ rfl ⟨pre, r, hl', fun x => ?_, hprev, hseg', fun x hx hb => ?_⟩
  · have := h.phase
    rw [hc] at this
    exact this
  · refine Iff.trans ?_ Mem.drop_alive.symm
    rw [mem_unlink hna, hal x]
  · obtain ⟨hxa, hx⟩ := Mem.drop_alive.1 hx
    refine (hcalm x hx hb).imp id fun hm => ?_
    exact (List.mem_cons.1 hm).resolve_left hxa

theorem inv_reset {s : Sys} {a : Addr} {prev : PrevNext} {freed : Nat} (h : Inv s)
    (hc : s.collector = .sweep (some a) prev freed) :
    Inv ((s.setSt ⟨(s.st.mem.touch a).setColor a .white, s.st.heap⟩).setCollector
      (.sweep (s.st.mem.next a) (.nextOf a) freed)) := by
  obtain ⟨pre, l, hl, hal, hcol⟩ := h.list
  rw [hc] at hcol
  obtain ⟨hprev, hseg, hcalm⟩ := hcol
  obtain ⟨r, rfl, hr⟩ := seg_head hseg
  have happ : pre ++ a :: r = (pre ++ [a]) ++ r := by simp
  rw [happ] at hl hal
  refine h.unmarked (by simp [CollectorPc.phase]) ?_ rfl ⟨pre ++ [a], r, hl, hal, ⟨pre, rfl⟩, hr, fun x hx hb => ?_⟩
  · have := h.phase
    rw [hc] at this
    exact this
  · change (Mem.setColor _ a .white).color x = .black at hb
    rw [Mem.setColor_color] at hb
    split at hb
    · cases hb
    · rename_i hxa
      exact (hcalm x hx hb).imp id fun hm => (List.mem_cons.1 hm).resolve_left hxa

theorem inv_finishSweep {s : Sys} {prev : PrevNext} {freed : Nat} (h : Inv s)
    (hc : s.collector = .sweep none prev freed) :
    Inv ((s.setSt ⟨s.st.mem, (s.st.heap.withBytes (s.st.heap.bytesAllocated - freed)).finishGc⟩).setCollector
      (.finishing (s.st.heap.bytesAllocated - freed))) := by
  obtain ⟨pre, l, hl, hal, hcol⟩ := h.list
  rw [hc] at hcol
  obtain ⟨_, hseg, hcalm⟩ := hcol
  obtain rfl : l = [] := by
    cases l with
    | nil => rfl
    | cons b r => exact absurd hseg.1 (by simp)
  exact h.unmarked (by simp [CollectorPc.phase]) rfl rfl ⟨pre, [], hl, hal, hcalm⟩

theorem inv_finish {s : Sys} {live : Nat} (h : Inv s) (hc : s.collector = .finishing live) :
    Inv ((s.setSt ⟨s.st.mem, (s.st.heap.updateThreshold live).finishGc⟩).setCollector .rest) := by
  obtain ⟨pre, l, hl, hal, hcol⟩ := h.list
  rw [hc] at hcol
  exact h.unmarked (by simp [CollectorPc.phase]) rfl rfl ⟨pre, l, hl, hal, hcol⟩

/-! ## Every run -/

theorem step_inv {s s' : Sys} {l : Label} (h : Inv s) (hst : Step s l s') (hok : Kept s l) : Inv s' := by
  cases hst with
  | tryStart hc hs => exact inv_tryStart h hc hs
  | @scan a t hc =>
    exact h.markStep (by rw [hc]; rfl) rfl ⟨s.st.mem.scanRoot_same t a, fun x hx => s.st.mem.scanRoot_mono t a hx⟩
      (Strong.scanRoot t a) rfl rfl
  | scanMerge hc => exact h.markPc (by rw [hc]; rfl) rfl rfl rfl rfl
  | @process p t b n hc _ =>
    exact h.markStep (by rw [hc]; rfl) rfl
      ⟨s.st.mem.processObject_same t p, fun x hx => nonwhite_process x s.st.mem t [] p hx⟩ (Strong.process t p) rfl rfl
  | @steal st t b n hc _ hsteal =>
    simp only [St.stealWork, Option.map_eq_some_iff, Prod.mk.injEq] at hsteal
    obtain ⟨r, _, rfl, _⟩ := hsteal
    exact h.markPc (by rw [hc]; rfl) rfl rfl rfl rfl
  | noWork hc _ _ => exact h.markPc (r := s.st) (by rw [hc]; rfl) rfl rfl rfl rfl
  | @spent t b n hc _ =>
    by_cases ht : t = []
    · rw [if_pos ht]
      exact h.markPc (by rw [hc]; rfl) rfl rfl rfl rfl
    · rw [if_neg ht]
      exact h.markPc (by rw [hc]; rfl) rfl rfl rfl rfl
  | again hc _ => exact h.markPc (r := s.st) (by rw [hc]; rfl) rfl rfl rfl rfl
  | found hc => exact h.markPc (r := s.st) (by rw [hc]; rfl) rfl rfl rfl rfl
  | busy hc _ => exact h.markPc (r := s.st) (by rw [hc]; rfl) rfl rfl rfl rfl
  | quiet hc _ => exact h.markPc (r := s.st) (by rw [hc]; rfl) rfl rfl rfl rfl
  | startSweeping _ => exact inv_startSweeping h
  | drop hc _ => exact inv_drop h hc
  | reset hc _ => exact inv_reset h hc
  | finishSweep hc => exact inv_finishSweep h hc
  | finish hc => exact inv_finish h hc
  | call i c _ _ hk _ =>
    exact h.threadStep (.refl _) rfl rfl (fun _ hs => hs) (fun c' hc => by cases hc; exact hk)
      (fun n hn => by cases hn) (fun _ hn => by cases hn)
  | @seen i c hi _ =>
    refine h.threadStep (r := s.st) (.refl _) rfl rfl (fun _ hs => hs) (fun c' hc => ?_) (fun n hn => ?_) ?_
    · cases hc
      exact h.cell i c (by rw [hi]; rfl)
    · cases hn
      exact Nat.le_refl _
    · intro _ _ c' hc v hv
      cases hc
      exact .inl hv
  | unseen i hi _ => exact h.threadPc (r := s.st) rfl rfl rfl (by rw [hi]; rfl) (by rw [hi]; rfl) (by rw [hi]; rfl)
  | back i hi => exact h.threadPc rfl rfl rfl (by rw [hi]; rfl) (by rw [hi]; rfl) (by rw [hi]; rfl)
  | @shade i c n v todo t hi =>
    refine h.threadStep (gentle_mark _ t v) rfl rfl (fun _ hs => hs.mark t v) (fun c' hc => ?_) (fun n' hn => ?_) ?_
    · cases hc
      exact h.cell i c (by rw [hi]; rfl)
    · cases hn
      exact h.seen i n (by rw [hi]; rfl)
    · intro hm hn c' hc x hx
      cases hc
      have hold := h.shaded hm i c (by rw [hi]; exact hn) (by rw [hi]; rfl) x hx
      rw [hi] at hold
      rcases hold with hd | hw
      · rcases List.mem_cons.1 hd with rfl | hd
        · exact .inr (s.st.mem.mark_nonwhite t x)
        · exact .inl hd
      · exact .inr (s.st.mem.mark_mono t v hw)
  | shaded i hi => exact h.threadPc (r := s.st) rfl rfl rfl (by rw [hi]; rfl) (by rw [hi]; rfl) (by rw [hi]; rfl)
  | merge i hi => exact h.threadPc rfl rfl rfl (by rw [hi]; rfl) (by rw [hi]; rfl) (by rw [hi]; rfl)
  | leave i hi => exact h.threadPc rfl rfl rfl (by rw [hi]; rfl) (by rw [hi]; rfl) (by rw [hi]; rfl)
  | @store i c n hi =>
    refine h.threadStep (gentle_storeCell _ _ _ _) rfl rfl (fun hm hs => ?_) (fun c' hc => by cases hc)
      (fun n hn => by cases hn) (fun _ hn => by cases hn)
    refine hs.storeCell fun ha hb v hv => ?_
    by_cases hn : n = some s.cycle
    · -- it has seen this cycle: its value is shaded
      have hold := h.shaded hm i c (by rw [hi]; exact hn) (by rw [hi]; rfl) v hv
      rw [hi] at hold
      exact hold.resolve_left List.not_mem_nil
    · exact hok c n hi hn hm ha hb v hv

/-- The strong invariant, as long as marking is in progress. -/
def MarkingStrong (s : Sys) : Prop := s.st.heap.phase = .marking → Strong s.st.mem

/-- A pointer written into a cell is stored there. -/
theorem mem_storeCell {s : St} {o v : Addr} {k : Nat} {vals : List Addr} (hk : k < (s.mem.data o).cells.length)
    (hv : v ∈ vals) : (s.storeCell o k vals).mem.Edge o v := by
  have e : (s.storeCell o k vals).mem.data o = (s.mem.data o).setCell k vals := Function.update_self _ _ _
  unfold Mem.Edge Mem.ptrs
  rw [e]
  refine List.mem_flatten.2 ⟨vals, ?_, hv⟩
  exact List.mem_set hk vals

/-- **A set is as good as an atomic one**, exactly in the runs where no set that missed the current
cycle stores a White pointer into a Black object; and in those, whenever the phase becomes Sweeping,
no Black object stores a pointer to a White one. -/
theorem set_atomic (s t : Sys) (tr : List (Sys × Label)) (hs : Start s) (hrun : Run Step s tr t) :
    (((∀ e ∈ tr, MarkingStrong e.1) ∧ MarkingStrong t) ↔ ∀ e ∈ tr, Kept e.1 e.2) ∧
    ((∀ e ∈ tr, Kept e.1 e.2) → ∀ u, Step t .startSweeping u → u.st.heap.phase = .sweeping ∧ Strong u.st.mem) := by
  have hkeep : ∀ u l u', Inv u → Step u l u' → Kept u l → Inv u' := fun _ _ _ h hst hk => step_inv h hst hk
  have hiff : ((∀ e ∈ tr, MarkingStrong e.1) ∧ MarkingStrong t) ↔ ∀ e ∈ tr, Kept e.1 e.2 := by
    refine run_iff_of_inv hrun hs.inv hkeep (fun _ h => h.strong) ?_
    intro u l u' h hst hu
    cases hst with
    | @store i c n hi =>
      intro c' n' hi' _ hm ha hb v hv
      rw [hi] at hi'
      cases hi'
      exact hu hm c.owner v ha hb (mem_storeCell (h.cell i c (by rw [hi]; rfl)) hv)
    | _ => trivial
  refine ⟨hiff, fun hok u hsw => ?_⟩
  have hinv : Inv t := hrun.inv hkeep hs.inv hok
  cases hsw with
  | startSweeping hc => exact ⟨rfl, (hiff.2 hok).2 (by rw [hinv.phase, hc]; rfl)⟩

/-- `1` and `2` are rooted; `2` stores a pointer to `3`. -/
def graph : Mem :=
  (((Mem.empty.newBox 3 (.node 48 [])).setRootCount 3 0).newBox 2 (.node 48 [3])).setNext 2 (some 3)
    |>.newBox 1 (.node 48 []) |>.setNext 1 (some 2)

def begin : Sys := ⟨⟨graph, (Heap.withOptions .default).withHead (some 1)⟩, 0, .rest, fun _ => .out⟩

theorem start_begin : Start begin where
  list := by
    refine ⟨[1, 2, 3], ⟨rfl, rfl, rfl, rfl⟩, fun a => ?_⟩
    simp only [begin, graph, Mem.newBox, Mem.setNext, Mem.setRootCount, Mem.empty, Function.update_apply, List.mem_cons,
      List.not_mem_nil, or_false]
    split
    · simp [*]
    · split
      · simp [*]
      · split <;> simp [*]
  white := by
    intro a _
    simp only [begin, graph, Mem.newBox, Mem.setNext, Mem.setRootCount, Mem.empty, Function.update_apply]
    split
    · rfl
    · split
      · rfl
      · split <;> rfl
  queue := rfl
  phase := rfl
  busy := rfl
  collector := rfl
  threads := fun _ => rfl

/-- The set's check sees Marking: `3` is shaded before it is stored into the Black `1`. -/
theorem set_atomic_seen : ∃ tr t u, Run Step begin tr t ∧ Step t .startSweeping u ∧ u.st.mem.color 1 = .black ∧
    u.st.mem.Edge 1 3 ∧ Strong u.st.mem := by
  have h₁ := (Run.nil begin).snoc (Step.tryStart rfl rfl)
  have h₂ := h₁.snoc (Step.scan rfl)
  have h₃ := h₂.snoc (Step.scan rfl)
  have h₄ := h₃.snoc (Step.scan rfl)
  have h₅ := h₄.snoc (Step.scanMerge rfl)
  have h₆ := h₅.snoc (Step.steal rfl (by decide) rfl)
  have h₇ := h₆.snoc (Step.process rfl (by decide))
  have h₈ := h₇.snoc (Step.call 0 ⟨1, 0, [3]⟩ rfl (by decide) (by decide) (by
    intro p hp
    obtain rfl := List.mem_singleton.1 hp
    exact ⟨2, ⟨by decide, by decide⟩, .single (List.mem_singleton.2 rfl)⟩))
  have h₉ := h₈.snoc (Step.seen 0 rfl rfl)
  have h₁₀ := h₉.snoc (Step.shade 0 rfl)
  have h₁₁ := h₁₀.snoc (Step.shaded 0 rfl)
  have h₁₂ := h₁₁.snoc (Step.merge 0 rfl)
  have h₁₃ := h₁₂.snoc (Step.leave 0 rfl)
  have h₁₄ := h₁₃.snoc (Step.store 0 rfl)
  have h₁₅ := h₁₄.snoc (Step.process rfl (by decide))
  have h₁₆ := h₁₅.snoc (Step.steal rfl (by decide) rfl)
  have h₁₇ := h₁₆.snoc (Step.process rfl (by decide))
  have h₁₈ := h₁₇.snoc (Step.noWork rfl (by decide) rfl)
  have h₁₉ := h₁₈.snoc (Step.again rfl (by decide))
  have h₂₀ := h₁₉.snoc (Step.noWork rfl (by decide) rfl)
  have h₂₁ := h₂₀.snoc (Step.found rfl)
  have h₂₂ := h₂₁.snoc (Step.quiet rfl rfl)
  refine ⟨_, _, _, h₂₂, Step.startSweeping rfl, by decide, List.mem_singleton.2 rfl,
    ((set_atomic _ _ _ start_begin h₂₂).2 ?_ _ (Step.startSweeping rfl)).2⟩
  intro e he
  simp only [List.nil_append, List.cons_append, List.mem_cons, List.not_mem_nil, or_false] at he
  rcases he with rfl | rfl | rfl | rfl | rfl | rfl | rfl | rfl | rfl | rfl | rfl | rfl | rfl | rfl | rfl | rfl | rfl |
    rfl | rfl | rfl | rfl | rfl
  any_goals trivial
  -- the store: the check saw cycle 1
  intro c n hi hn
  cases hi
  exact absurd rfl hn

/-- Thread `0` sets `1`'s cell to `3` and checks the phase while it is Idle. A cycle starts and
blackens `1`; then `3` is stored. Thread `0` overwrites the pointer in `2` before `2` is traced, so
nobody shades `3`: when the phase becomes Sweeping, the Black and rooted `1` stores the White `3`. -/
theorem white_under_black : ∃ s tr t u, Start s ∧ Run Step s tr t ∧ Step t .startSweeping u ∧
    u.st.heap.phase = .sweeping ∧ u.st.mem.Rooted 1 ∧ u.st.mem.color 1 = .black ∧ u.st.mem.Edge 1 3 ∧
    u.st.mem.color 3 = .white := by
  have h₁ := (Run.nil begin).snoc (Step.call 0 ⟨1, 0, [3]⟩ rfl (by decide) (by decide) (by
    intro p hp
    obtain rfl := List.mem_singleton.1 hp
    exact ⟨2, ⟨by decide, by decide⟩, .single (List.mem_singleton.2 rfl)⟩))
  have h₂ := h₁.snoc (Step.unseen 0 rfl rfl)
  have h₃ := h₂.snoc (Step.back 0 rfl)
  have h₄ := h₃.snoc (Step.tryStart rfl rfl)
  have h₅ := h₄.snoc (Step.scan rfl)
  have h₆ := h₅.snoc (Step.scan rfl)
  have h₇ := h₆.snoc (Step.scan rfl)
  have h₈ := h₇.snoc (Step.scanMerge rfl)
  have h₉ := h₈.snoc (Step.steal rfl (by decide) rfl)
  have h₁₀ := h₉.snoc (Step.process rfl (by decide))
  have h₁₁ := h₁₀.snoc (Step.store 0 rfl)
  have h₁₂ := h₁₁.snoc (Step.call 0 ⟨2, 0, []⟩ rfl (by decide) (by decide) (by intro p hp; cases hp))
  have h₁₃ := h₁₂.snoc (Step.seen 0 rfl rfl)
  have h₁₄ := h₁₃.snoc (Step.shaded 0 rfl)
  have h₁₅ := h₁₄.snoc (Step.merge 0 rfl)
  have h₁₆ := h₁₅.snoc (Step.leave 0 rfl)
  have h₁₇ := h₁₆.snoc (Step.store 0 rfl)
  have h₁₈ := h₁₇.snoc (Step.process rfl (by decide))
  have h₁₉ := h₁₈.snoc (Step.noWork rfl (by decide) rfl)
  have h₂₀ := h₁₉.snoc (Step.again rfl (by decide))
  have h₂₁ := h₂₀.snoc (Step.noWork rfl (by decide) rfl)
  have h₂₂ := h₂₁.snoc (Step.found rfl)
  have h₂₃ := h₂₂.snoc (Step.quiet rfl rfl)
  exact ⟨_, _, _, _, start_begin, h₂₃, Step.startSweeping rfl, rfl, ⟨by decide, by decide⟩, by decide,
    List.mem_singleton.2 rfl, by decide⟩

end Abfall.Barrier
