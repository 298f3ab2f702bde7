import Abfall.Wellformed
import Abfall.Transition
/-!
# The tri-color invariant during a marking phase

`Tri m W`: no Black object stores a pointer to a White one, and every Gray object waits in `W`. It is
kept by every step of marking and by every mutator operation, in any order, as long as the phase is
Marking and the mutator's context is on this heap (`markStep_inv`). The barrier of `GcCell::set` shades
the new value before it is stored; a new object is White, and nothing Black points to it yet.
-/
namespace Abfall
open Chain Transition

/-- The strong tri-color invariant: no Black object stores a pointer to a White one. -/
def Strong (m : Mem) : Prop :=
  ∀ a b, m.alive a = true → m.color a = .black → m.Edge a b → m.color b ≠ .white

structure Tri (m : Mem) (W : Set Addr) : Prop where
  strong : Strong m
  gray : ∀ a, m.alive a = true → m.color a = .gray → a ∈ W

theorem Tri.mono {m : Mem} {W W' : Set Addr} (h : Tri m W) (hw : W ⊆ W') : Tri m W' :=
  ⟨h.strong, fun a ha hg => hw (h.gray a ha hg)⟩

/-! ## Marking -/

theorem Strong.mark {m : Mem} (t : Tracer) (p : Addr) (h : Strong m) : Strong (m.mark t p).1 := by
  have hs := m.mark_same t p
  intro a b ha hb he
  rw [hs.alive] at ha
  rw [hs.edge] at he
  rcases m.mark_cases t p with ⟨hn, e⟩ | ⟨_, e⟩ | ⟨_, e⟩
  · -- blackened at once: it has no pointers
    by_cases hap : a = p
    · subst hap; exact absurd he (Mem.not_edge_of_noTrace hn)
    · rw [e] at hb
      exact m.mark_mono t p (h a b ha (by simpa [hap] using hb) he)
  · by_cases hap : a = p
    · rw [e] at hb; simp [hap] at hb
    · rw [e] at hb
      exact m.mark_mono t p (h a b ha (by simpa [hap] using hb) he)
  · rw [e] at hb
    exact m.mark_mono t p (h a b ha hb he)

/-- Processing an object blackens it after all its pointers have been shaded. -/
theorem Strong.process {m : Mem} (t : Tracer) (a : Addr) (h : Strong m) : Strong (m.processObject t a).1 := by
  have htr : Strong ((m.touch a).trace t a).1 := by
    unfold Mem.trace
    split
    · exact h
    · exact Mem.markAll_rule (K := fun m _ => Strong m) (fun _ t p _ hk => hk.mark t p) h
  intro x y hx hb he
  show (Mem.setColor _ a .black).color y ≠ .white
  rw [Mem.setColor_color]
  split
  · decide
  · by_cases hxa : x = a
    · subst hxa
      have he' : (m.touch x).Edge x y := by
        rw [(m.processObject_same t x).edge] at he
        exact he
      exact Mem.trace_nonwhite he'
    · have hb' : ((m.touch a).trace t a).1.color x = .black := by
        change (Mem.setColor _ a .black).color x = .black at hb
        rw [Mem.setColor_color, if_neg hxa] at hb
        exact hb
      exact htr x y hx hb' he

theorem Strong.scanRoot {m : Mem} (t : Tracer) (a : Addr) (h : Strong m) : Strong (m.scanRoot t a).1 := by
  rcases m.scanRoot_cases t a with ⟨_, _, e⟩ | ⟨_, e⟩ <;> rw [e]
  · intro x y hx hb he
    rw [Mem.setColor_color] at hb ⊢
    split at hb
    · cases hb
    · split
      · decide
      · exact h x y hx hb he
  · exact h

theorem Tri.mark {m : Mem} {V : Set Addr} {t : Tracer} {p : Addr} (h : Tri m (V ∪ {x | x ∈ t})) :
    Tri (m.mark t p).1 (V ∪ {x | x ∈ (m.mark t p).2}) := by
  refine ⟨Strong.mark t p h.strong, fun a ha hg => ?_⟩
  rw [(m.mark_same t p).alive] at ha
  rcases m.mark_gray t p hg with hg | hx
  · exact (h.gray a ha hg).imp id fun hx => m.mark_tracer t p hx
  · exact .inr hx

theorem Tri.markAll {m : Mem} {V : Set Addr} {t : Tracer} (ps : List Addr) (h : Tri m (V ∪ {x | x ∈ t})) :
    Tri (Mem.markAll ps m t).1 (V ∪ {x | x ∈ (Mem.markAll ps m t).2}) :=
  Mem.markAll_rule (K := fun m t => Tri m (V ∪ {x | x ∈ t})) (fun _ _ _ _ h => h.mark) h

theorem tri_process : ProcessKeeps Tri := by
  intro m t q a h
  have htr : Tri ((m.touch a).trace t a).1 (insert a {x | x ∈ q} ∪ {x | x ∈ ((m.touch a).trace t a).2}) := by
    have h0 : Tri (m.touch a) (insert a {x | x ∈ q} ∪ {x | x ∈ t}) := by
      refine Tri.mono ⟨h.strong, h.gray⟩ ?_
      rintro x (hx | hx | hx)
      · exact .inl (.inl hx)
      · exact .inr hx
      · exact .inl (.inr hx)
    unfold Mem.trace
    split
    · exact h0
    · exact h0.markAll _
  refine ⟨Strong.process t a h.strong, fun x hx hg => ?_⟩
  change (Mem.setColor _ a .black).color x = .gray at hg
  rw [Mem.setColor_color] at hg
  split at hg
  · cases hg
  · rename_i hxa
    rcases htr.gray x hx hg with (hw | hw) | hw
    · exact absurd hw hxa
    · exact .inr hw
    · exact .inl hw

theorem tri_scanRoots {q : List Addr} : ∀ (l : List Addr) (m : Mem) (t : Tracer), Tri m (waiting t q) →
    Tri (scanRoots l m t).1 (waiting (scanRoots l m t).2 q)
  | [], _, _, h => h
  | a :: l, m, t, h => by
    simp only [scanRoots]
    apply tri_scanRoots l
    refine ⟨Strong.scanRoot t a h.strong, fun x hx hg => ?_⟩
    rw [(m.scanRoot_same t a).alive] at hx
    rcases m.scanRoot_gray t a hg with hg | hx
    · exact (h.gray x hx hg).imp (fun hx => m.scanRoot_tracer t a hx) id
    · exact .inl hx

/-- The scan shades every listed root. -/
theorem scanRoots_nonwhite (l : List Addr) (m : Mem) (t : Tracer) (x : Addr)
    (h : m.color x ≠ .white ∨ (x ∈ l ∧ 0 < m.rootCount x)) : (scanRoots l m t).1.color x ≠ .white := by
  induction l generalizing m t with
  | nil => exact h.resolve_right (by simp)
  | cons a l ih =>
    simp only [scanRoots]
    apply ih
    rw [(m.scanRoot_same t a).rootCount]
    rcases m.scanRoot_cases t a with ⟨_, hw, e⟩ | ⟨hn, e⟩ <;> rw [e]
    · by_cases hxa : x = a
      · exact .inl (by simp [hxa])
      · simp only [Mem.setColor_color, hxa, if_false, Mem.touch_color]
        refine h.imp id ?_
        rintro ⟨hx, hr⟩
        exact ⟨(List.mem_cons.1 hx).resolve_left hxa, hr⟩
    · rcases h with h | ⟨hx, hr⟩
      · exact .inl h
      · rcases List.mem_cons.1 hx with rfl | hx
        · exact .inl fun hw => hn ⟨hr, hw⟩
        · exact .inr ⟨hx, hr⟩

/-- The scan leaves alone what has no root. -/
theorem scanRoots_unrooted {x : Addr} : ∀ (l : List Addr) (m : Mem) (t : Tracer), (x ∈ l → m.rootCount x = 0) →
    (scanRoots l m t).1.color x = m.color x ∧ (x ∈ (scanRoots l m t).2 → x ∈ t)
  | [], _, _, _ => ⟨rfl, id⟩
  | a :: l, m, t, h => by
    obtain ⟨hc, ht⟩ := scanRoots_unrooted l (m.scanRoot t a).1 (m.scanRoot t a).2 fun hx => by
      rw [(m.scanRoot_same t a).rootCount]
      exact h (List.mem_cons_of_mem a hx)
    simp only [scanRoots]
    rcases m.scanRoot_cases t a with ⟨hr, _, e⟩ | ⟨_, e⟩
    · have hxa : x ≠ a := by
        rintro rfl
        exact hr.ne' (h (by simp))
      rw [e] at hc ht ⊢
      refine ⟨hc.trans (by simp [hxa]), fun hx => ?_⟩
      exact (List.mem_cons.1 (ht hx)).resolve_left hxa
    · rw [e] at hc ht ⊢
      exact ⟨hc, ht⟩

/-! ## Mutators -/

/-- Shading never takes a color back. -/
theorem nonwhite_process (x : Addr) : ProcessKeeps fun m _ => m.color x ≠ .white := by
  intro m t q a h
  show (Mem.setColor _ a .black).color x ≠ .white
  rw [Mem.setColor_color]
  split
  · decide
  · unfold Mem.trace
    split
    · exact h
    · exact Mem.markAll_mono _ _ _ h

/-- Marking work took `m` to `m'`: the objects are the same, and none lost its shade. -/
structure Shades (m m' : Mem) : Prop where
  same : m.SameObjects m'
  mono : ∀ x, m.color x ≠ .white → m'.color x ≠ .white

theorem shades_process (m₀ : Mem) : ProcessKeeps fun m _ => Shades m₀ m := fun m t q a h =>
  ⟨h.same.trans (m.processObject_same t a), fun x hx => nonwhite_process x m t q a (h.mono x hx)⟩

theorem St.doMarkWithTracer_shades (s : St) (b : Nat) : Shades s.mem (s.doMarkWithTracer [] b).1.mem :=
  s.doMarkWithTracer_rule (shades_process s.mem) b ⟨.refl _, fun _ h => h⟩

theorem St.assist_shades (s : St) : Shades s.mem s.assist.mem :=
  St.assist_rule (shades_process s.mem) ⟨.refl _, fun _ h => h⟩

theorem St.barrier_shades (s : St) (vals : List Addr) : Shades s.mem (s.barrier [] vals).1.mem := by
  refine ⟨s.barrier_same vals, fun x hx => ?_⟩
  rcases s.barrier_cases vals with e | ⟨_, e⟩ <;> rw [e]
  · exact hx
  · exact Mem.markAll_mono vals _ _ hx

theorem Tri.push {s : St} {a : Addr} {d : Data} {W : Set Addr} (h : Tri s.mem W) (hwf : WF s)
    (ha : s.mem.alive a = false) : Tri (s.push a d).mem W := by
  have hcol : ∀ x, (s.push a d).mem.color x = if x = a then .white else s.mem.color x := fun x =>
    Function.update_apply _ _ _ _
  refine ⟨fun x y hx hb he => ?_, fun x hx hg => ?_⟩
  · rw [hcol] at hb ⊢
    split at hb
    · cases hb
    · rename_i hxa
      have hxl := (St.push_alive.1 hx).resolve_left hxa
      have he' : s.mem.Edge x y := (St.push_edge.1 he).elim (fun h => absurd h.1 hxa) fun h => h.2
      have hya : y ≠ a := by
        rintro rfl
        have := hwf.sane.closed x y hxl he'
        simp [ha] at this
      rw [if_neg hya]
      exact h.strong x y hxl hb he'
  · rw [hcol] at hg
    split at hg
    · cases hg
    · rename_i hxa
      exact h.gray x ((St.push_alive.1 hx).resolve_left hxa) hg

theorem Tri.barrier {s : St} (vals : List Addr) (h : Tri s.mem (waiting [] s.heap.grayQueue)) :
    Tri (s.barrier [] vals).1.mem (waiting [] (s.barrier [] vals).1.heap.grayQueue) := by
  rcases s.barrier_cases vals with e | ⟨_, e⟩ <;> rw [e]
  · exact h
  · have h0 : Tri s.mem ({x | x ∈ s.heap.grayQueue} ∪ {x | x ∈ ([] : List Addr)}) :=
      h.mono fun x hx => .inl (hx.resolve_left (by simp))
    refine (h0.markAll vals).mono ?_
    rintro x (hx | hx)
    · exact .inr (List.mem_append_right _ hx)
    · exact .inr (List.mem_append_left _ hx)

/-- A store into a cell, once the new pointers are shaded. -/
theorem Strong.storeCell {s : St} {o : Addr} {k : Nat} {vals : List Addr} (h : Strong s.mem)
    (hv : s.mem.alive o = true → s.mem.color o = .black → ∀ p ∈ vals, s.mem.color p ≠ .white) :
    Strong (s.storeCell o k vals).mem := by
  intro x y hx hb he
  rcases St.storeCell_edge he with ⟨rfl, hy⟩ | he
  · exact hv hx hb y hy
  · exact h x y hx hb he

theorem Tri.storeCell {s : St} {o : Addr} {k : Nat} {vals : List Addr} {W : Set Addr} (h : Tri s.mem W)
    (hv : s.mem.color o = .black → ∀ p ∈ vals, s.mem.color p ≠ .white) : Tri (s.storeCell o k vals).mem W :=
  ⟨Strong.storeCell h.strong fun _ => hv, h.gray⟩

theorem Tri.setCell {s : St} {o : Addr} {k : Nat} {vals : List Addr} (hm : s.heap.phase = .marking)
    (h : Tri s.mem (waiting [] s.heap.grayQueue)) :
    Tri (s.setCell o k vals).mem (waiting [] (s.setCell o k vals).heap.grayQueue) := by
  refine (h.barrier vals).storeCell fun _ p hp => ?_
  rw [St.barrier_of_marking hm]
  exact Mem.markAll_nonwhite vals s.mem [] p hp

theorem Tri.mutate {s : St} {ok : Addr → Prop} {op : MutOp} (hm : s.heap.phase = .marking) (hwf : WF s)
    (ha : op.Allowed ok s) (h : Tri s.mem (waiting [] s.heap.grayQueue)) :
    Tri (s.mutate op).mem (waiting [] (s.mutate op).heap.grayQueue) := by
  cases op with
  | allocate a d =>
    have hal : s.assist.mem.alive a = false := by rw [s.assist_same.alive]; exact ha.1
    exact (St.assist_rule tri_process h).push hwf.assist hal
  | clone a => exact ⟨h.strong, h.gray⟩
  | dropRoot a => exact ⟨h.strong, h.gray⟩
  | root a => exact ⟨h.strong, h.gray⟩
  | set o k vals => exact h.setCell hm

theorem St.mutate_phase (s : St) (op : MutOp) : (s.mutate op).heap.phase = s.heap.phase := by
  obtain ⟨q, hd, n, e⟩ := s.mutate_heap op
  rw [e]
  rfl

/-- A mutator frees nothing. -/
theorem St.mutate_alive {s : St} (op : MutOp) {x : Addr} (hx : s.mem.alive x = true) :
    (s.mutate op).mem.alive x = true := by
  cases op with
  | allocate a d => exact St.push_alive.2 (.inr (by rw [s.assist_same.alive]; exact hx))
  | set o k vals =>
    show (s.barrier [] vals).1.mem.alive x = true
    rw [(s.barrier_same vals).alive]; exact hx
  | _ => exact hx

/-- Nothing becomes reachable but a new object. -/
theorem St.reachable_of_mutate {s : St} {op : MutOp} {x : Addr} (ha : op.Allowed s.mem.Reachable s)
    (hx : (s.mutate op).mem.Reachable x) : s.mem.Reachable x ∨ ∃ d, op = .allocate x d := by
  -- a count that changes is that of an object the program reaches already
  have hcount : ∀ a n, s.mem.Reachable a → ((s.mem.touch a).setRootCount a n).Reachable x → s.mem.Reachable x := by
    intro a n hr h
    refine Mem.Reachable.of_closed (m := (s.mem.touch a).setRootCount a n) (fun y hy => ?_) (fun y z hy he => hy.next he) h
    by_cases hya : y = a
    · exact hya ▸ hr
    · exact Mem.Rooted.reachable ⟨hy.1, by simpa [Mem.setRootCount, Mem.touch, hya] using hy.2⟩
  cases op with
  | allocate a d =>
    have hsame := s.assist_same
    refine (Mem.Reachable.of_closed (m := (s.assist.push a d).mem) (S := fun y => s.mem.Reachable y ∨ y = a)
      (fun y hy => ?_) (fun y z hy he => ?_) hx).imp id ?_
    · by_cases hya : y = a
      · exact .inr hya
      · have hr : 0 < Function.update s.assist.mem.rootCount a 1 y := hy.2
        rw [Function.update_of_ne hya, hsame.rootCount] at hr
        have hal := (St.push_alive.1 hy.1).resolve_left hya
        rw [hsame.alive] at hal
        exact .inl (Mem.Rooted.reachable ⟨hal, hr⟩)
    · rcases St.push_edge.1 he with ⟨_, hz⟩ | ⟨hne, he⟩
      · exact .inl (ha.2 z hz)
      · rw [hsame.edge] at he
        exact .inl ((hy.resolve_right hne).next he)
    · rintro rfl
      exact ⟨d, rfl⟩
  | clone a => exact .inl (hcount a _ ha.reachable hx)
  | dropRoot a => exact .inl (hcount a _ ha.reachable hx)
  | root a => exact .inl (hcount a _ ha hx)
  | set o k vals =>
    have hsame := s.barrier_same vals
    refine .inl (Mem.Reachable.of_closed (m := ((s.barrier [] vals).1.storeCell o k vals).mem) (fun y hy => ?_)
      (fun y z hy he => ?_) hx)
    · exact Mem.Rooted.reachable ((hsame.rooted y).1 hy)
    · rcases St.storeCell_edge he with ⟨_, hz⟩ | he
      · exact ha.2.2 z hz
      · rw [hsame.edge] at he
        exact hy.next he

theorem St.mutate_dropped (s : St) (op : MutOp) : (s.mutate op).mem.dropped = s.mem.dropped := by
  cases op with
  | allocate a d => exact s.assist_same.dropped
  | set o k vals => exact (s.barrier_same vals).dropped
  | _ => rfl

theorem St.mutate_nonwhite {s : St} {ok : Addr → Prop} {op : MutOp} (ha : op.Allowed ok s) {x : Addr}
    (hx : s.mem.alive x = true) (hc : s.mem.color x ≠ .white) : (s.mutate op).mem.color x ≠ .white := by
  cases op with
  | allocate a d =>
    have hxa : x ≠ a := by rintro rfl; simp [ha.1] at hx
    show Function.update s.assist.mem.color a .white x ≠ .white
    rw [Function.update_of_ne hxa]
    exact s.assist_shades.mono x hc
  | set o k vals => exact (s.barrier_shades vals).mono x hc
  | _ => exact hc

/-! ## Every order of operations of one marking phase -/

/-- A heap during one marking phase; `scanned` are the objects that had a root when `do_mark_roots`
ran. -/
structure MarkPhase where
  st : St
  scanned : Set Addr

inductive MarkOp
  | markRoots (fuel : Nat)
  | mark (workBudget : Nat)
  | mutate (op : MutOp)

inductive MarkStep : MarkPhase → MarkOp → MarkPhase → Prop
  | markRoots {s s' : St} {R : Set Addr} (fuel : Nat) : s.doMarkRoots fuel [] = some s' →
      MarkStep ⟨s, R⟩ (.markRoots fuel) ⟨s', R ∪ {a | s.mem.Rooted a}⟩
  | mark {s : St} {R : Set Addr} (b : Nat) : MarkStep ⟨s, R⟩ (.mark b) ⟨(s.doMarkWithTracer [] b).1, R⟩
  | mutate {s : St} {R : Set Addr} (op : MutOp) : op.Allowed (fun p => s.mem.alive p = true) s →
      MarkStep ⟨s, R⟩ (.mutate op) ⟨s.mutate op, R⟩

/-- A heap that has just entered Marking. -/
structure Entered (p : MarkPhase) : Prop where
  wf : WF p.st
  phase : p.st.heap.phase = .marking
  white : ∀ a, p.st.mem.alive a = true → p.st.mem.color a = .white
  queue : p.st.heap.grayQueue = []
  scanned : p.scanned = ∅

structure MarkPhaseInv (p : MarkPhase) : Prop where
  wf : WF p.st
  phase : p.st.heap.phase = .marking
  tri : Tri p.st.mem (waiting [] p.st.heap.grayQueue)
  scanned : ∀ a ∈ p.scanned, p.st.mem.alive a = true ∧ p.st.mem.color a ≠ .white

theorem Entered.inv {p : MarkPhase} (h : Entered p) : MarkPhaseInv p := by
  refine ⟨h.wf, h.phase, ⟨fun a b ha hb _ => ?_, fun a ha hg => ?_⟩, fun a ha => ?_⟩
  · rw [h.white a ha] at hb; cases hb
  · rw [h.white a ha] at hg; cases hg
  · rw [h.scanned] at ha; cases ha

theorem markStep_inv {p p' : MarkPhase} {op : MarkOp} (h : MarkPhaseInv p) (hst : MarkStep p op p') :
    MarkPhaseInv p' := by
  cases hst with
  | @markRoots s s' R fuel hr =>
    have hwf := h.wf.doMarkRoots hr
    obtain ⟨l, hl⟩ := h.wf.listed
    obtain rfl := St.doMarkRoots_some hl.seg hr
    have hsame := scanRoots_same l s.mem []
    refine ⟨hwf, h.phase, ?_, fun a ha => ?_⟩
    · refine (tri_scanRoots l s.mem [] h.tri).mono fun x hx => .inr (List.mem_append.2 hx)
    · rcases ha with ha | ha
      · obtain ⟨hal, hc⟩ := h.scanned a ha
        exact ⟨by rw [hsame.alive]; exact hal, scanRoots_nonwhite l s.mem [] a (.inl hc)⟩
      · exact ⟨by rw [hsame.alive]; exact ha.1, scanRoots_nonwhite l s.mem [] a (.inr ⟨(hl.alive a).2 ha.1, ha.2⟩)⟩
  | @mark s R b =>
    refine ⟨h.wf.doMark b, ?_, s.doMarkWithTracer_rule tri_process b h.tri, fun a ha => ?_⟩
    · rw [s.doMarkWithTracer_heap]; exact h.phase
    · obtain ⟨hal, hc⟩ := h.scanned a ha
      have hsh := s.doMarkWithTracer_shades b
      exact ⟨by rw [hsh.same.alive]; exact hal, hsh.mono a hc⟩
  | @mutate s R op ha =>
    refine ⟨h.wf.mutate (fun _ h => h) ha, by rw [s.mutate_phase]; exact h.phase, h.tri.mutate h.phase h.wf ha,
      fun a hx => ?_⟩
    obtain ⟨hal, hc⟩ := h.scanned a hx
    exact ⟨St.mutate_alive op hal, St.mutate_nonwhite ha hal hc⟩

/-- With nothing waiting, an object that is not White reaches only objects that are not White. -/
theorem Tri.nonwhite_of_path {m : Mem} (h : Tri m ∅) (hcl : ∀ a b, m.alive a = true → m.Edge a b → m.alive b = true)
    {r a : Addr} (hr : m.alive r = true ∧ m.color r ≠ .white) (hp : Relation.ReflTransGen m.Edge r a) :
    m.alive a = true ∧ m.color a ≠ .white := by
  induction hp with
  | refl => exact hr
  | @tail x y _ he ih =>
    refine ⟨hcl x y ih.1 he, h.strong x y ih.1 ?_ he⟩
    cases hc : m.color x with
    | white => exact absurd hc ih.2
    | gray => exact absurd (h.gray x ih.1 hc) (Set.notMem_empty x)
    | black => rfl

/-- **The tri-color invariant, and what it buys.** In every state of a marking phase no Black object
stores a pointer to a White one and every Gray object is queued. If the queue is empty there, a sweep
that starts now ends and spares all that is reachable from an object that had a root when
`do_mark_roots` ran. -/
theorem tricolor_marking (p : MarkPhase) (hp : Reach MarkStep Entered p) :
    (∀ a b, p.st.mem.alive a = true → p.st.mem.color a = .black → p.st.mem.Edge a b → p.st.mem.color b ≠ .white) ∧
    (∀ a, p.st.mem.alive a = true → p.st.mem.color a = .gray → a ∈ p.st.heap.grayQueue) ∧
    (p.st.heap.grayQueue = [] → (∃ fuel s' live, p.st.doSweep fuel = some (s', live)) ∧
      ∀ fuel s' live, p.st.doSweep fuel = some (s', live) → ∀ r ∈ p.scanned, ∀ a,
        Relation.ReflTransGen p.st.mem.Edge r a → s'.mem.alive a = true ∧ s'.mem.data a = p.st.mem.data a) := by
  have h : MarkPhaseInv p := hp.inv (I := MarkPhaseInv) (fun _ h => h.inv) fun _ _ _ h => markStep_inv h
  refine ⟨h.tri.strong, fun a ha hg => (h.tri.gray a ha hg).resolve_left (by simp), fun hq => ?_⟩
  obtain ⟨l, hl⟩ := h.wf.listed
  have hsw := doSweep_spec hl.seg fun x hx => (hl.alive x).1 hx
  refine ⟨?_, fun fuel s' live hs r hr a hpath => ?_⟩
  · obtain ⟨m', hd', live, _, _, e⟩ := (hsw l.length).2 (Nat.le_refl _)
    exact ⟨_, _, _, e⟩
  · have hlen : l.length ≤ fuel := by
      by_contra hlt
      rw [(hsw fuel).1 (by omega)] at hs
      cases hs
    obtain ⟨m', hd', live', hswept, _, e⟩ := (hsw fuel).2 hlen
    rw [e] at hs
    cases hs
    have htri : Tri p.st.mem ∅ := h.tri.mono fun x hx => by simp [waiting, hq] at hx
    obtain ⟨hal, hc⟩ := htri.nonwhite_of_path h.wf.sane.closed (h.scanned r hr) hpath
    have hnd : a ∉ dead p.st.mem l := fun hd => hc (mem_dead.1 hd).2.1
    exact ⟨by simp [hswept.alive a, hal, hnd], congrFun hswept.data a⟩

/-- `2` stores a pointer to `1`; the root of `2` is scanned and then dropped, before anything is
traced. The sweep still spares `1`. -/
theorem tricolor_marking_dropped_root : ∃ p : MarkPhase, Reach MarkStep Entered p ∧
    p.st.mem.rootCount 1 = 0 ∧ p.st.mem.rootCount 2 = 0 ∧ p.st.heap.grayQueue = [] ∧
    ∃ fuel s' live, p.st.doSweep fuel = some (s', live) ∧ s'.mem.alive 1 = true := by
  let s₀ : St := (((St.fresh .default).mutate (.allocate 1 (.leaf 40))).mutate
    (.allocate 2 (.node 48 [1]))).mutate (.dropRoot 1)
  let s₁ : St := ⟨s₀.mem, s₀.heap.withPhase .marking⟩
  have hwf : WF s₀ := by
    refine WF.mutate (WF.mutate (WF.mutate (wf_fresh _) (fun _ h => h) ?_) (fun _ h => h) ?_) (fun _ h => h) ?_
    · exact ⟨rfl, by decide⟩
    · exact ⟨by decide, by decide⟩
    · exact ⟨by decide, by decide⟩
  have hwhite : ∀ a, s₀.mem.alive a = true → s₀.mem.color a = .white :=
    St.mutate_white (by decide) (St.mutate_white (by decide) (St.mutate_white (by decide) fun _ _ => rfl))
  have h₁ : Reach MarkStep Entered ⟨s₁, ∅⟩ :=
    .init ⟨hwf.of_heap rfl rfl rfl, rfl, hwhite, rfl, rfl⟩
  have h₂ := h₁.step (MarkStep.markRoots 2 (Option.eq_some_of_isSome (by decide)))
  have h₃ := h₂.step (MarkStep.mutate (.dropRoot 2) ⟨by decide, by decide⟩)
  have h₄ := h₃.step (MarkStep.mark 5)
  refine ⟨_, h₄, by decide, by decide, by decide, ?_⟩
  obtain ⟨_, _, hsweep⟩ := tricolor_marking _ h₄
  obtain ⟨⟨fuel, s', live, hs⟩, hkeep⟩ := hsweep (by decide)
  refine ⟨fuel, s', live, hs, (hkeep fuel s' live hs 2 (.inr ⟨by decide, by decide⟩) 1 ?_).1⟩
  exact .single (by decide : 1 ∈ _)

end Abfall
