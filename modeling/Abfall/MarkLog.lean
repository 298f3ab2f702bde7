import Abfall.Tricolor
/-!
# What a marking phase processes and pushes

The marking functions with a log of their rounds:

| here | there |
| --- | --- |
| `doMarkLog`     | the rounds of `do_mark_with_tracer` (`heap.rs:442-464`): each object whose `vtable.trace` is called, with the objects `mark_header` pushed meanwhile |
| `St.assistLog`  | the rounds of an assist (`heap.rs:282-285`) |
| `workFullLog`   | the rounds of `do_mark_work_full` (`heap.rs:494-501`) |

The log computes nothing new: `doMarkLog_length` says that it has `work_done` entries, and the pushes
are what the tracer gained (`Mem.processObject_append`).

`Once` is the invariant behind `marking_traces_once`. A pushed object is not White, so `mark_header`
will not push it again; and it was traced or still waits, so the pushed objects are the traced and the
waiting ones, counted.
-/
namespace Abfall
open Chain Transition

/-- A round of the marking loop: the object that is processed, and what its trace pushes. -/
abbrev Round := Addr × List Addr

def doMarkLog : Nat → St → Tracer → List Round
  | 0, _, _ => []
  | budget + 1, s, t =>
    match s.nextWork t with
    | none => []
    | some (p, s, t) =>
      let r := s.mem.processObject t p
      (p, (s.mem.processObject [] p).2) :: doMarkLog budget ⟨r.1, s.heap⟩ r.2

def St.assistLog (s : St) : List Round :=
  if 0 < s.heap.options.assistWorkBudget then
    let r := s.heap.checkIsMarkingAndIncrementBusy
    if r.2 then doMarkLog s.heap.options.assistWorkBudget ⟨s.mem, r.1⟩ [] else []
  else []

def workFullLog : Nat → St → Tracer → List Round
  | 0, _, _ => []
  | fuel + 1, s, t =>
    let r := s.doMarkWithTracer t s.heap.options.incrementalWorkBudget
    doMarkLog s.heap.options.incrementalWorkBudget s t ++
      if 0 < r.2.2 ∨ 0 < r.1.heap.nBusyMarking then workFullLog fuel r.1 r.2.1 else []

def traced (log : List Round) : List Addr := log.map (·.1)

def pushed (log : List Round) : List Addr := log.flatMap (·.2)

@[simp] theorem traced_cons (r : Round) (log : List Round) : traced (r :: log) = r.1 :: traced log := rfl

@[simp] theorem pushed_cons (r : Round) (log : List Round) : pushed (r :: log) = r.2 ++ pushed log := rfl

@[simp] theorem traced_append (log log' : List Round) : traced (log ++ log') = traced log ++ traced log' :=
  List.map_append

@[simp] theorem pushed_append (log log' : List Round) : pushed (log ++ log') = pushed log ++ pushed log' :=
  List.flatMap_append

theorem doMarkLog_length : ∀ (b : Nat) (s : St) (t : Tracer) (n : Nat),
    (doMarkLoop b s t n).2.2 = n + (doMarkLog b s t).length
  | 0, _, _, _ => rfl
  | b + 1, s, t, n => by
    simp only [doMarkLoop, doMarkLog]
    cases hw : s.nextWork t with
    | none => rfl
    | some r =>
      obtain ⟨p, s', t'⟩ := r
      simp only [List.length_cons]
      rw [doMarkLog_length b]
      omega

/-- An assist is a marking call, or nothing. -/
theorem St.assistLog_cases (s : St) : (s.assist = s ∧ s.assistLog = []) ∨
    (s.heap.phase = .marking ∧ ∃ n, s.assistLog = doMarkLog s.heap.options.assistWorkBudget ⟨s.mem, s.heap.withBusy n⟩ [] ∧
      s.assist = ⟨(St.doMarkWithTracer ⟨s.mem, s.heap.withBusy n⟩ [] s.heap.options.assistWorkBudget).1.mem,
        s.heap.withQueue
          (St.doMarkWithTracer ⟨s.mem, s.heap.withBusy n⟩ [] s.heap.options.assistWorkBudget).1.heap.grayQueue⟩) := by
  unfold St.assist St.assistLog
  split
  swap
  · exact .inl ⟨rfl, rfl⟩
  by_cases hp : s.heap.phase = .marking
  · refine .inr ⟨hp, s.heap.nBusyMarking + 1, ?_, ?_⟩
    · simp only [Heap.checkIsMarking_of_eq hp, ↓reduceIte]
    · simp only [Heap.checkIsMarking_of_eq hp, ↓reduceIte, St.doMarkIncremental, Heap.decrementBusyMarking]
      rw [St.doMarkWithTracer_heap]
      rfl
  · left
    simp only [Heap.checkIsMarking_of_ne hp, Bool.false_eq_true, ↓reduceIte, and_self]

/-! ## A rule that knows what was processed -/

/-- `doMarkLoop_rule` where processing an object asks for `R` of it. `Q` is what holds of each object
when its turn comes. -/
theorem doMarkLog_rule {J : Mem → Set Addr → Prop} {R Q : Addr → Prop}
    (hJ : ∀ (m : Mem) (t q : List Addr) (a : Addr), R a → J m (insert a (waiting t q)) →
      J (m.processObject t a).1 (waiting (m.processObject t a).2 q))
    (hQ : ∀ (m : Mem) (W : Set Addr) (a : Addr), J m (insert a W) → Q a) :
    ∀ (b : Nat) (s : St) (t : Tracer) (n : Nat), (∀ a ∈ traced (doMarkLog b s t), R a) →
      J s.mem (waiting t s.heap.grayQueue) →
      J (doMarkLoop b s t n).1.mem (waiting (doMarkLoop b s t n).2.1 (doMarkLoop b s t n).1.heap.grayQueue) ∧
        ∀ a ∈ traced (doMarkLog b s t), Q a
  | 0, _, _, _, _, h => ⟨h, by simp [doMarkLog, traced]⟩
  | b + 1, s, t, n, hR, h => by
    simp only [doMarkLoop, doMarkLog] at hR ⊢
    cases hw : s.nextWork t with
    | none => exact ⟨h, by simp [traced]⟩
    | some r =>
      obtain ⟨p, s', t'⟩ := r
      obtain ⟨hm, _, hperm⟩ := St.nextWork_some hw
      rw [waiting_of_perm hperm] at h
      simp only [hw, traced_cons, List.mem_cons, forall_eq_or_imp, hm] at hR ⊢
      obtain ⟨ih, hq⟩ := doMarkLog_rule hJ hQ b ⟨(s.mem.processObject t' p).1, s'.heap⟩ _ (n + 1) hR.2
        (hJ s.mem t' s'.heap.grayQueue p hR.1 h)
      exact ⟨ih, hQ _ _ p h, hq⟩

theorem St.doMarkWithTracer_rule_log {J : Mem → Set Addr → Prop} {R Q : Addr → Prop}
    (hJ : ∀ (m : Mem) (t q : List Addr) (a : Addr), R a → J m (insert a (waiting t q)) →
      J (m.processObject t a).1 (waiting (m.processObject t a).2 q))
    (hQ : ∀ (m : Mem) (W : Set Addr) (a : Addr), J m (insert a W) → Q a) {s : St} {t : Tracer} (b : Nat)
    (hR : ∀ a ∈ traced (doMarkLog b s t), R a) (h : J s.mem (waiting t s.heap.grayQueue)) :
    J (s.doMarkWithTracer t b).1.mem (waiting [] (s.doMarkWithTracer t b).1.heap.grayQueue) ∧
      ∀ a ∈ traced (doMarkLog b s t), Q a := by
  obtain ⟨hl, hq⟩ := doMarkLog_rule hJ hQ b s t 0 hR h
  refine ⟨?_, hq⟩
  rw [doMarkWithTracer_mem, doMarkWithTracer_queue]
  have e : waiting [] ((doMarkLoop b s t 0).2.1 ++ (doMarkLoop b s t 0).1.heap.grayQueue) =
      waiting (doMarkLoop b s t 0).2.1 (doMarkLoop b s t 0).1.heap.grayQueue := by
    ext x; simp [waiting]
  rw [e]
  exact hl

theorem St.assist_rule_log {J : Mem → Set Addr → Prop} {R Q : Addr → Prop}
    (hJ : ∀ (m : Mem) (t q : List Addr) (a : Addr), R a → J m (insert a (waiting t q)) →
      J (m.processObject t a).1 (waiting (m.processObject t a).2 q))
    (hQ : ∀ (m : Mem) (W : Set Addr) (a : Addr), J m (insert a W) → Q a) {s : St}
    (hR : ∀ a ∈ traced s.assistLog, R a) (h : J s.mem (waiting [] s.heap.grayQueue)) :
    J s.assist.mem (waiting [] s.assist.heap.grayQueue) ∧ ∀ a ∈ traced s.assistLog, Q a := by
  rcases s.assistLog_cases with ⟨e, el⟩ | ⟨_, n, el, e⟩
  · rw [e, el]
    exact ⟨h, by simp [traced]⟩
  · rw [el] at hR ⊢
    rw [e]
    exact St.doMarkWithTracer_rule_log (s := ⟨s.mem, s.heap.withBusy n⟩) hJ hQ _ hR h

/-! ## What a trace pushes -/

namespace Mem

theorem mark_append (m : Mem) (t t' : Tracer) (p : Addr) :
    m.mark (t ++ t') p = ((m.mark t p).1, (m.mark t p).2 ++ t') := by
  unfold mark markHeader
  split
  · rfl
  · split <;> rfl

theorem markAll_append (ps : List Addr) (m : Mem) (t t' : Tracer) :
    markAll ps m (t ++ t') = ((markAll ps m t).1, (markAll ps m t).2 ++ t') := by
  induction ps generalizing m t with
  | nil => rfl
  | cons p ps ih =>
    simp only [markAll, mark_append]
    exact ih _ _

theorem processObject_append (m : Mem) (t : Tracer) (a : Addr) :
    m.processObject t a = ((m.processObject [] a).1, (m.processObject [] a).2 ++ t) := by
  simp only [processObject, trace]
  split
  · rfl
  · have e := markAll_append ((m.touch a).ptrs a) (m.touch a) [] t
    rw [List.nil_append] at e
    rw [e]

end Mem

/-! ## Nothing is pushed twice -/

/-- `P` was pushed so far, `T` was traced, `w` waits. -/
structure Once (m : Mem) (w P T : List Addr) : Prop where
  nodup : P.Nodup
  perm : P.Perm (T ++ w)
  shaded : ∀ x ∈ P, m.alive x = true ∧ m.color x ≠ .white

variable {m : Mem} {w P T : List Addr}

theorem Once.of_shades {m' : Mem} (h : Once m w P T) (hs : Shades m m') : Once m' w P T :=
  ⟨h.nodup, h.perm, fun x hx => ⟨by rw [hs.same.alive]; exact (h.shaded x hx).1, hs.mono x (h.shaded x hx).2⟩⟩

theorem Once.of_perm {w' : List Addr} (h : Once m w P T) (hw : w'.Perm w) : Once m w' P T :=
  ⟨h.nodup, h.perm.trans (hw.symm.append_left T), h.shaded⟩

/-- A White object is pushed and shaded. -/
theorem Once.push {t : Tracer} {p : Addr} {c : Color} (h : Once m (t ++ w) (P ++ t) T) (hp : m.alive p = true)
    (hw : m.color p = .white) (hc : c ≠ .white) :
    Once ((m.touch p).setColor p c) (p :: t ++ w) (P ++ p :: t) T := by
  have hnew : p ∉ P ++ t := fun hm => (h.shaded p hm).2 hw
  have e : (P ++ p :: t).Perm (p :: (P ++ t)) := List.perm_middle
  refine ⟨e.nodup_iff.2 (List.nodup_cons.2 ⟨hnew, h.nodup⟩), ?_, fun x hx => ?_⟩
  · exact (e.trans (h.perm.cons p)).trans List.perm_middle.symm
  · rcases List.mem_cons.1 (e.mem_iff.1 hx) with rfl | hx
    · exact ⟨hp, by simp [hc]⟩
    · refine ⟨(h.shaded x hx).1, ?_⟩
      rw [Mem.setColor_color]
      split
      · exact hc
      · exact (h.shaded x hx).2

theorem Once.mark {t : Tracer} {p : Addr} (h : Once m (t ++ w) (P ++ t) T) (hp : m.alive p = true) :
    Once (m.mark t p).1 ((m.mark t p).2 ++ w) (P ++ (m.mark t p).2) T := by
  have hsh : Shades m (m.mark t p).1 := ⟨m.mark_same t p, fun x => m.mark_mono t p⟩
  rcases m.mark_cases t p with ⟨_, e⟩ | ⟨hw, e⟩ | ⟨_, e⟩
  · rw [e] at hsh ⊢
    exact h.of_shades hsh
  · rw [e]
    exact h.push hp hw (by decide)
  · rw [e] at hsh ⊢
    exact h.of_shades hsh

theorem Once.markAll {ps : List Addr} (h : Once m w P T) (hp : ∀ p ∈ ps, m.alive p = true) :
    Once (Mem.markAll ps m []).1 ((Mem.markAll ps m []).2 ++ w) (P ++ (Mem.markAll ps m []).2) T := by
  refine (Mem.markAll_rule (K := fun m' t => m.SameObjects m' ∧ Once m' (t ++ w) (P ++ t) T)
    (fun m' t p hps hk => ⟨hk.1.trans (m'.mark_same t p), hk.2.mark ?_⟩) ⟨.refl m, by simpa using h⟩).2
  rw [hk.1.alive]
  exact hp p hps

theorem Once.scanRoots : ∀ (l : List Addr) (m : Mem) (t : Tracer), (∀ a ∈ l, m.alive a = true) →
    Once m (t ++ w) (P ++ t) T →
    Once (scanRoots l m t).1 ((scanRoots l m t).2 ++ w) (P ++ (scanRoots l m t).2) T
  | [], _, _, _, h => h
  | a :: l, m, t, hl, h => by
    simp only [Abfall.scanRoots]
    refine Once.scanRoots l _ _ (fun x hx => by rw [(m.scanRoot_same t a).alive]; exact hl x (by simp [hx])) ?_
    rcases m.scanRoot_cases t a with ⟨_, hw, e⟩ | ⟨_, e⟩ <;> rw [e]
    · exact h.push (hl a (by simp)) hw (by decide)
    · exact h.of_shades ⟨m.touch_same a, fun _ h => h⟩

/-- One round of the marking loop. -/
theorem Once.process {a : Addr} (h : Once m (a :: w) P T) (hp : ∀ p, m.Edge a p → m.alive p = true) :
    Once (m.processObject [] a).1 ((m.processObject [] a).2 ++ w) (P ++ (m.processObject [] a).2) (T ++ [a]) := by
  have hpop : Once (m.touch a) w P (T ++ [a]) := ⟨h.nodup, by simpa using h.perm, h.shaded⟩
  have htr : Once ((m.touch a).trace [] a).1 (((m.touch a).trace [] a).2 ++ w) (P ++ ((m.touch a).trace [] a).2)
      (T ++ [a]) := by
    unfold Mem.trace
    split
    · simpa using hpop
    · exact hpop.markAll hp
  refine htr.of_shades ⟨Mem.setColor_same _ a .black, fun x hx => ?_⟩
  show (Mem.setColor _ a .black).color x ≠ .white
  rw [Mem.setColor_color]
  split
  · decide
  · exact hx

/-- The marking loop, on a heap where every stored pointer is to an allocated object. -/
theorem Once.doMarkLoop : ∀ (b : Nat) (s : St) (t : Tracer) (n : Nat) (P T : List Addr),
    Sane s.mem (waiting t s.heap.grayQueue) → Once s.mem (t ++ s.heap.grayQueue) P T →
    Once (doMarkLoop b s t n).1.mem ((doMarkLoop b s t n).2.1 ++ (doMarkLoop b s t n).1.heap.grayQueue)
      (P ++ pushed (doMarkLog b s t)) (T ++ traced (doMarkLog b s t))
  | 0, _, _, _, P, T, _, h => by simpa [doMarkLog, Abfall.doMarkLoop, traced, pushed] using h
  | b + 1, s, t, n, P, T, hsane, h => by
    simp only [Abfall.doMarkLoop, doMarkLog]
    cases hw : s.nextWork t with
    | none => simpa [traced, pushed] using h
    | some r =>
      obtain ⟨p, s', t'⟩ := r
      obtain ⟨hm, _, hperm⟩ := St.nextWork_some hw
      rw [waiting_of_perm hperm] at hsane
      have hp : s.mem.alive p = true := hsane.waits p (Set.mem_insert p _)
      have hround := (h.of_perm hperm).process fun x hx => hsane.closed p x hp hx
      have ih := Once.doMarkLoop b ⟨(s.mem.processObject t' p).1, s'.heap⟩ (s.mem.processObject t' p).2 (n + 1)
        _ _ (sane_process s.mem t' s'.heap.grayQueue p hsane)
        (by rw [s.mem.processObject_append]; simpa using hround)
      simp only [hm, traced_cons, pushed_cons]
      simpa using ih

theorem Once.doMark {s : St} (b : Nat) (hsane : Sane s.mem (waiting [] s.heap.grayQueue))
    (h : Once s.mem s.heap.grayQueue P T) :
    Once (s.doMarkWithTracer [] b).1.mem (s.doMarkWithTracer [] b).1.heap.grayQueue
      (P ++ pushed (doMarkLog b s [])) (T ++ traced (doMarkLog b s [])) := by
  rw [s.doMarkWithTracer_mem, s.doMarkWithTracer_queue]
  exact Once.doMarkLoop b s [] 0 P T hsane h

theorem Once.assist {s : St} (hsane : Sane s.mem (waiting [] s.heap.grayQueue)) (h : Once s.mem s.heap.grayQueue P T) :
    Once s.assist.mem s.assist.heap.grayQueue (P ++ pushed s.assistLog) (T ++ traced s.assistLog) := by
  rcases s.assistLog_cases with ⟨e, el⟩ | ⟨_, n, el, e⟩ <;> rw [e, el]
  · simpa [traced, pushed] using h
  · exact Once.doMark (s := ⟨s.mem, s.heap.withBusy n⟩) _ hsane h

/-- What was traced is not more than what is allocated. -/
theorem Once.traced_le {l : List Addr} (h : Once m w P T) (hl : ∀ a, m.alive a = true → a ∈ l) :
    T.Nodup ∧ T.length ≤ l.length := by
  have hnd : T.Nodup := (List.nodup_append.1 (h.perm.nodup_iff.1 h.nodup)).1
  refine ⟨hnd, (hnd.subperm fun x hx => hl x ?_).length_le⟩
  exact (h.shaded x (h.perm.mem_iff.2 (List.mem_append_left w hx))).1

theorem Once.workFull : ∀ (fuel : Nat) (s s' : St) (P T : List Addr), doMarkWorkFull fuel s [] = some s' →
    Sane s.mem (waiting [] s.heap.grayQueue) → Once s.mem s.heap.grayQueue P T →
    Once s'.mem s'.heap.grayQueue (P ++ pushed (workFullLog fuel s [])) (T ++ traced (workFullLog fuel s []))
  | 0, _, _, _, _, h, _, _ => by cases h
  | fuel + 1, s, s', P, T, h, hsane, ho => by
    have hsane' := s.doMarkWithTracer_rule sane_process s.heap.options.incrementalWorkBudget hsane
    have ho' := ho.doMark s.heap.options.incrementalWorkBudget hsane
    have ht := s.doMarkWithTracer_tracer [] s.heap.options.incrementalWorkBudget
    simp only [doMarkWorkFull, ht] at h
    simp only [workFullLog, ht]
    split at h
    · rename_i hmore
      have ih := Once.workFull fuel _ s' _ _ h hsane' ho'
      simpa only [hmore, if_true, pushed_append, traced_append, List.append_assoc] using ih
    · rename_i hstop
      cases h
      simpa only [hstop, if_false, List.append_nil] using ho'

/-! ## One marking phase -/

/-- The objects an operation of the phase pushes onto a gray queue. -/
def MarkOp.pushes (p : MarkPhase) : MarkOp → List Addr
  | .markRoots fuel => ((markRootsLoop fuel p.st.mem [] p.st.heap.head).map (·.2)).getD []
  | .mark b => pushed (doMarkLog b p.st [])
  | .mutate (.allocate _ _) => pushed p.st.assistLog
  | .mutate (.set _ _ vals) => if p.st.heap.isMarking then (Mem.markAll vals p.st.mem []).2 else []
  | .mutate _ => []

/-- The objects whose `vtable.trace` it calls. -/
def MarkOp.traces (p : MarkPhase) : MarkOp → List Addr
  | .mark b => traced (doMarkLog b p.st [])
  | .mutate (.allocate _ _) => traced p.st.assistLog
  | _ => []

/-- An object that is not allocated was never pushed, so a new box at its address may be White. -/
theorem Once.newBox {s : St} {a : Addr} {d : Data} (h : Once s.mem w P T) (ha : s.mem.alive a = false) :
    Once (s.push a d).mem w P T := by
  refine ⟨h.nodup, h.perm, fun x hx => ?_⟩
  obtain ⟨hal, hc⟩ := h.shaded x hx
  have hxa : x ≠ a := by rintro rfl; simp [ha] at hal
  refine ⟨St.push_alive.2 (.inr hal), ?_⟩
  show Function.update s.mem.color a .white x ≠ .white
  rw [Function.update_of_ne hxa]
  exact hc

theorem once_step {p p' : MarkPhase} {op : MarkOp} (hi : MarkPhaseInv p) (hst : MarkStep p op p')
    (h : Once p.st.mem p.st.heap.grayQueue P T) :
    Once p'.st.mem p'.st.heap.grayQueue (P ++ op.pushes p) (T ++ op.traces p) := by
  cases hst with
  | @markRoots s s' R fuel hr =>
    obtain ⟨l, hl⟩ := hi.wf.listed
    have hloop := markRootsLoop_eq l fuel s.mem [] s.heap.head hl.seg
    rw [St.doMarkRoots_eq hl.seg] at hr
    split at hr
    swap
    · cases hr
    rename_i hf
    cases hr
    rw [if_pos hf] at hloop
    have hscan := Once.scanRoots l s.mem [] (fun a ha => (hl.alive a).1 ha)
      (by simpa using h : Once s.mem ([] ++ s.heap.grayQueue) (P ++ []) T)
    simpa [MarkOp.pushes, MarkOp.traces, hloop] using hscan
  | @mark s R b => exact h.doMark b hi.wf.sane
  | @mutate s R op ha =>
    cases op with
    | allocate a d => exact (h.assist hi.wf.sane).newBox (by rw [s.assist_same.alive]; exact ha.1)
    | set o k vals =>
      have hm : s.heap.isMarking = true := by simp [Heap.isMarking, show s.heap.phase = .marking from hi.phase]
      have hall := h.markAll ha.2.2
      have hb : Once (s.barrier [] vals).1.mem (s.barrier [] vals).1.heap.grayQueue
          (P ++ (Mem.markAll vals s.mem []).2) T := by
        rw [St.barrier_of_marking hi.phase]
        exact hall
      simp only [MarkOp.pushes, MarkOp.traces, hm, if_true, List.append_nil]
      exact ⟨hb.nodup, hb.perm, hb.shaded⟩
    | _ =>
      simp only [MarkOp.pushes, MarkOp.traces, List.append_nil]
      exact ⟨h.nodup, h.perm, h.shaded⟩

theorem once_run {p q : MarkPhase} {tr : List (MarkPhase × MarkOp)} (hp : Entered p) (h : Run MarkStep p tr q) :
    MarkPhaseInv q ∧ Once q.st.mem q.st.heap.grayQueue (tr.flatMap fun e => e.2.pushes e.1)
      (tr.flatMap fun e => e.2.traces e.1) := by
  induction h with
  | nil => exact ⟨hp.inv, by rw [hp.queue]; exact ⟨by simp, by simp, by simp⟩⟩
  | snoc _ hst ih => exact ⟨markStep_inv ih.1 hst, by simpa using once_step ih.1 hst ih.2⟩

/-- **Marking traces each object once, and ends.** Start a marking phase with White objects and an
empty queue, and let `do_mark_roots`, marking calls, sets and allocations follow in any order: no
object is pushed twice and none is traced twice. Wherever the phase stands, what was traced and what a
further marking call traces, for any budget, is not more than the allocated objects; and with no
assist or barrier in progress `do_mark_work_full` ends, still without tracing an object a second
time. -/
theorem marking_traces_once (p q : MarkPhase) (tr : List (MarkPhase × MarkOp)) (hp : Entered p)
    (h : Run MarkStep p tr q) :
    (tr.flatMap fun e => e.2.pushes e.1).Nodup ∧ (tr.flatMap fun e => e.2.traces e.1).Nodup ∧
    ∃ l, Listed q.st l ∧ l.Nodup ∧
      (∀ b, (tr.flatMap fun e => e.2.traces e.1).length + (q.st.doMarkWithTracer [] b).2.2 ≤ l.length) ∧
      (1 ≤ q.st.heap.options.incrementalWorkBudget → q.st.heap.nBusyMarking = 0 →
        ∃ fuel s', doMarkWorkFull fuel q.st [] = some s' ∧
          ((tr.flatMap fun e => e.2.pushes e.1) ++ pushed (workFullLog fuel q.st [])).Nodup ∧
          ((tr.flatMap fun e => e.2.traces e.1) ++ traced (workFullLog fuel q.st [])).Nodup ∧
          (workFullLog fuel q.st []).length ≤ l.length) := by
  obtain ⟨hi, ho⟩ := once_run hp h
  obtain ⟨l, hl⟩ := hi.wf.listed
  have hsane := hi.wf.sane
  refine ⟨ho.nodup, (ho.traced_le fun a ha => (hl.alive a).2 ha).1, l, hl, seg_nodup hl.seg, fun b => ?_,
    fun hb hbusy => ?_⟩
  · have hal := (doMarkWithTracer_same q.st [] b).alive
    obtain ⟨_, hle⟩ := (ho.doMark b hsane).traced_le (l := l) fun a ha => (hl.alive a).2 (by rw [← hal]; exact ha)
    rw [q.st.doMarkWithTracer_work, doMarkLog_length]
    simpa [traced] using hle
  · -- the measure: White and waiting objects, all of them on the list
    have hwithin : Within l.toFinset q.st.mem (waiting [] q.st.heap.grayQueue) := by
      refine ⟨fun x hx => by simpa [hl.alive] using hsane.waits x hx, fun a b ha he => ?_⟩
      simp only [List.mem_toFinset, hl.alive] at ha ⊢
      exact hsane.closed a b ha he
    obtain ⟨s', hs'⟩ := doMarkWorkFull_total _ q.st [] hwithin hbusy hb (Nat.lt_succ_self _)
    have ho' := Once.workFull _ _ _ _ _ hs' hsane ho
    have hal : s'.mem.alive = q.st.mem.alive :=
      (doMarkWorkFull_rule (J := fun m _ => q.st.mem.SameObjects m) (fun m t _ a h => h.trans (m.processObject_same t a))
        _ _ _ _ hs' hb (.refl _)).1.alive
    obtain ⟨hnd, hle⟩ := ho'.traced_le (l := l) fun a ha => (hl.alive a).2 (by rw [← hal]; exact ha)
    refine ⟨_, s', hs', ho'.nodup, hnd, ?_⟩
    simp only [List.length_append, traced, List.length_map] at hle
    omega

/-- `1` and `2` point to each other and `2` also to itself; only `2` has a root. After the root scan the
assist of an allocation traces both, and a set then shades nothing new. -/
theorem marking_traces_once_cycle : ∃ (p q : MarkPhase) (tr : List (MarkPhase × MarkOp)), Entered p ∧
    Run MarkStep p tr q ∧ (tr.flatMap fun e => e.2.traces e.1) = [2, 1] ∧
    (tr.flatMap fun e => e.2.pushes e.1).Nodup ∧ ∃ fuel s', doMarkWorkFull fuel q.st [] = some s' := by
  let s₀ : St := (((((St.fresh .default).mutate (.allocate 1 (.node 48 []))).mutate
    (.allocate 2 (.node 48 [1]))).mutate (.set 1 0 [2])).mutate (.set 2 0 [1, 2])).mutate (.dropRoot 1)
  let s₁ : St := ⟨s₀.mem, s₀.heap.withPhase .marking⟩
  have hwf : WF s₀ := by
    refine WF.mutate (WF.mutate (WF.mutate (WF.mutate (WF.mutate (wf_fresh _) (fun _ h => h) ?_) (fun _ h => h) ?_)
      (fun _ h => h) ?_) (fun _ h => h) ?_) (fun _ h => h) ?_
    · exact ⟨rfl, by decide⟩
    · exact ⟨by decide, by decide⟩
    · exact ⟨by decide, by decide, by decide⟩
    · exact ⟨by decide, by decide, by decide⟩
    · exact ⟨by decide, by decide⟩
  have hwhite : ∀ a, s₀.mem.alive a = true → s₀.mem.color a = .white :=
    St.mutate_white (by decide) (St.mutate_white (by decide) (St.mutate_white (by decide)
      (St.mutate_white (by decide) (St.mutate_white (by decide) fun _ _ => rfl))))
  have hp : Entered ⟨s₁, ∅⟩ := ⟨hwf.of_heap rfl rfl rfl, rfl, hwhite, rfl, rfl⟩
  have h₁ := Run.snoc (Run.nil (⟨s₁, ∅⟩ : MarkPhase)) (MarkStep.markRoots 2 (Option.eq_some_of_isSome (by decide)))
  have h₂ := h₁.snoc (MarkStep.mutate (.allocate 3 (.leaf 8)) ⟨by decide, by decide⟩)
  have h₃ := h₂.snoc (MarkStep.mutate (.set 2 0 [1]) ⟨by decide, by decide, by decide⟩)
  obtain ⟨hpush, _, _, _, _, _, hfull⟩ := marking_traces_once _ _ _ hp h₃
  obtain ⟨fuel, s', hs', _⟩ := hfull (by decide) (by decide)
  exact ⟨_, _, _, hp, h₃, by decide, hpush, fuel, s', hs'⟩

end Abfall
