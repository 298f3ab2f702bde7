import Abfall.MarkLog
/-!
# One call of `do_mark_with_tracer`, round by round (heap.rs:439-472)

| here | there |
| --- | --- |
| `doMarkRounds`  | the `while work_done < work_budget` loop with its two kinds of round: a pop and its object, or a steal and `continue` |
| `Mem.grayed`    | the objects that calls of `Tracer::mark` turn from White to Gray (`trace.rs:60-78`), by their colors |
| `doMarkGrayed`  | those of a whole call |

`doMarkLoop` counts only the rounds that process an object. A round that steals leaves `work_done`
alone, so the loop of the source ends only because such a round is followed by one that does not:
`doMarkRounds_eq` says that two rounds for each unit of the budget are enough, and that the result is
`doMarkLoop`'s.

`marking_call_conserves`: what a call found queued and what it turned Gray is what it processed and what
it left in the shared queue, each counted as often as it occurs. The queues may hold anything: repeated
entries, Black objects, White ones.
-/
namespace Abfall

/-- The loop, with a bound on its rounds; `none` is "still running". -/
def doMarkRounds : Nat → St → Tracer → Nat → Nat → Option (St × Tracer × Nat)
  | 0, _, _, _, _ => none
  | fuel + 1, s, t, workDone, workBudget =>
    if workDone < workBudget then
      match t with
      | p :: t =>
        let r := s.mem.processObject t p
        doMarkRounds fuel ⟨r.1, s.heap⟩ r.2 (workDone + 1) workBudget
      | [] =>
        match s.stealWork [] 8 with
        | some (s, t) => doMarkRounds fuel s t workDone workBudget
        | none => some (s, [], workDone)
    else some (s, t, workDone)

/-- A steal that succeeds leaves something to pop. -/
theorem St.stealWork_cases (s : St) : (s.stealWork [] 8 = none ∧ s.nextWork [] = none) ∨
    ∃ s' p t', s.stealWork [] 8 = some (s', p :: t') ∧ s.nextWork [] = some (p, s', t') := by
  by_cases hq : s.heap.grayQueue = []
  · left
    have hno : s.stealWork [] 8 = none := by simp [stealWork, stealFrom, hq]
    exact ⟨hno, by simp [nextWork, hno]⟩
  · right
    have hsteal := stealWork_of_ne hq
    cases hm : (moveItems 8 s.heap.grayQueue []).2 with
    | nil =>
      have hnext : s.nextWork [] = none := by simp [nextWork, hsteal, hm]
      exact absurd (St.nextWork_none hnext).2 hq
    | cons p t' =>
      rw [hm] at hsteal
      exact ⟨_, p, t', hsteal, by simp [nextWork, hsteal]⟩

/-- The loop ends, and `doMarkLoop` is what it computes. -/
theorem doMarkRounds_eq (b : Nat) (s : St) (t : Tracer) (n fuel : Nat) (hf : 2 * b < fuel) :
    doMarkRounds fuel s t n (n + b) = some (doMarkLoop b s t n) := by
  induction b generalizing s t n fuel with
  | zero =>
    obtain ⟨f, rfl⟩ : ∃ f, fuel = f + 1 := ⟨fuel - 1, by omega⟩
    simp [doMarkRounds, doMarkLoop]
  | succ b ih =>
    obtain ⟨f, rfl⟩ : ∃ f, fuel = f + 2 := ⟨fuel - 2, by omega⟩
    -- a round that pops, wherever the object came from
    have hpop : ∀ (g : Nat) (s : St) (t : Tracer) (p : Addr), 2 * b < g →
        doMarkRounds (g + 1) s (p :: t) n (n + (b + 1)) =
          some (doMarkLoop b ⟨(s.mem.processObject t p).1, s.heap⟩ (s.mem.processObject t p).2 (n + 1)) := by
      intro g s t p hg
      rw [← ih _ _ (n + 1) g hg]
      simp only [doMarkRounds, Nat.lt_add_right_iff_pos, Nat.succ_pos, ↓reduceIte]
      congr 1
      omega
    cases t with
    | cons p t =>
      rw [hpop (f + 1) s t p (by omega)]
      rfl
    | nil =>
      rcases s.stealWork_cases with ⟨hs, hn⟩ | ⟨s', p, t', hs, hn⟩
      · simp [doMarkRounds, doMarkLoop, hs, hn]
      · have hround : doMarkRounds (f + 2) s [] n (n + (b + 1)) = doMarkRounds (f + 1) s' (p :: t') n (n + (b + 1)) := by
          conv_lhs => rw [doMarkRounds, if_pos (by omega), hs]
        rw [hround, hpop f s' t' p (by omega)]
        simp only [doMarkLoop, hn]

/-! ## White to Gray -/

namespace Mem

/-- The objects the calls of `Tracer::mark` turn from White to Gray, in order. -/
def grayed : List Addr → Mem → Tracer → List Addr
  | [], _, _ => []
  | p :: ps, m, t =>
    let r := m.mark t p
    if m.color p = .white ∧ r.1.color p = .gray then p :: grayed ps r.1 r.2 else grayed ps r.1 r.2

/-- Those of one `vtable.trace`. -/
def traceGrayed (m : Mem) (t : Tracer) (a : Addr) : List Addr :=
  if (m.data a).noTrace then [] else grayed (m.ptrs a) m t

/-- What turns Gray is what is pushed. -/
theorem mark_grayed (m : Mem) (t : Tracer) (p : Addr) :
    (m.mark t p).2 = if m.color p = .white ∧ (m.mark t p).1.color p = .gray then p :: t else t := by
  rcases m.mark_cases t p with ⟨_, e⟩ | ⟨hw, e⟩ | ⟨hw, e⟩ <;> rw [e]
  · simp
  · simp [hw]
  · simp [hw]

theorem markAll_grayed (ps : List Addr) (m : Mem) (t : Tracer) :
    (markAll ps m t).2 = (grayed ps m t).reverse ++ t := by
  induction ps generalizing m t with
  | nil => rfl
  | cons p ps ih =>
    have hp := m.mark_grayed t p
    simp only [markAll, grayed]
    rw [ih]
    split at hp
    · rename_i hw
      rw [if_pos hw, hp]
      simp
    · rename_i hw
      rw [if_neg hw, hp]

theorem processObject_grayed (m : Mem) (t : Tracer) (a : Addr) :
    (m.processObject t a).2 = ((m.touch a).traceGrayed t a).reverse ++ t := by
  unfold processObject traceGrayed trace
  split
  · rfl
  · exact markAll_grayed _ _ _

/-- Black stays Black. -/
theorem markAll_black (ps : List Addr) (m : Mem) (t : Tracer) {x : Addr} (h : m.color x = .black) :
    (markAll ps m t).1.color x = .black := by
  rw [markAll_color]
  split
  · simp [shade, h]
  · exact h

theorem processObject_black (m : Mem) (t : Tracer) (a : Addr) {x : Addr} (h : x = a ∨ m.color x = .black) :
    (m.processObject t a).1.color x = .black := by
  unfold processObject trace
  rw [setColor_color]
  split
  · rfl
  · rename_i hx
    have hb : (m.touch a).color x = .black := h.resolve_left hx
    split
    · exact hb
    · exact markAll_black _ _ _ hb

end Mem

theorem doMarkLoop_black (b : Nat) (s : St) (t : Tracer) (n : Nat) {x : Addr}
    (h : x ∈ traced (doMarkLog b s t) ∨ s.mem.color x = .black) : (doMarkLoop b s t n).1.mem.color x = .black := by
  induction b generalizing s t n with
  | zero => simpa [doMarkLog, doMarkLoop, traced] using h
  | succ b ih =>
    simp only [doMarkLog, doMarkLoop] at h ⊢
    cases hw : s.nextWork t with
    | none => simpa [hw, traced] using h
    | some r =>
      obtain ⟨p, s', t'⟩ := r
      obtain ⟨hm, _, _⟩ := St.nextWork_some hw
      simp only [hw, traced_cons, List.mem_cons] at h
      rw [← hm] at h
      rcases h with (hp | hx) | hb
      · exact ih _ _ _ (.inr (s'.mem.processObject_black t' p (.inl hp)))
      · exact ih _ _ _ (.inl hx)
      · exact ih _ _ _ (.inr (s'.mem.processObject_black t' p (.inr hb)))

/-! ## The whole call -/

/-- The objects a call turns from White to Gray, in order. -/
def doMarkGrayed : Nat → St → Tracer → List Addr
  | 0, _, _ => []
  | budget + 1, s, t =>
    match s.nextWork t with
    | none => []
    | some (p, s, t) =>
      let r := s.mem.processObject t p
      (s.mem.touch p).traceGrayed t p ++ doMarkGrayed budget ⟨r.1, s.heap⟩ r.2

theorem doMarkLog_length_le (b : Nat) (s : St) (t : Tracer) : (doMarkLog b s t).length ≤ b := by
  induction b generalizing s t with
  | zero => simp [doMarkLog]
  | succ b ih =>
    simp only [doMarkLog]
    cases hw : s.nextWork t with
    | none => simp
    | some r =>
      obtain ⟨p, s', t'⟩ := r
      simp only [List.length_cons]
      exact Nat.succ_le_succ (ih _ _)

/-- The bookkeeping of one round: `p` leaves the waiting work `w`, and `g` is pushed onto what is left. -/
theorem perm_round {p : Addr} {w w' g rest out : List Addr} (hp : (p :: w').Perm w)
    (hr : ((g.reverse ++ w') ++ rest).Perm out) : (w ++ (g ++ rest)).Perm (p :: out) := by
  have hg : (w' ++ g).Perm (g.reverse ++ w') := List.perm_append_comm.trans (g.reverse_perm.symm.append_right w')
  calc (w ++ (g ++ rest)).Perm ((p :: w') ++ (g ++ rest)) := hp.symm.append_right _
    _ = p :: ((w' ++ g) ++ rest) := by simp
    List.Perm _ (p :: ((g.reverse ++ w') ++ rest)) := (hg.append_right rest).cons p
    List.Perm _ (p :: out) := hr.cons p

theorem doMarkLoop_conserves (b : Nat) (s : St) (t : Tracer) (n : Nat) :
    ((t ++ s.heap.grayQueue) ++ doMarkGrayed b s t).Perm
      (traced (doMarkLog b s t) ++ ((doMarkLoop b s t n).2.1 ++ (doMarkLoop b s t n).1.heap.grayQueue)) := by
  induction b generalizing s t n with
  | zero => simp [doMarkGrayed, doMarkLog, doMarkLoop, traced]
  | succ b ih =>
    simp only [doMarkGrayed, doMarkLog, doMarkLoop]
    cases hw : s.nextWork t with
    | none => simp [traced]
    | some r =>
      obtain ⟨p, s', t'⟩ := r
      obtain ⟨hm, _, hperm⟩ := St.nextWork_some hw
      have hround := ih ⟨(s'.mem.processObject t' p).1, s'.heap⟩ (s'.mem.processObject t' p).2 (n + 1)
      have hpush := s'.mem.processObject_grayed t' p
      simp only [traced_cons, List.cons_append]
      refine perm_round hperm ?_
      rw [← List.append_assoc, ← hpush]
      exact hround

/-- **Work is conserved.** From any colors, graph, tracer and shared queue, and with any budget, a call of
`do_mark_with_tracer` ends; it processes at most `work_budget` objects and leaves the tracer empty. The
pointers found queued and those turned from White to Gray are, each as often as it occurs, the
processed ones and those left in the shared queue. What was processed is Black, and the budget is left
unspent only when nothing is queued. -/
theorem marking_call_conserves (s : St) (t : Tracer) (b : Nat) :
    doMarkRounds (2 * b + 1) s t 0 b = some (doMarkLoop b s t 0) ∧
    (s.doMarkWithTracer t b).2.2 = (traced (doMarkLog b s t)).length ∧
    (s.doMarkWithTracer t b).2.2 ≤ b ∧ (s.doMarkWithTracer t b).2.1 = [] ∧
    ((t ++ s.heap.grayQueue) ++ doMarkGrayed b s t).Perm
      (traced (doMarkLog b s t) ++ (s.doMarkWithTracer t b).1.heap.grayQueue) ∧
    (∀ a ∈ traced (doMarkLog b s t), (s.doMarkWithTracer t b).1.mem.color a = .black) ∧
    ((s.doMarkWithTracer t b).2.2 < b → (s.doMarkWithTracer t b).1.heap.grayQueue = []) := by
  rw [s.doMarkWithTracer_work, s.doMarkWithTracer_queue, s.doMarkWithTracer_mem]
  refine ⟨?_, ?_, ?_, s.doMarkWithTracer_tracer t b, doMarkLoop_conserves b s t 0,
    fun a ha => doMarkLoop_black b s t 0 (.inl ha), fun hlt => ?_⟩
  · simpa using doMarkRounds_eq b s t 0 (2 * b + 1) (Nat.lt_succ_self _)
  · rw [doMarkLog_length, traced, List.length_map, Nat.zero_add]
  · rw [doMarkLog_length, Nat.zero_add]
    exact doMarkLog_length_le b s t
  · rcases doMarkLoop_done b s t 0 with hd | ⟨ht, hq⟩
    · omega
    · rw [ht, hq]
      rfl

end Abfall
