import Abfall.Budget
import Mathlib.Data.Set.Card
import Mathlib.Algebra.BigOperators.Ring.List
/-!
# Mutator assist (heap.rs:282-285)

A program that allocates while marking is in progress makes more work for it, and pays with up to
`assist_work_budget` objects of marking for each allocation. The *backlog* of a phase is what may still have to be processed:
the White objects and the queued ones. Processing an object takes one from it, whatever is shaded
meanwhile only moves from White to queued, and an allocation adds one. So an allocation that leaves work in the queue
lowers the backlog by `assist_work_budget - 1`, and with a budget of at least 2 the mutators finish marking on
their own (`assist_finishes_marking`).

| here | there |
| --- | --- |
| `backlog`          | what `do_mark_with_tracer` may still process (`heap.rs:439-472`) |
| `MarkStep`         | one marking phase, from `Abfall.Tricolor`: `do_mark_roots`, marking calls of the collector, mutators |
| `leavesWork`       | an `allocate` whose assist returned with work left (`heap.rs:282-285`) |
-/
namespace Abfall
open Chain Transition

/-! ## The backlog -/

/-- The White objects and the queued ones. -/
noncomputable def backlog (s : St) : Nat :=
  Set.ncard {a | s.mem.alive a = true ∧ s.mem.color a = .white} + s.heap.grayQueue.length

/-- White objects can be counted along a list of the allocated ones. -/
theorem backlog_eq {s : St} {l : List Addr} (hl : ∀ a, a ∈ l ↔ s.mem.alive a = true) :
    backlog s = whites l.toFinset s.mem + s.heap.grayQueue.length := by
  have hset : {a | s.mem.alive a = true ∧ s.mem.color a = .white} =
      (l.toFinset.filter fun x => s.mem.color x = .white : Finset Addr) := by
    ext a
    simp [hl a]
  rw [backlog, hset, Set.ncard_coe_finset]
  rfl

theorem Listed.within {s : St} {l : List Addr} (hl : Listed s l) (h : WF s) :
    Within l.toFinset s.mem (waiting [] s.heap.grayQueue) := by
  refine ⟨fun x hx => ?_, fun a b ha he => ?_⟩
  · rw [List.mem_toFinset, hl.alive]
    exact h.sane.waits x hx
  · rw [List.mem_toFinset, hl.alive] at ha ⊢
    exact h.sane.closed a b ha he

/-- The backlog reads the allocated objects, their colors and the queue. -/
theorem backlog_congr {s s' : St} (ha : s'.mem.alive = s.mem.alive) (hc : s'.mem.color = s.mem.color)
    (hq : s'.heap.grayQueue = s.heap.grayQueue) : backlog s' = backlog s := by
  simp only [backlog, ha, hc, hq]

/-- Work that stays with the listed objects is measured on the list. -/
theorem backlog_le_of_same {s s' : St} {k : Nat} (h : WF s) (hs : s.mem.SameObjects s'.mem)
    (hle : ∀ F, Within F s.mem (waiting [] s.heap.grayQueue) → (∀ a, s.mem.alive a = true → a ∈ F) →
      k + (whites F s'.mem + s'.heap.grayQueue.length) ≤ whites F s.mem + s.heap.grayQueue.length) :
    k + backlog s' ≤ backlog s := by
  obtain ⟨l, hl⟩ := h.listed
  rw [backlog_eq hl.alive, backlog_eq (s := s') (l := l) fun a => by rw [hs.alive]; exact hl.alive a]
  exact hle l.toFinset (hl.within h) fun a ha => List.mem_toFinset.2 ((hl.alive a).2 ha)

/-! ## What each step does to it -/

/-- A marking call: what it processes leaves the backlog. -/
theorem backlog_doMark {s : St} (h : WF s) (b : Nat) :
    (s.doMarkWithTracer [] b).2.2 + backlog (s.doMarkWithTracer [] b).1 ≤ backlog s := by
  refine backlog_le_of_same h (doMarkWithTracer_same s [] b) fun F hF _ => ?_
  have hm := doMarkLoop_measure F b s [] 0 hF
  rw [s.doMarkWithTracer_mem, s.doMarkWithTracer_queue, s.doMarkWithTracer_work, List.length_append]
  simp only [List.length_nil] at hm
  omega

/-- It returns early only with nothing left. -/
theorem St.doMarkWithTracer_spends {s : St} {b : Nat} (h : (s.doMarkWithTracer [] b).1.heap.grayQueue ≠ []) :
    (s.doMarkWithTracer [] b).2.2 = b := by
  rw [s.doMarkWithTracer_queue] at h
  rw [s.doMarkWithTracer_work]
  rcases doMarkLoop_done b s [] 0 with hd | ⟨ht, hq⟩
  · omega
  · rw [ht, hq] at h
    exact absurd rfl h

/-- The scan moves White roots to the tracer. -/
theorem scanRoots_measure {F : Finset Addr} : ∀ (l : List Addr) (m : Mem) (t : Tracer), (∀ a ∈ l, a ∈ F) →
    whites F (scanRoots l m t).1 + (scanRoots l m t).2.length ≤ whites F m + t.length
  | [], _, _, _ => Nat.le_refl _
  | a :: l, m, t, hl => by
    have ih := scanRoots_measure l (m.scanRoot t a).1 (m.scanRoot t a).2 fun x hx => hl x (by simp [hx])
    refine Nat.le_trans ih ?_
    rcases m.scanRoot_cases t a with ⟨_, hw, e⟩ | ⟨_, e⟩ <;> rw [e]
    · have hlt := whites_setColor_lt (m := m.touch a) (c := .gray) (hl a (by simp)) hw (by decide)
      have htouch : whites F (m.touch a) = whites F m := rfl
      simp only [List.length_cons]
      omega
    · exact Nat.le_refl _

theorem backlog_doMarkRoots {s s' : St} {fuel : Nat} (h : WF s) (hr : s.doMarkRoots fuel [] = some s') :
    backlog s' ≤ backlog s := by
  obtain ⟨l, hl⟩ := h.listed
  obtain rfl := St.doMarkRoots_some hl.seg hr
  refine Nat.le_trans (Nat.le_add_left _ 0) (backlog_le_of_same h (scanRoots_same l s.mem []) fun F _ hal => ?_)
  have hm := scanRoots_measure (F := F) l s.mem [] fun a ha => hal a ((hl.alive a).1 ha)
  show 0 + (_ + ((scanRoots l s.mem []).2 ++ s.heap.grayQueue).length) ≤ _
  rw [List.length_append]
  simp only [List.length_nil] at hm ⊢
  omega

/-- The barrier moves White objects to the queue, or blackens them. -/
theorem backlog_barrier {s : St} (h : WF s) {vals : List Addr} (hv : ∀ p ∈ vals, s.mem.alive p = true) :
    backlog (s.barrier [] vals).1 ≤ backlog s := by
  rcases s.barrier_cases vals with e | ⟨_, e⟩
  · rw [e]
  · have hs := s.barrier_same vals
    rw [e] at hs ⊢
    have hle := backlog_le_of_same (k := 0) h hs fun F _ hal => by
      have hm : whites F (Mem.markAll vals s.mem []).1 + (Mem.markAll vals s.mem []).2.length ≤ whites F s.mem + 0 :=
        Mem.markAll_rule (K := fun m' t' => whites F m' + t'.length ≤ whites F s.mem + 0)
          (fun m' t' p hp hk => Nat.le_trans (mark_measure m' t' (hal p (hv p hp))) hk) (Nat.le_refl _)
      show 0 + (whites F (Mem.markAll vals s.mem []).1 + ((Mem.markAll vals s.mem []).2 ++ s.heap.grayQueue).length) ≤ _
      rw [List.length_append]
      omega
    omega

/-- An assist that leaves work has processed as many objects as it may. -/
theorem backlog_assist {s : St} (h : WF s) (hp : s.heap.phase = .marking) :
    (if s.assist.heap.grayQueue = [] then 0 else s.heap.options.assistWorkBudget) + backlog s.assist ≤ backlog s := by
  rcases s.assist_cases with ⟨hno, e⟩ | ⟨_, n, e⟩
  · rw [e, hno.resolve_right fun hne => hne hp]
    simp
  · have hwf : WF ⟨s.mem, s.heap.withBusy n⟩ := h.of_heap rfl rfl rfl
    have hm := backlog_doMark hwf s.heap.options.assistWorkBudget
    have hsp := St.doMarkWithTracer_spends (s := ⟨s.mem, s.heap.withBusy n⟩) (b := s.heap.options.assistWorkBudget)
    have hback : backlog s.assist =
        backlog (St.doMarkWithTracer ⟨s.mem, s.heap.withBusy n⟩ [] s.heap.options.assistWorkBudget).1 := by
      rw [e]
      exact backlog_congr rfl rfl rfl
    have hstart : backlog (⟨s.mem, s.heap.withBusy n⟩ : St) = backlog s := backlog_congr rfl rfl rfl
    rw [hback]
    split
    · omega
    · rename_i hne
      rw [e] at hne
      rw [hsp hne] at hm
      omega

/-- A new object is White. -/
theorem backlog_push {s : St} {a : Addr} {d : Data} (h : WF s) : backlog (s.push a d) ≤ backlog s + 1 := by
  obtain ⟨l, hl⟩ := h.listed
  have hfin : Set.Finite {x | s.mem.alive x = true ∧ s.mem.color x = .white} :=
    (l.toFinset.finite_toSet).subset fun x hx => by simpa using (hl.alive x).2 hx.1
  have hsub : {x | (s.push a d).mem.alive x = true ∧ (s.push a d).mem.color x = .white} ⊆
      insert a {x | s.mem.alive x = true ∧ s.mem.color x = .white} := by
    rintro x ⟨hx, hc⟩
    by_cases hxa : x = a
    · exact .inl hxa
    · have hcol : (s.push a d).mem.color x = s.mem.color x := Function.update_of_ne hxa _ _
      exact .inr ⟨(St.push_alive.1 hx).resolve_left hxa, by rw [← hcol]; exact hc⟩
  have hcard := (Set.ncard_le_ncard hsub (hfin.insert a)).trans (Set.ncard_insert_le a _)
  have hq : (s.push a d).heap.grayQueue = s.heap.grayQueue := rfl
  unfold backlog
  rw [hq]
  omega

/-! ## A whole phase -/

def MarkOp.allocates : MarkOp → Bool
  | .mutate (.allocate _ _) => true
  | _ => false

/-- The assist of this allocation returns with work left in the queue. -/
def leavesWork (p : MarkPhase) (op : MarkOp) : Bool := op.allocates && decide (p.st.assist.heap.grayQueue ≠ [])

theorem markStep_options {p p' : MarkPhase} {op : MarkOp} (h : MarkPhaseInv p) (hst : MarkStep p op p') :
    p'.st.heap.options = p.st.heap.options := by
  cases hst with
  | @markRoots s s' R fuel hr =>
    obtain ⟨l, hl⟩ := h.wf.listed
    obtain rfl := St.doMarkRoots_some hl.seg hr
    rfl
  | @mark s R b => rw [s.doMarkWithTracer_heap]; rfl
  | @mutate s R op _ =>
    obtain ⟨q, hd, k, e⟩ := s.mutate_heap op
    rw [e]
    rfl

theorem markStep_backlog {p p' : MarkPhase} {op : MarkOp} (h : MarkPhaseInv p) (hst : MarkStep p op p') :
    p.st.heap.options.assistWorkBudget * (leavesWork p op).toNat + backlog p'.st ≤
      backlog p.st + op.allocates.toNat := by
  cases hst with
  | @markRoots s s' R fuel hr =>
    have hm := backlog_doMarkRoots h.wf hr
    simpa [leavesWork, MarkOp.allocates] using hm
  | @mark s R b =>
    have hwf : WF s := h.wf
    have hm := backlog_doMark hwf b
    simp only [leavesWork, MarkOp.allocates, Bool.false_and, Bool.toNat_false]
    omega
  | @mutate s R op ha =>
    have hwf : WF s := h.wf
    have hphase : s.heap.phase = .marking := h.phase
    cases op with
    | allocate a d =>
      have hm := backlog_assist hwf hphase
      have hpush := backlog_push (a := a) (d := d) hwf.assist
      change _ + backlog (s.assist.push a d) ≤ _
      simp only [leavesWork, MarkOp.allocates, Bool.true_and, Bool.toNat_true]
      by_cases hempty : s.assist.heap.grayQueue = []
      · simp only [hempty, ↓reduceIte, ne_eq, not_true, decide_false, Bool.toNat_false] at hm ⊢
        omega
      · simp only [hempty, ↓reduceIte, ne_eq, not_false_eq_true, decide_true, Bool.toNat_true] at hm ⊢
        omega
    | set o k vals =>
      have hm := backlog_barrier hwf ha.2.2
      have hstore : backlog (s.setCell o k vals) = backlog (s.barrier [] vals).1 := backlog_congr rfl rfl rfl
      change _ + backlog (s.setCell o k vals) ≤ _
      simp only [leavesWork, MarkOp.allocates, Bool.false_and, Bool.toNat_false]
      omega
    | _ => exact Nat.le_of_eq (by simp [leavesWork, MarkOp.allocates]; exact backlog_congr rfl rfl rfl)

/-- The allocations of a run, and those that left work. -/
def allocations (tr : List (MarkPhase × MarkOp)) : Nat := (tr.map fun e => e.2.allocates.toNat).sum

def leaving (tr : List (MarkPhase × MarkOp)) : Nat := (tr.map fun e => (leavesWork e.1 e.2).toNat).sum

/-- When all of them left work. -/
theorem leaving_eq {tr : List (MarkPhase × MarkOp)}
    (h : ∀ e ∈ tr, e.2.allocates = true → e.1.st.assist.heap.grayQueue ≠ []) : leaving tr = allocations tr := by
  refine congrArg List.sum (List.map_congr_left fun e he => ?_)
  cases hal : e.2.allocates with
  | false => simp [leavesWork, hal]
  | true => simp [leavesWork, hal, h e he hal]

/-- **The assist keeps up.** From any state of a marking phase on, each allocation that leaves work in the queue
takes `assist_work_budget` objects from the backlog and adds one. With a budget of at least 2, more allocations
than the backlog allows cannot all leave work: at one of them the assist returned with an empty queue
and with no Gray object in the heap, whether or not the collector's own thread got to run. -/
theorem assist_finishes_marking (p q : MarkPhase) (tr : List (MarkPhase × MarkOp)) (hp : Reach MarkStep Entered p)
    (h : Run MarkStep p tr q) :
    p.st.heap.options.assistWorkBudget * leaving tr + backlog q.st ≤ backlog p.st + allocations tr ∧
    (backlog p.st < (p.st.heap.options.assistWorkBudget - 1) * allocations tr →
      ∃ e ∈ tr, e.2.allocates = true ∧ NothingLeft e.1.st.assist) := by
  have hinv : MarkPhaseInv p := hp.inv (I := MarkPhaseInv) (fun _ h => h.inv) fun _ _ _ h => markStep_inv h
  have hstep : ∀ p op q, MarkPhaseInv p → MarkStep p op q → True → MarkPhaseInv q := fun _ _ _ hi hst _ => markStep_inv hi hst
  have hall : ∀ e ∈ tr, MarkPhaseInv e.1 := h.inv_before hstep hinv fun _ _ => trivial
  obtain ⟨_, hsum⟩ := h.potential (I := fun q => MarkPhaseInv q ∧ q.st.heap.options = p.st.heap.options)
    (fun q op => p.st.heap.options.assistWorkBudget * (leavesWork q op).toNat) (fun _ op => op.allocates.toNat)
    (fun q => backlog q.st) (fun q op q' hq hst => by
      have hstep := markStep_backlog hq.1 hst
      rw [hq.2] at hstep
      exact ⟨⟨markStep_inv hq.1 hst, (markStep_options hq.1 hst).trans hq.2⟩, hstep⟩) ⟨hinv, rfl⟩
  rw [List.sum_map_mul_left] at hsum
  refine ⟨hsum, fun hlt => ?_⟩
  -- otherwise every allocation left work
  by_contra hno
  have heq : leaving tr = allocations tr := leaving_eq fun e he hal hempty =>
    hno ⟨e, he, hal, (St.assist_rule tri_process (hall e he).tri).nothingLeft hempty⟩
  change p.st.heap.options.assistWorkBudget * leaving tr + backlog q.st ≤ backlog p.st + allocations tr at hsum
  rw [heq] at hsum
  rw [Nat.sub_mul] at hlt
  omega

/-- One rooted object, which the assist of the next allocation processes. -/
theorem assist_finishes_marking_one : ∃ (p q : MarkPhase) (tr : List (MarkPhase × MarkOp)), Reach MarkStep Entered p ∧
    Run MarkStep p tr q ∧ p.st.heap.grayQueue = [1] ∧ (∃ e ∈ tr, e.2.allocates = true ∧ NothingLeft e.1.st.assist) := by
  let s₀ : St := (St.fresh .default).mutate (.allocate 1 (.leaf 40))
  let s₁ : St := ⟨s₀.mem, s₀.heap.withPhase .marking⟩
  have hwf : WF s₀ := WF.mutate (wf_fresh _) (fun _ h => h) ⟨rfl, by decide⟩
  have hwf₁ : WF s₁ := hwf.of_heap rfl rfl rfl
  have hwhite : ∀ a, s₀.mem.alive a = true → s₀.mem.color a = .white := St.mutate_white (by decide) fun _ _ => rfl
  have h₁ : Reach MarkStep Entered ⟨s₁, ∅⟩ := .init ⟨hwf₁, rfl, hwhite, rfl, rfl⟩
  let s₂ : St := (s₁.doMarkRoots 1 []).get (by decide)
  have hr : s₁.doMarkRoots 1 [] = some s₂ := Option.eq_some_of_isSome (by decide)
  have h₂ := h₁.step (MarkStep.markRoots 1 hr)
  have h₃ : Run MarkStep ⟨s₂, _⟩ _ _ := .snoc (.nil _) (MarkStep.mutate (R := ∅ ∪ {a | s₁.mem.Rooted a})
    (.allocate 2 (.leaf 8)) ⟨by decide, by decide⟩)
  have hback : backlog s₂ ≤ 1 := by
    have hempty : backlog (St.fresh .default) = 0 := by simp [backlog, St.fresh, Mem.empty, Heap.withOptions]
    have hnew : backlog s₁ ≤ backlog (St.fresh .default) + 1 := backlog_push (a := 1) (d := .leaf 40) (wf_fresh _)
    have := backlog_doMarkRoots hwf₁ hr
    omega
  refine ⟨_, _, _, h₂, h₃, by decide, (assist_finishes_marking _ _ _ h₂ h₃).2 ?_⟩
  exact Nat.lt_of_le_of_lt hback (by decide)

end Abfall
