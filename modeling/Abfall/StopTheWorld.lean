import Abfall.Wellformed
import Abfall.Transition
import Mathlib.Data.List.Count
/-!
# Whole runs of a heap without a background thread

A program's operations run one at a time; `Prog.roots` lists the live `GcRoot`s, one entry each. The
address of a new box is the allocator's choice: any address that holds no box, so freed addresses are
reused. `Clean` is what holds between two operations: every cycle leaves the heap as it found it, all
White and with nothing queued, so that the next cycle is exact again (`forceCollect_exact`).
-/
namespace Abfall.StopTheWorld
open Chain Transition

structure Prog where
  st : St
  roots : List Addr

inductive Op
  | allocate (a : Addr) (d : Data)
  | clone (a : Addr)
  | dropRoot (a : Addr)
  | root (a : Addr)
  | set (o : Addr) (k : Nat) (vals : List Addr)
  | collect
  | forceCollect

/-- One operation of the program. Pointers are stored or rooted only while the program can reach the
object they point to. -/
inductive Step : Prog → Op → Prog → Prop
  | allocate {s : St} {rs : List Addr} {a : Addr} {d : Data} :
      s.mem.alive a = false → (∀ p ∈ d.ptrs, s.mem.Reachable p) →
      Step ⟨s, rs⟩ (.allocate a d) ⟨s.allocate a d, a :: rs⟩
  | clone {s : St} {rs : List Addr} {a : Addr} :
      a ∈ rs → Step ⟨s, rs⟩ (.clone a) ⟨s.cloneRoot a, a :: rs⟩
  | dropRoot {s : St} {rs : List Addr} {a : Addr} :
      a ∈ rs → Step ⟨s, rs⟩ (.dropRoot a) ⟨s.dropRoot a, rs.erase a⟩
  | root {s : St} {rs : List Addr} {a : Addr} :
      s.mem.Reachable a → Step ⟨s, rs⟩ (.root a) ⟨s.rootPtr a, a :: rs⟩
  | set {s : St} {rs : List Addr} {o : Addr} {k : Nat} {vals : List Addr} :
      s.mem.alive o = true → k < (s.mem.data o).cells.length → (∀ p ∈ vals, s.mem.Reachable p) →
      Step ⟨s, rs⟩ (.set o k vals) ⟨s.setCell o k vals, rs⟩
  | collect {s s' : St} {rs : List Addr} {fuel : Nat} :
      s.collect fuel = some s' → Step ⟨s, rs⟩ .collect ⟨s', rs⟩
  | forceCollect {s s' : St} {rs : List Addr} {fuel live : Nat} :
      s.forceCollect fuel = some (s', live) → Step ⟨s, rs⟩ .forceCollect ⟨s', rs⟩

/-- What holds between two operations. -/
structure Clean (p : Prog) : Prop where
  wf : WF p.st
  idle : p.st.heap.phase = .idle
  white : ∀ a, p.st.mem.color a = .white
  queue : p.st.heap.grayQueue = []
  busy : p.st.heap.nBusyMarking = 0
  budget : 0 < p.st.heap.options.incrementalWorkBudget
  counts : ∀ a, p.st.mem.alive a = true → p.st.mem.rootCount a = p.roots.count a
  held : ∀ a ∈ p.roots, p.st.mem.alive a = true

theorem clean_fresh {o : GcOptions} (hb : 0 < o.incrementalWorkBudget) : Clean ⟨.fresh o, []⟩ :=
  ⟨wf_fresh o, rfl, fun _ => rfl, rfl, rfl, hb, fun _ ha => by simp [St.fresh, Mem.empty] at ha,
    fun _ ha => by cases ha⟩

/-! ## One collection -/

/-- What a `force_collect` does to a clean heap: it frees the unreachable objects, each once. -/
structure Exact (s s' : St) (live : Nat) : Prop where
  survivors : ∀ a, s'.mem.alive a = true ↔ s.mem.alive a = true ∧ s.mem.Reachable a
  freed : ∃ ds, s'.mem.dropped = ds ++ s.mem.dropped ∧ ds.Nodup ∧
    ∀ a, a ∈ ds ↔ s.mem.alive a = true ∧ ¬ s.mem.Reachable a
  result : live = s'.heap.bytesAllocated

/-- The sweep drops exactly the unreachable objects: a root is reachable, and marking shaded the
reachable objects and nothing else. -/
theorem mem_dead_iff {p : Prog} (hc : Clean p) {l : List Addr} (hl : Listed p.st l) {m₁ : Mem}
    (hs : p.st.mem.SameObjects m₁)
    (hm : ∀ x, m₁.color x ≠ .white ↔ Marked p.st.mem p.st.heap.grayQueue l x) (x : Addr) :
    x ∈ dead m₁ l ↔ p.st.mem.alive x = true ∧ ¬ p.st.mem.Reachable x := by
  rw [mem_dead_marked hs hm, hc.queue, marked_iff_reachable hl.alive hc.white, hl.alive]
  refine ⟨fun ⟨ha, hr, _⟩ => ⟨ha, hr⟩, fun ⟨ha, hr⟩ => ⟨ha, hr, ?_⟩⟩
  by_contra h0
  exact hr (Mem.Rooted.reachable ⟨ha, by omega⟩)

theorem forceCollect_exact {p : Prog} (hc : Clean p) {fuel live : Nat} {s' : St}
    (h : p.st.forceCollect fuel = some (s', live)) : Exact p.st s' live ∧ Clean ⟨s', p.roots⟩ := by
  obtain ⟨l, hl⟩ := hc.wf.listed
  obtain ⟨⟨m₁, hs, hm, hf, hsw, hlive⟩, hh⟩ :=
    forceCollect_spec hc.idle hl.seg (fun x hx => (hl.alive x).1 hx) hc.budget h
  have hdead := mem_dead_iff hc hl hs hm
  have hsurv : ∀ a, s'.mem.alive a = true ↔ p.st.mem.alive a = true ∧ p.st.mem.Reachable a := by
    intro a
    rw [hsw.alive a, hs.alive]
    simp only [Bool.and_eq_true, decide_eq_true_eq, hdead]
    tauto
  have hl₁ : Listed ⟨m₁, p.st.heap⟩ l := hl.of_same hs rfl rfl
  have hsane₁ : Sane m₁ (waiting [] p.st.heap.grayQueue) :=
    sane_of_same hc.wf.sane hs (hf hc.wf.sane) hc.wf.sane.waits
  have hwf : WF ⟨s'.mem, s'.heap⟩ := by
    refine wf_of_swept hl₁ hsane₁ hsw rfl (by rw [hh]; exact hlive) (by rw [hh]; intro x hx; cases hx) ?_
    intro a b ha he hb
    rw [mem_kept] at ha
    have hra : p.st.mem.Reachable a := by
      have haa := (hl.alive a).1 ha.1
      have := mt (hdead a).2 ha.2
      tauto
    rw [hs.edge] at he
    exact ((hdead b).1 hb).2 (hra.next he)
  refine ⟨⟨hsurv, ⟨(dead m₁ l).reverse, ?_, ?_, ?_⟩, ?_⟩, ⟨hwf, ?_, ?_, ?_, ?_, ?_, ?_, ?_⟩⟩
  · rw [hsw.dropped, hs.dropped]
  · exact List.nodup_reverse.2 ((seg_nodup hl.seg).filter _)
  · intro a; rw [List.mem_reverse]; exact hdead a
  · rw [hh]; rfl
  · rw [hh]; rfl
  · -- survivors are reset, dropped objects were White, and addresses without a box were never shaded
    intro a
    show s'.mem.color a = .white
    rw [hsw.color a]
    split
    · rfl
    · rename_i hk
      by_contra hne
      have hra := (marked_iff_reachable hl.alive hc.white a).1 (by rw [← hc.queue]; exact (hm a).1 hne)
      have haa := hc.wf.alive_of_reachable hra
      exact hk (mem_kept.2 ⟨(hl.alive a).2 haa, fun hd => ((hdead a).1 hd).2 hra⟩)
  · rw [hh]; rfl
  · rw [hh]; exact hc.busy
  · rw [hh]; exact hc.budget
  · intro a ha
    rw [hsw.rootCount, hs.rootCount]
    exact hc.counts a ((hsurv a).1 ha).1
  · intro a ha
    have haa := hc.held a ha
    refine (hsurv a).2 ⟨haa, Mem.Rooted.reachable ⟨haa, ?_⟩⟩
    rw [hc.counts a haa]
    exact List.count_pos_iff.2 ha

theorem forceCollect_ends {p : Prog} (hc : Clean p) : ∃ fuel s' live, p.st.forceCollect fuel = some (s', live) := by
  obtain ⟨l, hl⟩ := hc.wf.listed
  exact forceCollect_total hc.idle hl.seg hl.alive hc.wf.sane hc.busy hc.budget

/-! ## Every operation keeps the heap clean -/

/-- A new `GcRoot` to an allocated object. -/
theorem rooted_clean {s : St} {rs : List Addr} (hc : Clean ⟨s, rs⟩) {a : Addr} (ha : s.mem.alive a = true) :
    Clean ⟨⟨s.mem.incRoot a, s.heap⟩, a :: rs⟩ := by
  refine ⟨hc.wf.setRootCount ha, hc.idle, hc.white, hc.queue, hc.busy, hc.budget, fun x hx => ?_, fun x hx => ?_⟩
  · show Function.update s.mem.rootCount a (s.mem.rootCount a + 1) x = _
    by_cases hxa : x = a
    · subst hxa; rw [Function.update_self, List.count_cons_self, hc.counts x ha]
    · rw [Function.update_of_ne hxa, List.count_cons_of_ne (Ne.symm hxa)]; exact hc.counts x hx
  · rcases List.mem_cons.1 hx with rfl | hx
    · exact ha
    · exact hc.held x hx

theorem step_clean {p p' : Prog} {op : Op} (hc : Clean p) (h : Step p op p') : Clean p' := by
  have hnm : p.st.heap.phase ≠ .marking := by rw [hc.idle]; decide
  cases h with
  | @allocate s rs a d ha hd =>
    have hwf := hc.wf.push ha fun p hp => hc.wf.alive_of_reachable (hd p hp)
    have hnew : a ∉ rs := fun hm => by have := hc.held a hm; simp [ha] at this
    unfold St.allocate
    rw [St.assist_of_not_marking hnm]
    refine ⟨hwf, hc.idle, fun x => ?_, hc.queue, hc.busy, hc.budget, fun x hx => ?_, fun x hx => ?_⟩
    · show Function.update s.mem.color a .white x = .white
      by_cases hxa : x = a
      · simp [hxa]
      · rw [Function.update_of_ne hxa]; exact hc.white x
    · show Function.update s.mem.rootCount a 1 x = _
      by_cases hxa : x = a
      · subst hxa; simp [List.count_eq_zero.2 hnew]
      · rw [Function.update_of_ne hxa, List.count_cons_of_ne (Ne.symm hxa)]
        exact hc.counts x ((St.push_alive.1 hx).resolve_left hxa)
    · exact St.push_alive.2 ((List.mem_cons.1 hx).imp id (hc.held x))
  | @clone s rs a ha =>
    have hal := hc.held a ha
    exact rooted_clean hc hal
  | @root s rs a ha => exact rooted_clean hc (hc.wf.alive_of_reachable ha)
  | @dropRoot s rs a ha =>
    have hal := hc.held a ha
    refine ⟨hc.wf.setRootCount hal, hc.idle, hc.white, hc.queue, hc.busy, hc.budget, fun x hx => ?_,
      fun x hx => hc.held x (List.mem_of_mem_erase hx)⟩
    show Function.update s.mem.rootCount a (s.mem.rootCount a - 1) x = _
    by_cases hxa : x = a
    · subst hxa; rw [Function.update_self, List.count_erase_self, hc.counts x hal]
    · rw [Function.update_of_ne hxa, List.count_erase_of_ne hxa]; exact hc.counts x hx
  | @set s rs o k vals ho _ hv =>
    have hwf := hc.wf.storeCell (k := k) ho fun p hp => hc.wf.alive_of_reachable (hv p hp)
    unfold St.setCell
    rw [St.barrier_of_not_marking hnm]
    exact ⟨hwf, hc.idle, hc.white, hc.queue, hc.busy, hc.budget, hc.counts, hc.held⟩
  | @collect s s' rs fuel h =>
    unfold St.collect at h
    split at h
    · cases hf : s.forceCollect fuel with
      | none => simp [hf] at h
      | some r =>
        obtain ⟨s₁, live⟩ := r
        simp only [hf, Option.map_some, Option.some.injEq] at h
        subst h
        exact (forceCollect_exact hc hf).2
    · cases h; exact hc
  | forceCollect h => exact (forceCollect_exact hc h).2

/-- **The stop-the-world collector is exact over whole runs.** Between any two operations of any run
the heap is Idle and White, the queue is empty, the list from `head` holds each allocated object once,
the root counts and the byte count are right; and there a `force_collect` ends, frees exactly the
unreachable objects, each once, and returns the bytes that stay allocated. -/
theorem stop_the_world_exact (o : GcOptions) (hb : 1 ≤ o.incrementalWorkBudget) (p : Prog)
    (hp : Reach Step (· = ⟨.fresh o, []⟩) p) :
    p.st.heap.phase = .idle ∧ p.st.heap.grayQueue = [] ∧ p.st.mem.fault = false ∧
    (∃ l, Seg p.st.mem.next p.st.heap.head l none ∧ l.Nodup ∧ (∀ a, a ∈ l ↔ p.st.mem.alive a = true) ∧
      (∀ a ∈ l, p.st.mem.color a = .white ∧ p.st.mem.rootCount a = p.roots.count a) ∧
      p.st.heap.bytesAllocated = sizeSum p.st.mem l) ∧
    (∃ fuel s' live, p.st.forceCollect fuel = some (s', live)) ∧
    ∀ fuel s' live, p.st.forceCollect fuel = some (s', live) → Exact p.st s' live := by
  have hc : Clean p := by
    refine hp.inv (I := Clean) (fun s h => ?_) fun _ _ _ h => step_clean h
    subst h
    exact clean_fresh hb
  obtain ⟨l, hl⟩ := hc.wf.listed
  exact ⟨hc.idle, hc.queue, hc.wf.sane.noFault,
    ⟨l, hl.seg, seg_nodup hl.seg, hl.alive, fun a ha => ⟨hc.white a, hc.counts a ((hl.alive a).1 ha)⟩, hl.bytes⟩,
    forceCollect_ends hc, fun _ _ _ h => (forceCollect_exact hc h).1⟩

/-- `2` has a root and points to `1`; `3` and `4` point to each other and have none. A `force_collect` keeps the
first two and frees the cycle. -/
theorem stop_the_world_exact_garbage : ∃ (p : Prog) (fuel : Nat) (s' : St), Reach Step (· = ⟨.fresh .default, []⟩) p ∧
    p.roots = [2] ∧ p.st.mem.Edge 2 1 ∧ p.st.mem.Edge 3 4 ∧ p.st.mem.Edge 4 3 ∧
    p.st.forceCollect fuel = some (s', 88) ∧ s'.mem.alive 1 = true ∧ s'.mem.alive 2 = true ∧
    s'.mem.alive 3 = false ∧ s'.mem.alive 4 = false ∧ s'.heap.bytesAllocated = 88 ∧ ¬ p.st.mem.Reachable 3 := by
  have hrooted : ∀ (s : St) (a : Addr), s.mem.alive a = true → 0 < s.mem.rootCount a → ∀ p ∈ [a], s.mem.Reachable p := by
    intro s a ha hr p hp
    obtain rfl : p = a := List.mem_singleton.1 hp
    exact Mem.Rooted.reachable ⟨ha, hr⟩
  have h₁ : Reach Step (· = ⟨.fresh .default, []⟩) ⟨_, [1]⟩ := .step (.init rfl)
    (.allocate (d := .leaf 40) rfl fun p hp => by cases hp)
  have h₂ : Reach Step (· = ⟨.fresh .default, []⟩) ⟨_, [2, 1]⟩ :=
    h₁.step (.allocate (d := .node 48 [1]) (by decide) (hrooted _ 1 (by decide) (by decide)))
  have h₃ : Reach Step (· = ⟨.fresh .default, []⟩) ⟨_, [2]⟩ := h₂.step (.dropRoot (a := 1) (by decide))
  have h₄ : Reach Step (· = ⟨.fresh .default, []⟩) ⟨_, [3, 2]⟩ :=
    h₃.step (.allocate (d := .node 48 []) (by decide) fun p hp => by cases hp)
  have h₅ : Reach Step (· = ⟨.fresh .default, []⟩) ⟨_, [4, 3, 2]⟩ :=
    h₄.step (.allocate (d := .node 48 [3]) (by decide) (hrooted _ 3 (by decide) (by decide)))
  have h₆ := h₅.step (.set (o := 3) (k := 0) (by decide) (by decide) (hrooted _ 4 (by decide) (by decide)))
  have h₇ : Reach Step (· = ⟨.fresh .default, []⟩) ⟨_, [4, 2]⟩ := h₆.step (.dropRoot (a := 3) (by decide))
  have h₈ : Reach Step (· = ⟨.fresh .default, []⟩) ⟨_, [2]⟩ := h₇.step (.dropRoot (a := 4) (by decide))
  obtain ⟨_, _, _, _, _, hex⟩ := stop_the_world_exact .default (by decide) _ h₈
  refine ⟨_, 8, _, h₈, rfl, (by decide : 1 ∈ _), (by decide : 4 ∈ _), (by decide : 3 ∈ _), rfl, by decide, by decide,
    by decide, by decide, by decide, fun hr => ?_⟩
  exact absurd (((hex 8 _ _ rfl).survivors 3).2 ⟨by decide, hr⟩) (by decide)

end Abfall.StopTheWorld
