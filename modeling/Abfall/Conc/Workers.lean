import Abfall.Conc.Worker
/-!
# Any number of workers, any schedule

The collector scans the roots object by object (`do_mark_roots`, `heap.rs:503-518`) and merges them;
any number of workers (the collector and the allocators that assist) call `do_mark_with_tracer` with
budgets of their own. The object graph stands still.

Wherever an object waits (in the shared queue, in some worker's tracer, in the middle of being traced,
as a White root the scan has not reached), it is pending in one search from the roots. Each step of
each worker is a step of that search, so the order does not matter: when nothing is pending the Black
objects are the reachable ones (`marking_exact`).
-/
namespace Abfall.Workers
open Chain Transition Worklist

abbrev WorkerId := Nat

inductive ScanPc
  | scanning (current : Option Addr) (tracer : Tracer)
  | done

def ScanPc.tracer : ScanPc → Tracer
  | .scanning _ t => t
  | .done => []

structure Sys where
  shared : Shared
  workers : WorkerId → Worker
  scan : ScanPc

inductive Label
  | scan
  | scanMerge
  | call (i : WorkerId) (workBudget : Nat)
  | work (i : WorkerId)

inductive Step : Sys → Label → Sys → Prop
  | scan {s : Sys} {a : Addr} {t : Tracer} : s.scan = .scanning (some a) t →
      Step s .scan ⟨⟨(s.shared.mem.scanRoot t a).1, s.shared.queue⟩, s.workers,
        .scanning (s.shared.mem.next a) (s.shared.mem.scanRoot t a).2⟩
  | scanMerge {s : Sys} {t : Tracer} : s.scan = .scanning none t →
      Step s .scanMerge ⟨⟨s.shared.mem, t ++ s.shared.queue⟩, s.workers, .done⟩
  | call {s : Sys} (i : WorkerId) (b : Nat) : (s.workers i).pc = .ret →
      Step s (.call i b) ⟨s.shared, Function.update s.workers i (.call [] b), s.scan⟩
  | work {s : Sys} {sh' : Shared} {w' : Worker} (i : WorkerId) : Worker.Step s.shared (s.workers i) sh' w' →
      Step s (.work i) ⟨sh', Function.update s.workers i w', s.scan⟩

/-- The start of a marking phase: all White, nothing queued, no worker inside a call. -/
structure Start (s : Sys) : Prop where
  list : ∃ head l, s.scan = .scanning head [] ∧ Seg s.shared.mem.next head l none ∧
    ∀ a, a ∈ l ↔ s.shared.mem.alive a = true
  closed : ∀ a b, s.shared.mem.alive a = true → s.shared.mem.Edge a b → s.shared.mem.alive b = true
  white : ∀ a, s.shared.mem.alive a = true → s.shared.mem.color a = .white
  queue : s.shared.queue = []
  workers : ∀ i, (s.workers i).pc = .ret ∧ (s.workers i).tracer = []

/-! ## The invariant -/

/-- What waits for worker `i`'s eyes is elsewhere: with the others or with the scan. -/
def others (s : Sys) (i : WorkerId) : Set Addr :=
  {x | (∃ j, j ≠ i ∧ x ∈ (s.workers j).held) ∨ x ∈ s.scan.tracer}

/-- Everything that waits, apart from the roots still to be scanned. -/
def waits (s : Sys) : Set Addr := {x | x ∈ s.shared.queue ∨ (∃ j, x ∈ (s.workers j).held) ∨ x ∈ s.scan.tracer}

theorem waits_eq (s : Sys) (i : WorkerId) : waits s = others s i ∪ Worker.pend s.shared.queue (s.workers i) := by
  ext x
  simp only [waits, others, Worker.pend, Set.mem_union, Set.mem_ofPred_eq]
  constructor
  · rintro (h | ⟨j, h⟩ | h)
    · exact .inr (.inl h)
    · by_cases hj : j = i
      · subst hj; exact .inr (.inr h)
      · exact .inl (.inl ⟨j, hj, h⟩)
    · exact .inl (.inr h)
  · rintro ((⟨j, _, h⟩ | h) | h | h)
    · exact .inr (.inl ⟨j, h⟩)
    · exact .inr (.inr h)
    · exact .inl h
    · exact .inr (.inl ⟨i, h⟩)

/-- After worker `i` moved, the others are as before. -/
theorem waits_update (s : Sys) (i : WorkerId) (sh' : Shared) (w' : Worker) :
    waits ⟨sh', Function.update s.workers i w', s.scan⟩ = others s i ∪ Worker.pend sh'.queue w' := by
  rw [waits_eq _ i]
  have e : others ⟨sh', Function.update s.workers i w', s.scan⟩ i = others s i := by
    ext x
    simp only [others, Set.mem_ofPred_eq]
    constructor
    · rintro (⟨j, hj, h⟩ | h)
      · rw [Function.update_of_ne hj] at h
        exact .inl ⟨j, hj, h⟩
      · exact .inr h
    · rintro (⟨j, hj, h⟩ | h)
      · exact .inl ⟨j, hj, by rw [Function.update_of_ne hj]; exact h⟩
      · exact .inr h
  rw [e]
  simp only [Function.update_self]

/-- The objects the scan has still to visit. -/
def ScanAt (m : Mem) (rest : List Addr) : ScanPc → Prop
  | .scanning cur _ => Seg m.next cur rest none
  | .done => rest = []

/-- The search of the marking phase that started in `m₀`. -/
structure Inv (m₀ : Mem) (s : Sys) (rest : List Addr) : Prop where
  search : MarkInv m₀ (seen m₀) {x | m₀.Rooted x} s.shared.mem (waits s ∪ whiteRoots s.shared.mem rest)
  tracing : ∀ i, Worker.Tracing m₀.Edge (seen s.shared.mem) (s.workers i)
  gray : ∀ x, s.shared.mem.color x = .gray → x ∈ seen m₀ ∨ x ∈ waits s
  scan : ScanAt m₀ rest s.scan
  settled : ∀ i, (s.workers i).Settled

theorem Start.inv {s : Sys} (h : Start s) : ∃ rest, Inv s.shared.mem s rest := by
  obtain ⟨head, l, hscan, hl, hal⟩ := h.list
  have hheld : ∀ i, (s.workers i).held = [] := by
    intro i
    obtain ⟨hpc, ht⟩ := h.workers i
    simp [Worker.held, hpc, ht]
  have hw : waits s = ∅ := by
    ext x
    simp [waits, h.queue, hheld, hscan, ScanPc.tracer]
  refine ⟨l, ⟨.refl _, ?_⟩, fun i => Worker.tracing_of_ne fun p ps hp => ?_, fun x hg => .inl ?_, ?_,
    fun i _ => (h.workers i).2⟩
  · -- the White roots of the list are the roots
    have e : waits s ∪ whiteRoots s.shared.mem l = {x | s.shared.mem.Rooted x} := by
      ext x
      simp only [hw, Set.empty_union, whiteRoots, Mem.Rooted, hal, Set.mem_ofPred_eq]
      constructor
      · rintro ⟨h1, h2, _⟩; exact ⟨h1, h2⟩
      · rintro ⟨h1, h2⟩; exact ⟨h1, h2, h.white x h1⟩
    rw [e]
    exact .refl
  · rw [(h.workers i).1] at hp; cases hp
  · simp [seen, hg]
  · rw [hscan]; exact hl

variable {m₀ : Mem} {s : Sys} {rest : List Addr}

theorem inv_work (h : Inv m₀ s rest) {i : WorkerId} {sh' : Shared} {w' : Worker}
    (hst : Worker.Step s.shared (s.workers i) sh' w') :
    Inv m₀ ⟨sh', Function.update s.workers i w', s.scan⟩ rest := by
  have hsame := h.search.1
  have hset : waits s ∪ whiteRoots s.shared.mem rest =
      (others s i ∪ whiteRoots s.shared.mem rest) ∪ Worker.pend s.shared.queue (s.workers i) := by
    rw [waits_eq s i, Set.union_right_comm]
  have hsearch := h.search
  rw [hset] at hsearch
  obtain ⟨⟨hsame', hinv⟩, htr⟩ := hst.search hsearch (h.tracing i)
  refine ⟨⟨hsame', ?_⟩, fun j => ?_, fun x hg => ?_, h.scan, fun j => ?_⟩
  · -- a root that a worker has shaded is pending with it, or done
    rw [waits_update]
    refine hinv.finish ?_ ?_
    · rintro x ((hx | hx) | ⟨hx, hr, hw⟩)
      · exact .inl (.inl hx)
      · exact .inr hx
      · refine .inl (.inr ⟨hx, ?_, ?_⟩)
        · change 0 < sh'.mem.rootCount x at hr
          rwa [hst.same.rootCount] at hr
        · by_contra hc
          exact hst.mono hc hw
    · rintro z ((hz | ⟨hz, hr, hw⟩) | hz) hz'
      · exact absurd (.inl (.inl hz)) hz'
      · have hn : sh'.mem.color z ≠ .white := by
          intro hw'
          refine hz' (.inr ⟨hz, ?_, hw'⟩)
          show 0 < sh'.mem.rootCount z
          rw [hst.same.rootCount]
          exact hr
        rcases hst.shaded hsame (h.tracing i) hw hn with hp | hp
        · exact absurd (.inl (.inr hp)) hz'
        · exact ⟨hn, hp⟩
      · exact absurd (.inl (.inr hz)) hz'
  · by_cases hj : j = i
    · subst hj
      simp only [Function.update_self]
      exact htr
    · simp only [Function.update_of_ne hj]
      exact (h.tracing j).mono fun x hx => hst.mono hx
  · rw [waits_update]
    rcases hst.gray hg with hx | ⟨hg', hnp⟩
    · exact .inr (.inr hx)
    · refine (h.gray x hg').imp id fun hx => ?_
      rw [waits_eq s i] at hx
      exact .inl (hx.resolve_right hnp)
  · by_cases hj : j = i
    · subst hj
      simp only [Function.update_self]
      exact hst.settled
    · simp only [Function.update_of_ne hj]
      exact h.settled j

/-- A call starts with an empty tracer. -/
theorem inv_call (h : Inv m₀ s rest) {i : WorkerId} (b : Nat) (hpc : (s.workers i).pc = .ret) :
    Inv m₀ ⟨s.shared, Function.update s.workers i (.call [] b), s.scan⟩ rest := by
  have hheld : (s.workers i).held = [] := by
    simp [Worker.held, hpc, h.settled i hpc]
  have hw : waits ⟨s.shared, Function.update s.workers i (.call [] b), s.scan⟩ = waits s := by
    rw [waits_update, waits_eq s i]
    simp only [Worker.pend, hheld]
    rfl
  refine ⟨by rw [hw]; exact h.search, fun j => ?_, fun x hg => by rw [hw]; exact h.gray x hg, h.scan, fun j => ?_⟩
  · by_cases hj : j = i
    · subst hj
      simp only [Function.update_self]
      exact Worker.tracing_of_ne fun p ps hp => by cases hp
    · simp only [Function.update_of_ne hj]
      exact h.tracing j
  · by_cases hj : j = i
    · subst hj
      simp only [Function.update_self]
      intro _; rfl
    · simp only [Function.update_of_ne hj]
      exact h.settled j

theorem inv_scan (h : Inv m₀ s rest) {a : Addr} {t : Tracer} (hpc : s.scan = .scanning (some a) t) :
    ∃ rest', Inv m₀ ⟨⟨(s.shared.mem.scanRoot t a).1, s.shared.queue⟩, s.workers,
      .scanning (s.shared.mem.next a) (s.shared.mem.scanRoot t a).2⟩ rest' := by
  have hat := h.scan
  rw [hpc] at hat
  obtain ⟨rest', rfl, hseg⟩ := seg_head hat
  have hset : ∀ (m : Mem) (c : Option Addr) (t : Tracer), waits ⟨⟨m, s.shared.queue⟩, s.workers, .scanning c t⟩ =
      {x | x ∈ s.shared.queue ∨ ∃ j, x ∈ (s.workers j).held} ∪ {x | x ∈ t} := by
    intro m c t
    ext x
    simp only [waits, ScanPc.tracer, Set.mem_union, Set.mem_ofPred_eq, or_assoc]
  have hws : waits s = {x | x ∈ s.shared.queue ∨ ∃ j, x ∈ (s.workers j).held} ∪ {x | x ∈ t} := by
    rw [← hset s.shared.mem (some a) t, ← hpc]
  have hsearch := h.search
  rw [hws] at hsearch
  refine ⟨rest', ?_, fun i => ?_, fun x hg => ?_, ?_, h.settled⟩
  · rw [hset]
    exact hsearch.scanRoot
  · exact (h.tracing i).mono fun x hx => s.shared.mem.scanRoot_mono t a hx
  · rw [hset]
    rcases s.shared.mem.scanRoot_gray t a hg with hg | hx
    · refine (h.gray x hg).imp id fun hx => ?_
      rw [hws] at hx
      exact hx.imp id fun hx => s.shared.mem.scanRoot_tracer t a hx
    · exact .inr (.inr hx)
  · show Seg m₀.next (s.shared.mem.next a) rest' none
    rw [h.search.1.next]
    exact hseg

theorem inv_scanMerge (h : Inv m₀ s rest) {t : Tracer} (hpc : s.scan = .scanning none t) :
    Inv m₀ ⟨⟨s.shared.mem, t ++ s.shared.queue⟩, s.workers, .done⟩ [] := by
  have hat := h.scan
  rw [hpc] at hat
  obtain rfl : rest = [] := by
    cases rest with
    | nil => rfl
    | cons b r => exact absurd hat.1 (by simp)
  have hw : waits ⟨⟨s.shared.mem, t ++ s.shared.queue⟩, s.workers, .done⟩ = waits s := by
    ext x
    simp only [waits, ScanPc.tracer, hpc, Set.mem_ofPred_eq, List.mem_append, List.not_mem_nil, or_false]
    tauto
  exact ⟨by rw [hw]; exact h.search, h.tracing, fun x hg => by rw [hw]; exact h.gray x hg, rfl, h.settled⟩

theorem step_inv {s' : Sys} {l : Label} (h : ∃ rest, Inv m₀ s rest) (hst : Step s l s') : ∃ rest, Inv m₀ s' rest := by
  obtain ⟨rest, h⟩ := h
  cases hst with
  | scan hpc => exact inv_scan h hpc
  | scanMerge hpc => exact ⟨[], inv_scanMerge h hpc⟩
  | call i b hpc => exact ⟨rest, inv_call h b hpc⟩
  | work i hw => exact ⟨rest, inv_work h hw⟩

/-- On White objects that point to allocated objects only, what the search finds is what is reachable. -/
theorem found_iff_reachable {m : Mem} (hcl : ∀ a b, m.alive a = true → m.Edge a b → m.alive b = true)
    (hw : ∀ a, m.alive a = true → m.color a = .white) (x : Addr) :
    Found m.Edge (seen m) {y | m.Rooted y} x ↔ m.Reachable x := by
  constructor
  · rintro ⟨r, hr, hp⟩
    have hsub : Fresh m.Edge (seen m) ≤ m.Edge := fun _ _ h => h.1
    exact ⟨r, hr, Relation.ReflTransGen.mono hsub _ _ hp⟩
  · rintro ⟨r, hr, hp⟩
    have key : m.alive x = true ∧ Relation.ReflTransGen (Fresh m.Edge (seen m)) r x := by
      induction hp with
      | refl => exact ⟨hr.1, .refl⟩
      | @tail y z _ he ih =>
        have hz := hcl y z ih.1 he
        exact ⟨hz, ih.2.tail ⟨he, fun hs => hs (hw z hz)⟩⟩
    exact ⟨r, hr, key.2⟩

/-- **Marking computes reachability whatever the schedule.** After the root scan, in every state where
the queue is empty and no worker holds anything, the Black objects are those that were reachable from
the roots when marking started, and all others are White. -/
theorem marking_exact (s₀ s : Sys) (h₀ : Start s₀) (hs : Reach Step (· = s₀) s) (hscan : s.scan = .done)
    (hq : s.shared.queue = []) (hw : ∀ i, (s.workers i).held = []) (a : Addr)
    (ha : s₀.shared.mem.alive a = true) :
    (s.shared.mem.color a = .black ↔ s₀.shared.mem.Reachable a) ∧
    (s.shared.mem.color a ≠ .black → s.shared.mem.color a = .white) := by
  obtain ⟨rest, hi⟩ : ∃ rest, Inv s₀.shared.mem s rest := by
    refine hs.inv (I := fun s => ∃ rest, Inv s₀.shared.mem s rest) (fun s e => ?_) fun _ _ _ => step_inv
    subst e
    exact h₀.inv
  have hat := hi.scan
  rw [hscan] at hat
  obtain rfl : rest = [] := hat
  have hempty : waits s = ∅ := by
    ext x
    simp [waits, hq, hw, hscan, ScanPc.tracer]
  have hwa := h₀.white a ha
  have hnotgray : s.shared.mem.color a ≠ .gray := by
    intro hg
    rcases hi.gray a hg with hx | hx
    · exact hx hwa
    · rw [hempty] at hx; exact hx
  have hsearch := hi.search.2
  have e : waits s ∪ whiteRoots s.shared.mem [] = ∅ := by
    rw [hempty]
    ext x
    simp [whiteRoots]
  rw [e] at hsearch
  have hseen := hsearch.seen_iff a
  rw [found_iff_reachable h₀.closed h₀.white] at hseen
  have hns : a ∉ seen s₀.shared.mem := fun hx => hx hwa
  have hiff : s.shared.mem.color a ≠ .white ↔ s₀.shared.mem.Reachable a := by
    exact hseen.trans (or_iff_right hns)
  cases hc : s.shared.mem.color a with
  | white => simp [← hiff, hc]
  | gray => exact absurd hc hnotgray
  | black => simp [← hiff, hc]

/-- `1` is rooted and points to `2`; `3` is garbage. -/
def graph : Mem :=
  ((((Mem.empty.newBox 3 (.leaf 8)).setRootCount 3 0).newBox 2 (.leaf 8)).setNext 2 (some 3)).setRootCount 2 0
    |>.newBox 1 (.node 48 [2]) |>.setNext 1 (some 2)

theorem graph_alive (a : Addr) : graph.alive a = true ↔ a ∈ [1, 2, 3] := by
  simp only [graph, Mem.newBox, Mem.setNext, Mem.setRootCount, Mem.empty, Function.update_apply, List.mem_cons,
    List.not_mem_nil, or_false]
  split
  · simp [*]
  · split
    · simp [*]
    · split <;> simp [*]

/-- Two workers about to help. -/
def begin : Sys := ⟨⟨graph, []⟩, fun _ => ⟨[], 0, 0, .ret⟩, .scanning (some 1) []⟩

theorem start_begin : Start begin where
  list := ⟨some 1, [1, 2, 3], rfl, ⟨rfl, rfl, rfl, rfl⟩, fun a => (graph_alive a).symm⟩
  closed := by
    intro a b ha he
    rcases (by simpa using (graph_alive a).1 ha : a = 1 ∨ a = 2 ∨ a = 3) with rfl | rfl | rfl
    · obtain rfl : b = 2 := List.mem_singleton.1 he
      decide
    · cases he
    · cases he
  white := by
    intro a ha
    rcases (by simpa using (graph_alive a).1 ha : a = 1 ∨ a = 2 ∨ a = 3) with rfl | rfl | rfl <;> decide
  queue := rfl
  workers := fun _ => ⟨rfl, rfl⟩

/-- Two workers take turns. -/
theorem marking_exact_two : ∃ s, Reach Step (· = begin) s ∧ s.shared.mem.color 1 = .black ∧
    begin.shared.mem.Reachable 2 ∧ s.shared.mem.color 2 = .black ∧ ¬ begin.shared.mem.Reachable 3 := by
  have h₁ : Reach Step (· = begin) _ := .step (.init rfl) (Step.scan rfl)
  have h₂ := h₁.step (Step.scan rfl)
  have h₃ := h₂.step (Step.scan rfl)
  have h₄ := h₃.step (Step.scanMerge rfl)
  have h₅ := h₄.step (Step.call 0 1 rfl)
  have h₆ := h₅.step (Step.call 1 5 rfl)
  have h₇ := h₆.step (Step.work 0 (Worker.Step.steal (by decide) rfl))
  have h₈ := h₇.step (Step.work 1 (Worker.Step.noWork (by decide) rfl))
  have h₉ := h₈.step (Step.work 0 (Worker.Step.pop (by decide)))
  have h₁₀ := h₉.step (Step.work 0 Worker.Step.mark)
  have h₁₁ := h₁₀.step (Step.work 0 Worker.Step.blacken)
  have h₁₂ := h₁₁.step (Step.work 0 (Worker.Step.spent (by decide)))
  have hexact := marking_exact begin _ start_begin h₁₂ rfl rfl fun i => by
    by_cases hi₀ : i = 0
    · subst hi₀; rfl
    · by_cases hi₁ : i = 1
      · subst hi₁; rfl
      · simp only [Function.update_of_ne hi₀, Function.update_of_ne hi₁]; rfl
  exact ⟨_, h₁₂, by decide, (hexact 2 (by decide)).1.1 (by decide), by decide,
    fun h3 => absurd ((hexact 3 (by decide)).1.2 h3) (by decide)⟩

end Abfall.Workers
