import Abfall.Conc.Sweeping
/-!
# One collection cycle after another, with sweeps that mutators interrupt

A `background_gc_thread` (`heap.rs:614-649`) that nobody stops: the cycles of `Abfall.Incremental`, with the object-by-object
sweep of `Abfall.Conc.Sweeping` in place of its one sweep step, and mutators in between all of it.

| here | there |
| --- | --- |
| `Step.cycle`                  | the root scan, `do_mark_incremental` and the busy check, as in `Abfall.Incremental` |
| `Step.startSweep` to `finish` | `do_sweep` (`:520-559`), as in `Abfall.Conc.Sweeping` |
| `Step.endSweep`               | `update_threshold` and the second `finish_gc` of `sweep_and_finish` (`:417-418`) |

A sweep that is interrupted can leave a heap that the next cycle does not cope with: a push that the sweep overwrites
is not on the list any more, so its object is not scanned as a root (`lost_push_frees_reachable`), and a pointer that is stored to
a White object ahead of the sweep can be left dangling. `Undisturbed` rules out both, and asks of the marking phase what
`Spared` does. Then every cycle starts from a well-formed heap, and no reachable object is freed in any of them (`cycles_safe`).
-/
namespace Abfall.SweepCycles
open Chain Transition
open Incremental (BgPc Resting)
open Sweeping (sweepRound)

inductive Pc
  | cycle (pc : BgPc)
  | sweep (pc : Sweeping.Pc)
  /-- `do_sweep` has returned the bytes that were left. -/
  | ending (live : Nat)

structure Sys where
  st : St
  pc : Pc

inductive Op
  | cycle (op : Incremental.Op)
  | startSweep
  | load
  | round
  | finish
  | endSweep
  | mutate (op : MutOp)

/-- What the collector does before it sweeps. -/
def Marks : Incremental.Op → Prop
  | .sweep _ => False
  | .mutate _ => False
  | _ => True

inductive Step : Sys → Op → Sys → Prop
  | cycle {s s' : St} {pc pc' : BgPc} {op : Incremental.Op} : Incremental.Step ⟨s, pc⟩ op ⟨s', pc'⟩ → Marks op →
      Step ⟨s, .cycle pc⟩ (.cycle op) ⟨s', .cycle pc'⟩
  | startSweep {s : St} : Step ⟨s, .cycle .complete⟩ .startSweep ⟨⟨s.mem, s.heap.startSweeping⟩, .sweep .loading⟩
  | load {s : St} : Step ⟨s, .sweep .loading⟩ .load ⟨s, .sweep (.walking s.heap.head .head 0)⟩
  | round {s : St} {a : Addr} {prev : PrevNext} {freed : Nat} : Step ⟨s, .sweep (.walking (some a) prev freed)⟩ .round
      ⟨(sweepRound s a prev freed).st, .sweep (sweepRound s a prev freed).pc⟩
  | finish {s : St} {prev : PrevNext} {freed : Nat} : Step ⟨s, .sweep (.walking none prev freed)⟩ .finish
      ⟨⟨s.mem, (s.heap.withBytes (s.heap.bytesAllocated - freed)).finishGc⟩, .ending (s.heap.bytesAllocated - freed)⟩
  | endSweep {s : St} {live : Nat} : Step ⟨s, .ending live⟩ .endSweep
      ⟨⟨s.mem, (s.heap.updateThreshold live).finishGc⟩, .cycle .waiting⟩
  | mutate {s : St} {pc : Pc} (op : MutOp) : op.Allowed s.mem.Reachable s → Step ⟨s, pc⟩ (.mutate op) ⟨s.mutate op, pc⟩

/-- The pointers an operation stores. -/
def stored : MutOp → List Addr
  | .allocate _ d => d.ptrs
  | .set _ _ vals => vals
  | _ => []

/-- Marking is as in `Spared`; during a sweep no pointer is stored to a White object that the sweep has still to pass;
and the sweep does not write `head` over a push. -/
def Undisturbed (p : Sys) : Op → Prop
  | .mutate op =>
    match p.pc with
    | .cycle pc => Incremental.Spared ⟨p.st, pc⟩ (.mutate op)
    | .sweep pc => ∀ b ∈ stored op, Sweeping.Ahead ⟨p.st, pc⟩ b → p.st.mem.color b ≠ .white
    | .ending _ => True
  | .round =>
    match p.pc with
    | .sweep (.walking (some a) .head _) => p.st.mem.isWhite a = true → p.st.heap.head = some a
    | _ => True
  | _ => True

/-! ## In the middle of a sweep -/

/-- The sweep will free the object unless it gets a root. -/
def Risky (m : Mem) (l : List Addr) (b : Addr) : Prop := b ∈ l ∧ m.color b = .white

/-- The sweep has passed the objects `pre` or never had them, and is going to visit `l`. -/
structure Halfway (s : St) (pre l : List Addr) (freed : Nat) : Prop where
  noFault : s.mem.fault = false
  phase : s.heap.phase = .sweeping
  seg : Seg s.mem.next s.heap.head (pre ++ l) none
  alive : ∀ a, a ∈ pre ++ l ↔ s.mem.alive a = true
  bytes : s.heap.bytesAllocated = sizeSum s.mem (pre ++ l) + freed
  white : ∀ a ∈ pre, s.mem.color a = .white
  closed : ∀ a b, s.mem.alive a = true → a ∉ dead s.mem l → s.mem.Edge a b → s.mem.alive b = true ∧ ¬ Risky s.mem l b
  queue : ∀ a ∈ s.heap.grayQueue, s.mem.alive a = true ∧ ¬ Risky s.mem l a

section
variable {s : St} {pre l : List Addr} {freed : Nat}

theorem Halfway.not_marking (h : Halfway s pre l freed) : s.heap.phase ≠ .marking := by
  rw [h.phase]
  decide

/-- What is reachable will survive. -/
theorem Halfway.reachable (h : Halfway s pre l freed) {a : Addr} (ha : s.mem.Reachable a) :
    s.mem.alive a = true ∧ a ∉ dead s.mem l := by
  refine ha.of_closed (S := fun a => s.mem.alive a = true ∧ a ∉ dead s.mem l) (fun a hr => ⟨hr.1, fun hd => ?_⟩)
    fun a b hab he => ?_
  · exact hr.2.ne' (mem_dead.1 hd).2.2
  · obtain ⟨hal, hrisk⟩ := h.closed a b hab.1 hab.2 he
    exact ⟨hal, fun hd => hrisk ⟨(mem_dead.1 hd).1, (mem_dead.1 hd).2.1⟩⟩

/-- Marking has completed: what is shaded or rooted stores shaded pointers only. -/
theorem halfway_start (h : Incremental.Active s) (hd : Incremental.Done s.mem (waiting [] s.heap.grayQueue))
    (hl : Listed s l) : Halfway ⟨s.mem, s.heap.startSweeping⟩ [] l 0 := by
  refine ⟨h.wf.sane.noFault, rfl, hl.seg, hl.alive, hl.bytes, fun a ha => (by cases ha), fun a b ha hnd he => ?_,
    fun a ha => ?_⟩
  · refine ⟨h.wf.sane.closed a b ha he, fun hr => ?_⟩
    have hshaded : Incremental.Shaded s.mem a := by
      by_cases hw : s.mem.color a = .white
      · have hpos : 0 < s.mem.rootCount a := by
          by_contra h0
          exact hnd (mem_dead.2 ⟨(hl.alive a).2 ha, hw, Nat.eq_zero_of_not_pos h0⟩)
        exact (h.roots a ⟨ha, hpos⟩).resolve_left fun hc => hc hw
      · exact hd.closed a ha hw
    exact hshaded b he hr.2
  · obtain ⟨hal, hc⟩ := hd.queued a (.inr ha)
    exact ⟨hal, fun hr => hc hr.2⟩

theorem Halfway.seg_rest (h : Halfway s pre l freed) : Seg s.mem.next l.head? l none := by
  obtain ⟨p, _, hp⟩ := seg_append.1 h.seg
  rwa [seg_start hp] at hp

/-- A count that changes does not touch an object that is going to be freed, except to make one. -/
theorem Halfway.setRootCount (h : Halfway s pre l freed) {a : Addr} {n : Nat} (ha : s.mem.alive a = true)
    (hnd : a ∉ dead s.mem l) : Halfway ⟨(s.mem.touch a).setRootCount a n, s.heap⟩ pre l freed := by
  refine ⟨touch_fault h.noFault ha, h.phase, h.seg, h.alive, h.bytes, h.white, fun x y hx hxd he => ?_, h.queue⟩
  refine h.closed x y hx (fun hd => ?_) he
  obtain ⟨hxl, hw, h0⟩ := mem_dead.1 hd
  by_cases hxa : x = a
  · exact hnd (hxa ▸ hd)
  · refine hxd (mem_dead.2 ⟨hxl, hw, ?_⟩)
    show Function.update s.mem.rootCount a n x = 0
    rw [Function.update_of_ne hxa]
    exact h0

theorem Halfway.storeCell (h : Halfway s pre l freed) {o : Addr} {k : Nat} {vals : List Addr} (ho : s.mem.alive o = true)
    (hv : ∀ b ∈ vals, s.mem.alive b = true ∧ ¬ Risky s.mem l b) : Halfway (s.storeCell o k vals) pre l freed := by
  have hsize : ∀ x, ((s.storeCell o k vals).mem.data x).size = (s.mem.data x).size := by
    intro x
    show (Function.update s.mem.data o ((s.mem.data o).setCell k vals) x).size = _
    by_cases hx : x = o
    · rw [hx, Function.update_self]
      rfl
    · rw [Function.update_of_ne hx]
  refine ⟨touch_fault h.noFault ho, h.phase, h.seg, h.alive, ?_, h.white, fun x y hx hxd he => ?_, h.queue⟩
  · rw [sizeSum_congr fun x _ => hsize x]
    exact h.bytes
  · rcases St.storeCell_edge he with ⟨_, hy⟩ | he
    · exact hv y hy
    · exact h.closed x y hx hxd he

/-- A new object is in front of the list. It is ahead of the sweep when `head` is not loaded yet. -/
theorem Halfway.push (h : Halfway s pre l freed) {a : Addr} {d : Data} (ha : s.mem.alive a = false)
    (hv : ∀ b ∈ d.ptrs, s.mem.alive b = true ∧ ¬ Risky s.mem l b) {pre' l' : List Addr}
    (happ : pre' ++ l' = a :: (pre ++ l)) (hpre : ∀ x ∈ pre', x = a ∨ x ∈ pre) (hl' : ∀ x ∈ l', x = a ∨ x ∈ l)
    (hl : ∀ x ∈ l, x ∈ l') : Halfway (s.push a d) pre' l' freed := by
  have hne : ∀ {x}, s.mem.alive x = true → x ≠ a := Mem.ne_of_alive ha
  have hal : a ∉ pre ++ l := fun hm => hne ((h.alive a).1 hm) rfl
  have hcol : ∀ {x}, x ≠ a → (s.push a d).mem.color x = s.mem.color x := fun hx => Function.update_of_ne hx _ _
  have hrc : ∀ {x}, x ≠ a → (s.push a d).mem.rootCount x = s.mem.rootCount x := fun hx => Function.update_of_ne hx _ _
  have hrisk : ∀ b, s.mem.alive b = true ∧ ¬ Risky s.mem l b →
      (s.push a d).mem.alive b = true ∧ ¬ Risky (s.push a d).mem l' b := by
    rintro b ⟨hb, hr⟩
    refine ⟨St.push_alive.2 (.inr hb), fun hr' => hr ⟨(hl' b hr'.1).resolve_left (hne hb), ?_⟩⟩
    rw [← hcol (hne hb)]
    exact hr'.2
  have hlisted : ∀ x, x ∈ pre' ++ l' ↔ x = a ∨ x ∈ pre ++ l := fun x => by rw [happ, List.mem_cons]
  refine ⟨h.noFault, h.phase, ?_, fun x => ?_, ?_, fun x hx => ?_, fun x y hx hxd he => ?_,
    fun x hx => hrisk x (h.queue x hx)⟩
  · have hnext : (s.push a d).mem.next = Function.update s.mem.next a s.heap.head := by
      simp [St.push, Mem.setNext, Mem.newBox]
    rw [hnext, happ]
    exact seg_push hal h.seg
  · rw [hlisted, h.alive, St.push_alive]
  · have hsum : sizeSum (s.push a d).mem (pre ++ l) = sizeSum s.mem (pre ++ l) :=
      sizeSum_congr fun x hx => by rw [St.push_data (ne_of_mem_of_not_mem hx hal)]
    have hbytes : (s.push a d).heap.bytesAllocated = s.heap.bytesAllocated + d.size := rfl
    rw [happ, sizeSum_cons, s.push_data_self a d, hsum, hbytes, h.bytes]
    omega
  · rcases hpre x hx with rfl | hx
    · exact Function.update_self _ _ _
    · have hxa : x ≠ a := hne ((h.alive x).1 (List.mem_append_left l hx))
      rw [hcol hxa]
      exact h.white x hx
  · rcases St.push_edge.1 he with ⟨_, hy⟩ | ⟨hxa, he⟩
    · exact hrisk y (hv y hy)
    · refine hrisk y (h.closed x y ((St.push_alive.1 hx).resolve_left hxa) (fun hd => hxd ?_) he)
      obtain ⟨hxl, hw, h0⟩ := mem_dead.1 hd
      exact mem_dead.2 ⟨hl x hxl, by rw [hcol hxa]; exact hw, by rw [hrc hxa]; exact h0⟩

/-- The sweep frees the object it stands at. -/
theorem Halfway.drop {a : Addr} {r : List Addr} {prev : PrevNext} (h : Halfway s pre (a :: r) freed) (hprev : PrevOk pre prev)
    (hw : s.mem.isWhite a = true) : ¬ s.mem.Reachable a ∧ ∃ s', Halfway s' pre r (freed + (s.mem.data a).size) ∧
      (∀ x, x ≠ a → s'.mem.alive x = s.mem.alive x) ∧
      sweepRound s a prev freed = ⟨s', .walking r.head? prev (freed + (s.mem.data a).size)⟩ := by
  have halive : s.mem.alive a = true := (h.alive a).1 (by simp)
  have hmid := seg_middle h.seg
  have hdead : a ∈ dead s.mem (a :: r) := by simp [dead, hw]
  obtain ⟨nx, hd, e, hseg, hrest⟩ := storePrev_unlink hprev h.seg fun x hx => (h.alive x).1 (List.mem_append_left _ hx)
  refine ⟨fun hr => (h.reachable hr).2 hdead, ⟨{ s.mem with next := nx }.drop a, s.heap.withHead hd⟩, ?_,
    fun x hx => ?_, ?_⟩
  · have hal : ∀ {x}, ({ s.mem with next := nx }.drop a).alive x = true ↔ x ≠ a ∧ s.mem.alive x = true := Mem.drop_alive
    have hkeep : ∀ b, s.mem.alive b = true ∧ ¬ Risky s.mem (a :: r) b →
        ({ s.mem with next := nx }.drop a).alive b = true ∧ ¬ Risky ({ s.mem with next := nx }.drop a) r b := by
      rintro b ⟨hb, hr⟩
      refine ⟨hal.2 ⟨?_, hb⟩, fun hr' => hr ⟨List.mem_cons_of_mem a hr'.1, hr'.2⟩⟩
      rintro rfl
      exact hr ⟨by simp, (mem_dead.1 hdead).2.1⟩
    refine ⟨h.noFault, h.phase, hseg, fun x => ?_, ?_, h.white, fun x y hx hxd he => ?_, fun x hx => hkeep x (h.queue x hx)⟩
    · rw [mem_unlink hmid.1 x, h.alive, hal]
    · have hperm : sizeSum s.mem (pre ++ a :: r) = sizeSum s.mem (a :: (pre ++ r)) := sizeSum_perm List.perm_middle
      have hsum : sizeSum ({ s.mem with next := nx }.drop a) (pre ++ r) = sizeSum s.mem (pre ++ r) := rfl
      have hbytes : (s.heap.withHead hd).bytesAllocated = s.heap.bytesAllocated := rfl
      rw [hbytes, h.bytes, hsum, hperm, sizeSum_cons]
      omega
    · obtain ⟨hxa, hx⟩ := hal.1 hx
      refine hkeep y (h.closed x y hx (fun hd' => hxd ?_) he)
      obtain ⟨hxl, hc, h0⟩ := mem_dead.1 hd'
      exact mem_dead.2 ⟨(List.mem_cons.1 hxl).resolve_left hxa, hc, h0⟩
  · show Function.update s.mem.alive a false x = s.mem.alive x
    rw [Function.update_of_ne hx]
  · have hround : sweepRound s a prev freed = ⟨⟨{ s.mem with next := nx }.drop a, s.heap.withHead hd⟩,
        .walking (s.mem.next a) prev (freed + (s.mem.data a).size)⟩ := by
      simp only [sweepRound, Mem.touch_of_alive halive, hw, if_true, e]
    rw [hround, seg_start hrest]

/-- The sweep passes the object it stands at. -/
theorem Halfway.keep {a : Addr} {r : List Addr} (prev : PrevNext) (h : Halfway s pre (a :: r) freed)
    (hw : ¬ s.mem.isWhite a = true) : Halfway ⟨s.mem.setColor a .white, s.heap⟩ (pre ++ [a]) r freed ∧
      sweepRound s a prev freed = ⟨⟨s.mem.setColor a .white, s.heap⟩, .walking r.head? (.nextOf a) freed⟩ := by
  have halive : s.mem.alive a = true := (h.alive a).1 (by simp)
  have happ : pre ++ [a] ++ r = pre ++ a :: r := by simp
  have har : a ∉ r := fun hr => (seg_middle h.seg).1 (by simp [hr])
  have hcol : ∀ {x}, x ≠ a → (s.mem.setColor a .white).color x = s.mem.color x := fun hx => by
    rw [Mem.setColor_color, if_neg hx]
  have hkeep : ∀ b, s.mem.alive b = true ∧ ¬ Risky s.mem (a :: r) b →
      s.mem.alive b = true ∧ ¬ Risky (s.mem.setColor a .white) r b := by
    rintro b ⟨hb, hr⟩
    refine ⟨hb, fun hr' => hr ⟨List.mem_cons_of_mem a hr'.1, ?_⟩⟩
    rw [← hcol (ne_of_mem_of_not_mem hr'.1 har)]
    exact hr'.2
  have hstart : s.mem.next a = r.head? := seg_start (seg_append.1 h.seg).choose_spec.2.2
  refine ⟨⟨h.noFault, h.phase, ?_, fun x => ?_, ?_, fun x hx => ?_, fun x y hx hxd he => ?_,
    fun x hx => hkeep x (h.queue x hx)⟩, ?_⟩
  · rw [happ]
    exact h.seg
  · rw [happ]
    exact h.alive x
  · rw [happ]
    exact h.bytes
  · by_cases hxa : x = a
    · rw [hxa, Mem.setColor_color, if_pos rfl]
    · rw [hcol hxa]
      exact h.white x ((List.mem_append.1 hx).resolve_right fun hx => hxa (List.mem_singleton.1 hx))
  · refine hkeep y (h.closed x y hx (fun hd => ?_) he)
    rw [dead_reset har] at hxd
    obtain ⟨hxl, hc, h0⟩ := mem_dead.1 hd
    rcases List.mem_cons.1 hxl with rfl | hxl
    · exact hw (by simp [Mem.isWhite, Mem.isRoot, hc, h0])
    · exact hxd (mem_dead.2 ⟨hxl, hc, h0⟩)
  · have hround : sweepRound s a prev freed =
        ⟨⟨s.mem.setColor a .white, s.heap⟩, .walking (s.mem.next a) (.nextOf a) freed⟩ := by
      simp only [sweepRound, Mem.touch_of_alive halive, hw]
      rfl
    rw [hround, hstart]

/-- At the end of the walk the heap is well-formed again. -/
theorem Halfway.finish (h : Halfway s pre [] freed) :
    Resting ⟨s.mem, (s.heap.withBytes (s.heap.bytesAllocated - freed)).finishGc⟩ := by
  have hnil : pre ++ [] = pre := List.append_nil pre
  refine ⟨⟨⟨pre, ?_, fun a => ?_, ?_⟩, h.noFault, fun a ha => ?_, fun a b ha he => ?_⟩, rfl, fun a ha => h.white a ?_⟩
  · rw [← hnil]
    exact h.seg
  · rw [← hnil]
    exact h.alive a
  · show s.heap.bytesAllocated - freed = sizeSum s.mem pre
    rw [h.bytes, hnil]
    omega
  · exact (h.queue a (ha.resolve_left fun ha => (by cases ha))).1
  · exact (h.closed a b ha (fun hd => (by cases hd)) he).1
  · rw [← hnil]
    exact (h.alive a).2 ha

/-- A mutator's operation that allocates nothing. -/
theorem Halfway.mutate (h : Halfway s pre l freed) {op : MutOp} (ha : op.Allowed s.mem.Reachable s)
    (hno : ∀ a d, op ≠ .allocate a d) (hv : ∀ b ∈ stored op, ¬ Risky s.mem l b) : Halfway (s.mutate op) pre l freed := by
  cases op with
  | allocate a d => exact absurd rfl (hno a d)
  | clone a => exact h.setRootCount ha.1 (h.reachable ha.reachable).2
  | dropRoot a => exact h.setRootCount ha.1 (h.reachable ha.reachable).2
  | root a => exact h.setRootCount (h.reachable ha).1 (h.reachable ha).2
  | set o k vals =>
    rw [St.mutate, Sweeping.setCell_eq h.not_marking]
    exact h.storeCell ha.1 fun b hb => ⟨(h.reachable (ha.2.2 b hb)).1, hv b hb⟩

end

/-! ## Whole runs -/

/-- `prev_next` points into the last object that was passed, or to `head`. -/
def EndsAt (pre : List Addr) : PrevNext → Prop
  | .head => True
  | .nextOf b => ∃ pre', pre = pre' ++ [b]

inductive Inv : Sys → Prop
  | cycle {s : St} {pc : BgPc} : Incremental.Inv ⟨s, pc⟩ → Inv ⟨s, .cycle pc⟩
  | loading {s : St} {l : List Addr} : Halfway s [] l 0 → Inv ⟨s, .sweep .loading⟩
  | walking {s : St} {pre l : List Addr} {current : Option Addr} {prev : PrevNext} {freed : Nat} :
      Halfway s pre l freed → EndsAt pre prev → current = l.head? → Inv ⟨s, .sweep (.walking current prev freed)⟩
  | ending {s : St} {live : Nat} : Resting s → Inv ⟨s, .ending live⟩

/-- The guard of a mutator's operation, as the sweep's own list has it. -/
theorem not_risky {s : St} {pre l : List Addr} {freed : Nat} {pc : Sweeping.Pc} {op : MutOp} (h : Halfway s pre l freed)
    (hpc : Sweeping.Sys.current ⟨s, pc⟩ = l.head?) (hok : Undisturbed ⟨s, .sweep pc⟩ (.mutate op)) :
    ∀ b ∈ stored op, ¬ Risky s.mem l b := by
  intro b hb hr
  refine hok b hb ⟨l, ?_, hr.1⟩ hr.2
  rw [hpc]
  exact h.seg_rest

theorem inv_mutate {s : St} {pc : Pc} {op : MutOp} (hi : Inv ⟨s, pc⟩) (ha : op.Allowed s.mem.Reachable s)
    (hok : Undisturbed ⟨s, pc⟩ (.mutate op)) : Inv ⟨s.mutate op, pc⟩ := by
  cases hi with
  | cycle hi => exact .cycle (Incremental.inv_mutate hi ha hok)
  | ending hi => exact .ending (hi.mutate ha)
  | @loading _ l h =>
    have hv := not_risky h (seg_start h.seg) hok
    by_cases hnew : ∃ a d, op = .allocate a d
    · obtain ⟨a, d, rfl⟩ := hnew
      have hpush : Halfway (s.push a d) [] (a :: l) 0 :=
        h.push ha.1 (fun b hb => ⟨(h.reachable (ha.2 b hb)).1, hv b hb⟩) rfl (fun x hx => (by cases hx))
          (fun x hx => List.mem_cons.1 hx) fun x hx => List.mem_cons_of_mem a hx
      rw [St.mutate, Sweeping.allocate_eq h.not_marking]
      exact .loading hpush
    · exact .loading (h.mutate ha (fun a d e => hnew ⟨a, d, e⟩) hv)
  | @walking _ pre l current prev freed h hends hcur =>
    have hv := not_risky h (show Sweeping.Sys.current ⟨s, .walking current prev freed⟩ = l.head? from hcur) hok
    by_cases hnew : ∃ a d, op = .allocate a d
    · obtain ⟨a, d, rfl⟩ := hnew
      have hpush : Halfway (s.push a d) (a :: pre) l freed :=
        h.push ha.1 (fun b hb => ⟨(h.reachable (ha.2 b hb)).1, hv b hb⟩) rfl (fun x hx => List.mem_cons.1 hx)
          (fun x hx => .inr hx) fun x hx => hx
      rw [St.mutate, Sweeping.allocate_eq h.not_marking]
      refine .walking hpush ?_ hcur
      cases prev with
      | head => trivial
      | nextOf b =>
        obtain ⟨pre', rfl⟩ := hends
        exact ⟨a :: pre', rfl⟩
    · exact .walking (h.mutate ha (fun a d e => hnew ⟨a, d, e⟩) hv) hends hcur

/-- With the guard of a round, `prev_next` is where the list leads to the object. -/
theorem prevOk_of_endsAt {s : St} {a : Addr} {pre r : List Addr} {prev : PrevNext} {freed n : Nat}
    (h : Halfway s pre (a :: r) freed) (hends : EndsAt pre prev) (hw : s.mem.isWhite a = true)
    (hok : Undisturbed ⟨s, .sweep (.walking (some a) prev n)⟩ .round) : PrevOk pre prev := by
  cases prev with
  | nextOf b => exact hends
  | head =>
    have hhead : s.heap.head = some a := hok hw
    cases pre with
    | nil => rfl
    | cons x pre =>
      have hx : s.heap.head = some x := h.seg.1
      have hxa : x = a := Option.some.inj (hx.symm.trans hhead)
      exact absurd (by simp [hxa]) (seg_middle h.seg).1

theorem inv_round {s : St} {a : Addr} {prev : PrevNext} {freed : Nat}
    (hi : Inv ⟨s, .sweep (.walking (some a) prev freed)⟩)
    (hok : Undisturbed ⟨s, .sweep (.walking (some a) prev freed)⟩ .round) :
    Inv ⟨(sweepRound s a prev freed).st, .sweep (sweepRound s a prev freed).pc⟩ := by
  cases hi with
  | @walking _ pre l _ _ _ h hends hcur =>
    cases l with
    | nil => cases hcur
    | cons b r =>
      obtain rfl : a = b := Option.some.inj hcur
      by_cases hw : s.mem.isWhite a = true
      · obtain ⟨_, s', h', _, e⟩ := h.drop (prevOk_of_endsAt h hends hw hok) hw
        rw [e]
        exact .walking h' hends rfl
      · obtain ⟨h', e⟩ := h.keep prev hw
        rw [e]
        exact .walking h' ⟨pre, rfl⟩ rfl

theorem step_inv {p p' : Sys} {op : Op} (hi : Inv p) (hst : Step p op p') (hok : Undisturbed p op) : Inv p' := by
  cases hst with
  | @cycle s s' pc pc' op hst hop =>
    cases hi with
    | cycle hi =>
      refine .cycle (Incremental.step_inv hi hst ?_)
      cases op with
      | mutate _ => exact absurd hop id
      | _ => trivial
  | startSweep =>
    cases hi with
    | cycle hi =>
      cases hi with
      | complete h hd =>
        obtain ⟨l, hl⟩ := h.wf.listed
        exact .loading (halfway_start h hd hl)
  | load =>
    cases hi with
    | loading h => exact .walking h trivial (seg_start h.seg)
  | round => exact inv_round hi hok
  | finish =>
    cases hi with
    | @walking _ pre l _ _ _ h _ hcur =>
      cases l with
      | nil => exact .ending h.finish
      | cons b r => cases hcur
  | endSweep =>
    cases hi with
    | ending h => exact .cycle (.waiting ⟨h.wf.of_heap rfl rfl rfl, rfl, h.white⟩)
  | mutate op ha => exact inv_mutate hi ha hok

/-! ## What is freed -/

/-- A round frees at most the object it stands at. -/
theorem sweepRound_mem (s : St) (a : Addr) (prev : PrevNext) (freed : Nat) :
    (sweepRound s a prev freed).st.mem.data = s.mem.data ∧
      (sweepRound s a prev freed).st.mem.rootCount = s.mem.rootCount ∧
      ∀ x, (sweepRound s a prev freed).st.mem.alive x = true ↔
        s.mem.alive x = true ∧ ¬ (x = a ∧ s.mem.isWhite a = true) := by
  have hwhite : (s.mem.touch a).isWhite a = s.mem.isWhite a := rfl
  by_cases hw : s.mem.isWhite a = true
  · have hdrop : ∀ (m : Mem) (x : Addr), (m.drop a).alive x = true ↔
        m.alive x = true ∧ ¬ (x = a ∧ s.mem.isWhite a = true) := by
      intro m x
      rw [Mem.drop_alive]
      simp [hw, and_comm]
    simp only [sweepRound, hwhite, if_pos hw]
    cases prev with
    | head => exact ⟨rfl, rfl, hdrop _⟩
    | nextOf b => exact ⟨rfl, rfl, hdrop _⟩
  · simp only [sweepRound, hwhite, if_neg hw]
    exact ⟨rfl, rfl, fun x => ⟨fun hx => ⟨hx, fun h => hw h.2⟩, And.left⟩⟩

/-- What marks only colors. -/
theorem marks_same {p p' : Incremental.Sys} {op : Incremental.Op} (hwf : WF p.st) (hst : Incremental.Step p op p')
    (hop : Marks op) : p.st.mem.SameObjects p'.st.mem := by
  cases hst with
  | @start s s' h fuel _ hst hr =>
    obtain ⟨_, rfl⟩ := Heap.tryStartMarking_true hst
    obtain ⟨l, hl⟩ := hwf.listed
    obtain rfl := St.doMarkRoots_some (s := ⟨s.mem, s.heap.withPhase .marking⟩) hl.seg hr
    exact scanRoots_same l s.mem []
  | @mark s b _ => exact doMarkWithTracer_same s [] b
  | busyCheck => exact .refl _
  | sweep _ => exact absurd hop id
  | mutate _ _ => exact absurd hop id

/-- Only a round frees. -/
theorem step_frees {p p' : Sys} {op : Op} {a : Addr} (hi : Inv p) (hst : Step p op p') (ha : p.st.mem.alive a = true)
    (hfree : p'.st.mem.alive a = false) :
    ∃ prev freed, p.pc = .sweep (.walking (some a) prev freed) ∧ p.st.mem.isWhite a = true := by
  have hsame : p'.st.mem.alive a = p.st.mem.alive a → False := by
    intro e
    rw [e, ha] at hfree
    cases hfree
  cases hst with
  | cycle hst hop =>
    cases hi with
    | cycle hi => exact (hsame (congrFun (marks_same hi.wf hst hop).alive a)).elim
  | mutate op _ => exact (hsame ((St.mutate_alive op ha).trans ha.symm)).elim
  | @round s b prev freed =>
    by_cases hab : a = b ∧ s.mem.isWhite b = true
    · obtain ⟨rfl, hw⟩ := hab
      exact ⟨prev, freed, rfl, hw⟩
    · exact (hsame ((((sweepRound_mem s b prev freed).2.2 a).2 ⟨ha, hab⟩).trans ha.symm)).elim
  | _ => exact (hsame rfl).elim

theorem Inv.noFault {p : Sys} (h : Inv p) : p.st.mem.fault = false := by
  cases h with
  | cycle h => exact h.wf.sane.noFault
  | loading h => exact h.noFault
  | walking h _ _ => exact h.noFault
  | ending h => exact h.wf.sane.noFault

theorem Inv.alive {p : Sys} (h : Inv p) {a : Addr} (ha : p.st.mem.Reachable a) : p.st.mem.alive a = true := by
  cases h with
  | cycle h => exact h.wf.alive_of_reachable ha
  | loading h => exact (h.reachable ha).1
  | walking h _ _ => exact (h.reachable ha).1
  | ending h => exact h.wf.alive_of_reachable ha

/-- The object a round stands at is garbage if the round is going to free it. -/
theorem Inv.not_reachable {s : St} {a : Addr} {prev : PrevNext} {freed : Nat}
    (h : Inv ⟨s, .sweep (.walking (some a) prev freed)⟩) (hw : s.mem.isWhite a = true) : ¬ s.mem.Reachable a := by
  cases h with
  | @walking _ pre l _ _ _ h _ hcur =>
    cases l with
    | nil => cases hcur
    | cons b r =>
      obtain rfl : a = b := Option.some.inj hcur
      have hdead : a ∈ dead s.mem (a :: r) := by simp [dead, hw]
      exact fun hr => (h.reachable hr).2 hdead

/-- **Cycle after cycle.** The collector starts on a new heap and goes through any number of cycles, with any operations of the
mutators between its steps, those of its sweeps included. If every step meets `Undisturbed`, then no dangling header
is dereferenced, what the program can reach is allocated, no step frees an object that it can reach, and whenever the collector
waits, the heap is well-formed and all of it is White. -/
theorem cycles_safe (o : GcOptions) (tr : List (Sys × Op)) (p : Sys) (h : Run Step ⟨.fresh o, .cycle .waiting⟩ tr p)
    (hok : ∀ e ∈ tr, Undisturbed e.1 e.2) :
    p.st.mem.fault = false ∧ (∀ a, p.st.mem.Reachable a → p.st.mem.alive a = true) ∧
    (∀ op p', Step p op p' → ∀ a, p.st.mem.alive a = true → p'.st.mem.alive a = false → ¬ p.st.mem.Reachable a) ∧
    (p.pc = .cycle .waiting → WF p.st ∧ ∀ a, p.st.mem.alive a = true → p.st.mem.color a = .white) := by
  have h0 : Inv ⟨.fresh o, .cycle .waiting⟩ := .cycle (.waiting ⟨wf_fresh o, rfl, fun _ _ => rfl⟩)
  have hstep : ∀ q i q', Inv q → Step q i q' → Undisturbed q i → Inv q' := fun _ _ _ hi hst hu => step_inv hi hst hu
  have hp : Inv p := h.inv hstep h0 hok
  refine ⟨hp.noFault, fun a => hp.alive, fun op p' hst a ha hfree => ?_, fun hpc => ?_⟩
  · obtain ⟨prev, freed, hpc, hw⟩ := step_frees hp hst ha hfree
    obtain ⟨s, pc⟩ := p
    obtain rfl : pc = .sweep (.walking (some a) prev freed) := hpc
    exact hp.not_reachable hw
  · obtain ⟨s, pc⟩ := p
    obtain rfl : pc = .cycle .waiting := hpc
    cases hp with
    | cycle hi =>
      cases hi with
      | waiting h => exact ⟨h.wf, h.white⟩

/-- A cycle in which `3` is allocated behind the sweep; the sweep drops the garbage `1` and leaves the list `[3, 2]`. -/
theorem cycles_safe_behind : ∃ tr p, Run Step ⟨.fresh .default, .cycle .waiting⟩ tr p ∧
    (∀ e ∈ tr, Undisturbed e.1 e.2) ∧ p.pc = .cycle .waiting ∧ p.st.mem.dropped = [1] ∧ p.st.mem.Rooted 2 ∧ p.st.mem.Rooted 3 ∧ WF p.st := by
  have hnil : Run Step ⟨.fresh .default, .cycle .waiting⟩ [] _ ∧ ∀ e ∈ ([] : List (Sys × Op)), Undisturbed e.1 e.2 :=
    ⟨.nil _, fun e he => (by cases he)⟩
  have h₁ := Run.snoc_ok hnil (Step.mutate (.allocate 1 (.leaf 2000000)) ⟨rfl, fun q hq => by cases hq⟩)
    (by intro h; cases h)
  have h₂ := Run.snoc_ok h₁ (Step.mutate (.allocate 2 (.leaf 8)) ⟨by decide, fun q hq => by cases hq⟩)
    (by intro h; cases h)
  have h₃ := Run.snoc_ok h₂ (Step.mutate (.dropRoot 1) ⟨by decide, by decide⟩) trivial
  have h₄ := Run.snoc_ok h₃ (Step.cycle (.start 2 (by decide) rfl (Option.eq_some_of_isSome (by decide))) trivial) trivial
  have h₅ : Run Step _ _ ⟨_, .cycle .marking⟩ ∧ _ := Run.snoc_ok h₄ (Step.cycle (.mark 100 (by decide)) trivial) trivial
  have h₆ : Run Step _ _ ⟨_, .cycle .found⟩ ∧ _ := Run.snoc_ok h₅ (Step.cycle (.mark 100 (by decide)) trivial) trivial
  have h₇ : Run Step _ _ ⟨_, .cycle .complete⟩ ∧ _ := Run.snoc_ok h₆ (Step.cycle .busyCheck trivial) trivial
  have h₈ := Run.snoc_ok h₇ Step.startSweep trivial
  have h₉ : Run Step _ _ ⟨_, .sweep (.walking (some 2) .head 0)⟩ ∧ _ := Run.snoc_ok h₈ Step.load trivial
  have h₁₀ : Run Step _ _ ⟨_, .sweep (.walking (some 1) (.nextOf 2) 0)⟩ ∧ _ := Run.snoc_ok h₉ Step.round fun _ => rfl
  have h₁₁ := Run.snoc_ok h₁₀ (Step.mutate (.allocate 3 (.leaf 8)) ⟨by decide, fun q hq => by cases hq⟩)
    fun q hq => (by cases hq)
  have h₁₂ : Run Step _ _ ⟨_, .sweep (.walking none (.nextOf 2) 2000000)⟩ ∧ _ := Run.snoc_ok h₁₁ Step.round trivial
  have h₁₃ := Run.snoc_ok h₁₂ Step.finish trivial
  have h₁₄ := Run.snoc_ok h₁₃ Step.endSweep trivial
  exact ⟨_, _, h₁₄.1, h₁₄.2, rfl, by decide, ⟨by decide, by decide⟩, ⟨by decide, by decide⟩,
    ((cycles_safe .default _ _ h₁₄.1 h₁₄.2).2.2.2 rfl).1⟩

/-- What a lost push costs: `3` is pushed while the sweep stands at the garbage `1`, and the sweep stores `null` to `head`.
The next cycle does not find the root `3`, and frees `5`, which `3` points to. -/
theorem lost_push_frees_reachable : ∃ tr p op p', Run Step ⟨.fresh .default, .cycle .waiting⟩ tr p ∧ Step p op p' ∧
    p.st.mem.alive 5 = true ∧ p'.st.mem.alive 5 = false ∧ p.st.mem.Reachable 5 := by
  have h₁ := (Run.nil (⟨.fresh .default, .cycle .waiting⟩ : Sys)).snoc
    (Step.mutate (.allocate 1 (.leaf 2000000)) ⟨rfl, fun q hq => by cases hq⟩)
  have h₂ := h₁.snoc (Step.mutate (.dropRoot 1) ⟨by decide, by decide⟩)
  have h₃ := h₂.snoc (Step.cycle (.start 1 (by decide) rfl (Option.eq_some_of_isSome (by decide))) trivial)
  have h₄ : Run Step _ _ ⟨_, .cycle .found⟩ := h₃.snoc (Step.cycle (.mark 100 (by decide)) trivial)
  have h₅ : Run Step _ _ ⟨_, .cycle .complete⟩ := h₄.snoc (Step.cycle .busyCheck trivial)
  have h₆ : Run Step _ _ ⟨_, .sweep (.walking (some 1) .head 0)⟩ := (h₅.snoc Step.startSweep).snoc Step.load
  have h₇ := h₆.snoc (Step.mutate (.allocate 3 (.node 48 [])) ⟨by decide, fun q hq => by cases hq⟩)
  have h₈ : Run Step _ _ ⟨_, .sweep (.walking none .head 2000000)⟩ := h₇.snoc Step.round
  have h₉ := (h₈.snoc Step.finish).snoc Step.endSweep
  have h₁₀ := h₉.snoc (Step.mutate (.allocate 5 (.leaf 2000000)) ⟨by decide, fun q hq => by cases hq⟩)
  have h₁₁ := h₁₀.snoc (Step.mutate (.set 3 0 [5]) ⟨by decide, by decide, fun q hq => by
    obtain rfl : q = 5 := List.mem_singleton.1 hq
    exact Mem.Rooted.reachable ⟨by decide, by decide⟩⟩)
  have h₁₂ := h₁₁.snoc (Step.mutate (.dropRoot 5) ⟨by decide, by decide⟩)
  have h₁₃ := h₁₂.snoc (Step.cycle (.start 1 (by decide) rfl (Option.eq_some_of_isSome (by decide))) trivial)
  have h₁₄ : Run Step _ _ ⟨_, .cycle .found⟩ := h₁₃.snoc (Step.cycle (.mark 100 (by decide)) trivial)
  have h₁₅ : Run Step _ _ ⟨_, .cycle .complete⟩ := h₁₄.snoc (Step.cycle .busyCheck trivial)
  have h₁₆ : Run Step _ _ ⟨_, .sweep (.walking (some 5) .head 0)⟩ := (h₁₅.snoc Step.startSweep).snoc Step.load
  exact ⟨_, _, _, _, h₁₆, Step.round, by decide, by decide,
    ⟨3, ⟨by decide, by decide⟩, .single (by decide : 5 ∈ _)⟩⟩

end Abfall.SweepCycles
