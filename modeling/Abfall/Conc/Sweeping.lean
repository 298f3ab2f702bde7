import Abfall.Incremental
/-!
# Mutators during a sweep

`Abfall.Incremental` takes `sweep_and_finish` as one step. Here `do_sweep` (heap.rs:520-559) goes object by object, with whole
mutator operations in between:

| here | there |
| --- | --- |
| `Pc.loading`     | `start_sweeping` has stored the phase, `head` is not loaded yet (`heap.rs:521-526`) |
| `sweepRound`, `Step.round` | one round of `while !current.is_null()` (`:529-554`); `sweepLoop_succ` |
| `Step.finish`    | `fetch_sub` and `finish_gc` (`:557-559`) |
| `Step.mutate`    | `allocate`, `GcRoot` clone and drop, `GcPtr::root`, `GcCell::set` |

In the phase Sweeping the barrier does nothing and `allocate` does not assist. A White object that the sweep has not
reached yet is garbage, or it was allocated while marking was in progress and lives by its root. If the program stores a pointer
to such an object and drops the root before the sweep comes by, the object is freed under the pointer
(`sweep_completes_dangling`). `LastRoot` rules this out, and then a sweep at any speed frees only what the
program cannot reach (`sweep_spares_mutators`).
-/
namespace Abfall.Sweeping
open Chain Transition

inductive Pc
  | loading
  | walking (current : Option Addr) (prev : PrevNext) (freed : Nat)
  | finished

structure Sys where
  st : St
  pc : Pc

/-- One round of the sweep at the object `a`. -/
def sweepRound (s : St) (a : Addr) (prev : PrevNext) (freed : Nat) : Sys :=
  let s : St := ⟨s.mem.touch a, s.heap⟩
  let nx := s.mem.next a
  if s.mem.isWhite a then
    let s := s.storePrev prev nx
    ⟨⟨s.mem.drop a, s.heap⟩, .walking nx prev (freed + (s.mem.data a).size)⟩
  else ⟨⟨s.mem.setColor a .white, s.heap⟩, .walking nx (.nextOf a) freed⟩

inductive Op
  | load
  | round
  | finish
  | mutate (op : MutOp)

inductive Step : Sys → Op → Sys → Prop
  | load {s : St} : Step ⟨s, .loading⟩ .load ⟨s, .walking s.heap.head .head 0⟩
  | round {s : St} {a : Addr} {prev : PrevNext} {freed : Nat} :
      Step ⟨s, .walking (some a) prev freed⟩ .round (sweepRound s a prev freed)
  | finish {s : St} {prev : PrevNext} {freed : Nat} : Step ⟨s, .walking none prev freed⟩ .finish
      ⟨⟨s.mem, (s.heap.withBytes (s.heap.bytesAllocated - freed)).finishGc⟩, .finished⟩
  | mutate {s : St} {pc : Pc} (op : MutOp) : op.Allowed s.mem.Reachable s → Step ⟨s, pc⟩ (.mutate op) ⟨s.mutate op, pc⟩

/-- The object the walk comes to next. -/
def Sys.current (p : Sys) : Option Addr :=
  match p.pc with
  | .loading => p.st.heap.head
  | .walking current _ _ => current
  | .finished => none

/-- The sweep has still to come by. -/
def Ahead (p : Sys) (a : Addr) : Prop := ∃ l, Seg p.st.mem.next p.current l none ∧ a ∈ l

/-- The sweep is going to free the object although the program can reach it. -/
def Doomed (p : Sys) (a : Addr) : Prop :=
  Ahead p a ∧ p.st.mem.color a = .white ∧ p.st.mem.rootCount a = 0 ∧ p.st.mem.Reachable a

/-- The last root of a White object that the sweep has still to pass is dropped only when the program cannot reach the
object in another way. -/
def LastRoot (p : Sys) : Op → Prop
  | .mutate (.dropRoot a) => Ahead p a → p.st.mem.color a = .white → p.st.mem.rootCount a = 1 →
      ¬ (p.st.dropRoot a).mem.Reachable a
  | _ => True

/-! ## The walk is that of `do_sweep` -/

theorem sweepLoop_succ (fuel : Nat) (s : St) (a : Addr) (prev : PrevNext) (freed : Nat) :
    ∃ nx prev' freed', (sweepRound s a prev freed).pc = .walking nx prev' freed' ∧
      sweepLoop (fuel + 1) s (some a) prev freed = sweepLoop fuel (sweepRound s a prev freed).st nx prev' freed' := by
  simp only [sweepLoop, sweepRound]
  split
  · exact ⟨_, _, _, rfl, rfl⟩
  · exact ⟨_, _, _, rfl, rfl⟩

theorem sweepLoop_run : ∀ (fuel : Nat) (s s' : St) (p : Option Addr) (prev : PrevNext) (freed freed' : Nat),
    sweepLoop fuel s p prev freed = some (s', freed') →
    ∃ tr prev', Run Step ⟨s, .walking p prev freed⟩ tr ⟨s', .walking none prev' freed'⟩
  | fuel, s, s', none, prev, freed, freed', h => by
    have e : some (s, freed) = some (s', freed') := by cases fuel <;> exact h
    cases e
    exact ⟨[], prev, .nil _⟩
  | 0, _, _, some _, _, _, _, h => by cases h
  | fuel + 1, s, s', some a, prev, freed, freed', h => by
    obtain ⟨nx, prev₁, freed₁, hpc, e⟩ := sweepLoop_succ fuel s a prev freed
    rw [e] at h
    obtain ⟨tr, prev', hr⟩ := sweepLoop_run fuel _ s' nx prev₁ freed₁ freed' h
    rw [← hpc] at hr
    exact ⟨_, prev', .cons .round hr⟩

/-- `do_sweep` with nobody in between. -/
theorem doSweep_run {fuel live : Nat} {s s' : St} (h : s.doSweep fuel = some (s', live)) :
    ∃ tr, Run Step ⟨⟨s.mem, s.heap.startSweeping⟩, .loading⟩ tr ⟨s', .finished⟩ := by
  obtain ⟨⟨s₁, freed⟩, hl, e⟩ := Option.map_eq_some_iff.1 h
  obtain ⟨tr, prev, hr⟩ := sweepLoop_run fuel _ s₁ _ _ 0 freed hl
  cases e
  exact ⟨_, (Run.cons .load hr).snoc .finish⟩

/-! ## A mutator's operation outside marking -/

section Mutate
variable {s : St} {op : MutOp} {x : Addr}

theorem allocate_eq (hm : s.heap.phase ≠ .marking) (a : Addr) (d : Data) : s.allocate a d = s.push a d := by
  rw [St.allocate, St.assist_of_not_marking hm]

theorem setCell_eq (hm : s.heap.phase ≠ .marking) (o : Addr) (k : Nat) (vals : List Addr) :
    s.setCell o k vals = s.storeCell o k vals := by
  rw [St.setCell, St.barrier_of_not_marking hm]

/-- An allocated object keeps its color and its place in the list. -/
theorem mutate_frame (hm : s.heap.phase ≠ .marking) (ha : op.Allowed s.mem.Reachable s) (hx : s.mem.alive x = true) :
    (s.mutate op).mem.color x = s.mem.color x ∧ (s.mutate op).mem.next x = s.mem.next x := by
  cases op with
  | allocate a d =>
    have hxa := Mem.ne_of_alive ha.1 hx
    simp only [St.mutate, allocate_eq hm]
    exact ⟨Function.update_of_ne hxa _ _, by simp [St.push, Mem.newBox, Mem.setNext, hxa]⟩
  | set o k vals =>
    simp only [St.mutate, setCell_eq hm]
    exact ⟨rfl, rfl⟩
  | _ => exact ⟨rfl, rfl⟩

/-- An object loses its last root by a drop of it. -/
theorem mutate_rootCount (hm : s.heap.phase ≠ .marking) (ha : op.Allowed s.mem.Reachable s) (hx : s.mem.alive x = true)
    (hr : 0 < s.mem.rootCount x) : 0 < (s.mutate op).mem.rootCount x ∨ op = .dropRoot x ∧ s.mem.rootCount x = 1 := by
  cases op with
  | allocate a d =>
    have hxa := Mem.ne_of_alive ha.1 hx
    simp only [St.mutate, allocate_eq hm]
    exact .inl (by simpa [St.push, Mem.newBox, Mem.setNext, hxa] using hr)
  | set o k vals =>
    simp only [St.mutate, setCell_eq hm]
    exact .inl hr
  | dropRoot a =>
    by_cases hxa : x = a
    · subst hxa
      by_cases h1 : s.mem.rootCount x = 1
      · exact .inr ⟨rfl, h1⟩
      · refine .inl ?_
        simp only [St.mutate, St.dropRoot, Mem.decRoot, Mem.setRootCount, Function.update_self]
        omega
    · exact .inl (by simpa [St.mutate, St.dropRoot, Mem.decRoot, Mem.setRootCount, Mem.touch, hxa] using hr)
  | clone a | root a =>
    refine .inl ?_
    by_cases hxa : x = a
    · simp [St.mutate, St.cloneRoot, St.rootPtr, Mem.incRoot, Mem.setRootCount, hxa]
    · simpa [St.mutate, St.cloneRoot, St.rootPtr, Mem.incRoot, Mem.setRootCount, Mem.touch, hxa] using hr

theorem mutate_fault (hm : s.heap.phase ≠ .marking) (ha : op.Allowed s.mem.Reachable s)
    (hal : ∀ a, s.mem.Reachable a → s.mem.alive a = true) (hf : s.mem.fault = false) :
    (s.mutate op).mem.fault = false := by
  cases op with
  | allocate a d =>
    simp only [St.mutate, allocate_eq hm]
    exact hf
  | clone a => exact touch_fault hf ha.1
  | dropRoot a => exact touch_fault hf ha.1
  | root a => exact touch_fault hf (hal a ha)
  | set o k vals =>
    simp only [St.mutate, setCell_eq hm]
    exact touch_fault hf ha.1

end Mutate

/-! ## The list ahead of the sweep -/

/-- `l` is what the sweep has still to visit. -/
structure Walk (m : Mem) (current : Option Addr) (l : List Addr) : Prop where
  seg : Seg m.next current l none
  alive : ∀ a ∈ l, m.alive a = true

/-- The survivor whose `next` the sweep will write to is behind it. -/
def Behind (m : Mem) (l : List Addr) : PrevNext → Prop
  | .head => True
  | .nextOf b => m.alive b = true ∧ b ∉ l

def Pc.prev : Pc → PrevNext
  | .walking _ prev _ => prev
  | _ => .head

/-- What every sweep keeps, whatever the mutators do. -/
structure Walks (p : Sys) : Prop where
  phase : p.st.heap.phase ≠ .marking
  walk : ∃ l, Walk p.st.mem p.current l ∧ Behind p.st.mem l p.pc.prev

theorem Walk.ahead {p : Sys} {l : List Addr} (h : Walk p.st.mem p.current l) (a : Addr) : Ahead p a ↔ a ∈ l := by
  refine ⟨?_, fun ha => ⟨l, h.seg, ha⟩⟩
  rintro ⟨l', hl, ha⟩
  rwa [seg_unique h.seg hl]

theorem Behind.mono {m m' : Mem} {l : List Addr} {prev : PrevNext} (h : Behind m l prev)
    (hal : ∀ b, b ∉ l → m.alive b = true → m'.alive b = true) {r : List Addr} (hr : ∀ x ∈ r, x ∈ l) : Behind m' r prev := by
  cases prev with
  | head => trivial
  | nextOf b => exact ⟨hal b h.2 h.1, fun hb => h.2 (hr b hb)⟩

/-- Objects that are ahead of the sweep stay there. -/
theorem Walk.mutate {s : St} {op : MutOp} {current : Option Addr} {l : List Addr} (h : Walk s.mem current l)
    (hm : s.heap.phase ≠ .marking) (ha : op.Allowed s.mem.Reachable s) : Walk (s.mutate op).mem current l :=
  ⟨seg_congr (fun a hal => (mutate_frame hm ha (h.alive a hal)).2) h.seg, fun a hal => St.mutate_alive op (h.alive a hal)⟩

/-- A mutator puts nothing ahead of the sweep but, before `head` is loaded, a new object. -/
theorem ahead_mutate {s : St} {pc : Pc} {op : MutOp} {l : List Addr} (h : Walk s.mem (Sys.current ⟨s, pc⟩) l)
    (hm : s.heap.phase ≠ .marking) (ha : op.Allowed s.mem.Reachable s) :
    ∃ l', Walk (s.mutate op).mem (Sys.current ⟨s.mutate op, pc⟩) l' ∧
      (l' = l ∨ ∃ a d, op = .allocate a d ∧ pc = .loading ∧ l' = a :: l) := by
  have hw := h.mutate hm ha
  cases pc with
  | walking current prev freed => exact ⟨l, hw, .inl rfl⟩
  | finished => exact ⟨l, hw, .inl rfl⟩
  | loading =>
    cases op with
    | allocate a d =>
      refine ⟨a :: l, ?_, .inr ⟨a, d, rfl, rfl, rfl⟩⟩
      simp only [St.mutate, allocate_eq hm] at hw ⊢
      have hnext : (s.push a d).mem.next a = s.heap.head := Function.update_self _ _ _
      refine ⟨⟨rfl, hnext ▸ hw.seg⟩, fun x hx => ?_⟩
      rcases List.mem_cons.1 hx with rfl | hx
      · exact St.push_alive.2 (.inl rfl)
      · exact hw.alive x hx
    | set o k vals =>
      refine ⟨l, ?_, .inl rfl⟩
      simp only [St.mutate, setCell_eq hm] at hw ⊢
      exact hw
    | _ => exact ⟨l, hw, .inl rfl⟩

/-- The sweep drops the object it stands at. -/
theorem sweepRound_white {s : St} {a : Addr} {prev : PrevNext} (freed : Nat) {l : List Addr} (h : Walk s.mem (some a) l)
    (hb : Behind s.mem l prev) (hw : s.mem.isWhite a = true) :
    ∃ r nx hd n, l = a :: r ∧ a ∉ r ∧ Seg nx (s.mem.next a) r none ∧ sweepRound s a prev freed =
      ⟨⟨{ s.mem with next := nx }.drop a, s.heap.withHead hd⟩, .walking (s.mem.next a) prev n⟩ := by
  obtain ⟨r, rfl, hr⟩ := seg_head h.seg
  have har : a ∉ r := (List.nodup_cons.1 (seg_nodup h.seg)).1
  simp only [sweepRound, Mem.touch_of_alive (h.alive a (by simp)), hw, if_true]
  cases prev with
  | head => exact ⟨r, s.mem.next, s.mem.next a, _, rfl, har, hr, rfl⟩
  | nextOf b =>
    have hbr : b ∉ r := fun hbr => hb.2 (by simp [hbr])
    refine ⟨r, Function.update s.mem.next b (s.mem.next a), s.heap.head, freed + (s.mem.data a).size, rfl, har,
      (seg_update_of_notMem hbr).2 hr, ?_⟩
    simp only [St.storePrev, Mem.touch_of_alive hb.1]
    rfl

/-- The sweep keeps the object it stands at. -/
theorem sweepRound_kept {s : St} {a : Addr} (prev : PrevNext) (freed : Nat) {l : List Addr} (h : Walk s.mem (some a) l)
    (hw : ¬ s.mem.isWhite a = true) :
    ∃ r, l = a :: r ∧ a ∉ r ∧ Seg s.mem.next (s.mem.next a) r none ∧ sweepRound s a prev freed =
      ⟨⟨s.mem.setColor a .white, s.heap⟩, .walking (s.mem.next a) (.nextOf a) freed⟩ := by
  obtain ⟨r, rfl, hr⟩ := seg_head h.seg
  refine ⟨r, rfl, (List.nodup_cons.1 (seg_nodup h.seg)).1, hr, ?_⟩
  simp only [sweepRound, Mem.touch_of_alive (h.alive a (by simp)), hw]
  rfl

theorem ne_of_notMem {r : List Addr} {a x : Addr} (ha : a ∉ r) (hx : x ∈ r) : x ≠ a := by
  rintro rfl
  exact ha hx

theorem step_walks {p p' : Sys} {op : Op} (h : Walks p) (hst : Step p op p') : Walks p' := by
  obtain ⟨hm, l, hwalk, hb⟩ := h
  cases hst with
  | load => exact ⟨hm, l, hwalk, trivial⟩
  | @round s a prev freed =>
    change Walk s.mem (some a) l at hwalk
    change Behind s.mem l prev at hb
    by_cases hw : s.mem.isWhite a = true
    · obtain ⟨r, nx, hd, n, rfl, har, hseg, e⟩ := sweepRound_white freed hwalk hb hw
      rw [e]
      have hal : ∀ x, x ≠ a → s.mem.alive x = true → ({ s.mem with next := nx }.drop a).alive x = true :=
        fun x hxa hx => Mem.drop_alive.2 ⟨hxa, hx⟩
      refine ⟨hm, r, ⟨hseg, fun x hx => hal x (ne_of_notMem har hx) (hwalk.alive x (by simp [hx]))⟩, ?_⟩
      exact hb.mono (fun b hbl => hal b (by rintro rfl; simp at hbl)) fun x hx => by simp [hx]
    · obtain ⟨r, rfl, har, hseg, e⟩ := sweepRound_kept prev freed hwalk hw
      rw [e]
      exact ⟨hm, r, ⟨hseg, fun x hx => hwalk.alive x (by simp [hx])⟩, hwalk.alive a (by simp), har⟩
  | finish =>
    have hidle : GcPhase.idle ≠ .marking := by decide
    exact ⟨hidle, [], ⟨rfl, fun a ha => (by cases ha)⟩, trivial⟩
  | @mutate s pc op ha =>
    obtain ⟨l', hw', hl⟩ := ahead_mutate hwalk hm ha
    refine ⟨by rw [s.mutate_phase]; exact hm, l', hw', ?_⟩
    rcases hl with rfl | ⟨a, d, rfl, rfl, rfl⟩
    · exact hb.mono (fun b _ => St.mutate_alive op) fun x hx => hx
    · trivial

/-! ## What the sweep frees -/

/-- A sweep that nobody disturbs from here on ends, and frees what is White and not rooted now. -/
theorem rounds_run : ∀ (l : List Addr) (s : St) (current : Option Addr) (prev : PrevNext) (freed : Nat),
    Walk s.mem current l → Behind s.mem l prev →
    ∃ tr s' prev' freed', Run Step ⟨s, .walking current prev freed⟩ tr ⟨s', .walking none prev' freed'⟩ ∧
      (∀ e ∈ tr, e.2 = .round) ∧ (∀ x, s'.mem.alive x = (s.mem.alive x && decide (x ∉ dead s.mem l))) ∧
      s'.mem.rootCount = s.mem.rootCount ∧ s'.mem.data = s.mem.data
  | [], s, current, prev, freed, hwalk, _ => by
    obtain rfl : current = none := hwalk.seg
    exact ⟨[], s, prev, freed, .nil _, fun e he => (by cases he), fun x => by simp [dead], rfl, rfl⟩
  | a :: r, s, current, prev, freed, hwalk, hb => by
    obtain rfl : current = some a := hwalk.seg.1
    have har : a ∉ r := (List.nodup_cons.1 (seg_nodup hwalk.seg)).1
    have hrest : ∀ x ∈ r, s.mem.alive x = true := fun x hx => hwalk.alive x (by simp [hx])
    by_cases hw : s.mem.isWhite a = true
    · obtain ⟨_, nx, hd, n, el, _, hseg, e⟩ := sweepRound_white freed hwalk hb hw
      cases el
      have hal : ∀ x, x ≠ a → s.mem.alive x = true → ({ s.mem with next := nx }.drop a).alive x = true :=
        fun x hxa hx => Mem.drop_alive.2 ⟨hxa, hx⟩
      obtain ⟨tr, s', prev', freed', hr, hops, halive, hroot, hdata⟩ :=
        rounds_run r ⟨{ s.mem with next := nx }.drop a, s.heap.withHead hd⟩ _ prev n
          ⟨hseg, fun x hx => hal x (ne_of_notMem har hx) (hrest x hx)⟩
          (hb.mono (fun b hbl => hal b (by rintro rfl; simp at hbl)) fun x hx => by simp [hx])
      rw [← e] at hr
      refine ⟨_, s', prev', freed', .cons .round hr, fun q hq => ?_, fun x => ?_, hroot, hdata⟩
      · rcases List.mem_cons.1 hq with rfl | hq
        · rfl
        · exact hops q hq
      · have hdead : dead s.mem (a :: r) = a :: dead s.mem r := by simp [dead, hw]
        rw [halive x, hdead]
        exact Mem.drop_alive_and _ a (dead s.mem r) x
    · obtain ⟨_, el, _, hseg, e⟩ := sweepRound_kept prev freed hwalk hw
      cases el
      obtain ⟨tr, s', prev', freed', hr, hops, halive, hroot, hdata⟩ :=
        rounds_run r ⟨s.mem.setColor a .white, s.heap⟩ _ (.nextOf a) freed ⟨hseg, hrest⟩ ⟨hwalk.alive a (by simp), har⟩
      rw [← e] at hr
      refine ⟨_, s', prev', freed', .cons .round hr, fun q hq => ?_, fun x => ?_, hroot, hdata⟩
      · rcases List.mem_cons.1 hq with rfl | hq
        · rfl
        · exact hops q hq
      · have hdead : dead s.mem (a :: r) = dead s.mem r := by simp [dead, hw]
        rw [halive x, hdead]
        show (s.mem.alive x && decide (x ∉ dead (s.mem.setColor a .white) r)) = _
        rw [dead_reset har]

/-! ## Safety -/

structure Inv (p : Sys) : Prop where
  walks : Walks p
  noFault : p.st.mem.fault = false
  closed : ∀ a, p.st.mem.Reachable a → p.st.mem.alive a = true
  safe : ∀ a, ¬ Doomed p a

theorem inv_mutate {s : St} {pc : Pc} {op : MutOp} (h : Inv ⟨s, pc⟩) (ha : op.Allowed s.mem.Reachable s)
    (hok : LastRoot ⟨s, pc⟩ (.mutate op)) : Inv ⟨s.mutate op, pc⟩ := by
  obtain ⟨l, hwalk, _⟩ := h.walks.walk
  have hm := h.walks.phase
  refine ⟨step_walks h.walks (.mutate op ha), mutate_fault hm ha h.closed h.noFault, fun a hr => ?_, ?_⟩
  · rcases St.reachable_of_mutate ha hr with hr | ⟨d, rfl⟩
    · exact St.mutate_alive op (h.closed a hr)
    · exact St.push_alive.2 (.inl rfl)
  · rintro a ⟨hahead, hw, h0, hr⟩
    obtain ⟨l', hwalk', hl⟩ := ahead_mutate hwalk hm ha
    have hal' := (hwalk'.ahead a).1 hahead
    -- a new object has its root
    have hold : (∃ d, op = .allocate a d) → False := by
      rintro ⟨d, rfl⟩
      simp [St.mutate, allocate_eq hm, St.push, Mem.newBox, Mem.setNext] at h0
    have hal : a ∈ l := by
      rcases hl with rfl | ⟨b, d, rfl, _, rfl⟩
      · exact hal'
      · rcases List.mem_cons.1 hal' with rfl | hal
        · exact absurd ⟨d, rfl⟩ hold
        · exact hal
    have halive := hwalk.alive a hal
    change (s.mutate op).mem.color a = .white at hw
    rw [(mutate_frame hm ha halive).1] at hw
    have hr' : s.mem.Reachable a := (St.reachable_of_mutate ha hr).resolve_right hold
    have hpos : 0 < s.mem.rootCount a := by
      by_contra hz
      exact h.safe a ⟨(hwalk.ahead a).2 hal, hw, by change s.mem.rootCount a = 0; omega, hr'⟩
    rcases mutate_rootCount hm ha halive hpos with hpos' | ⟨rfl, h1⟩
    · exact hpos'.ne' h0
    · exact hok ((hwalk.ahead a).2 hal) hw h1 hr

/-- What a round drops is White and not rooted, so it is not reachable. -/
theorem not_reachable_of_isWhite {s : St} {a : Addr} {prev : PrevNext} {freed : Nat}
    (h : Inv ⟨s, .walking (some a) prev freed⟩) (hw : s.mem.isWhite a = true) : ¬ s.mem.Reachable a := by
  obtain ⟨l, hwalk, _⟩ := h.walks.walk
  obtain ⟨r, rfl, _⟩ := seg_head hwalk.seg
  have hdead : a ∈ dead s.mem [a] := by simp [dead, hw]
  obtain ⟨_, hc, h0⟩ := mem_dead.1 hdead
  exact fun hr => h.safe a ⟨(hwalk.ahead a).2 (by simp), hc, h0, hr⟩

theorem inv_round {s : St} {a : Addr} {prev : PrevNext} {freed : Nat} (h : Inv ⟨s, .walking (some a) prev freed⟩) :
    Inv (sweepRound s a prev freed) := by
  have hwalks := step_walks h.walks .round
  obtain ⟨l', hwalk', _⟩ := hwalks.walk
  obtain ⟨l, hwalk, hb⟩ := h.walks.walk
  by_cases hw : s.mem.isWhite a = true
  · have hna := not_reachable_of_isWhite h hw
    obtain ⟨r, nx, hd, n, rfl, har, hseg, e⟩ := sweepRound_white freed hwalk hb hw
    change sweepRound s a prev freed = _ at e
    rw [e] at hwalks ⊢
    have hreach : ∀ x, ({ s.mem with next := nx }.drop a).Reachable x → s.mem.Reachable x := by
      intro x hx
      refine Mem.Reachable.of_closed (m := { s.mem with next := nx }.drop a) (fun y hy => ?_) (fun y z hy he => hy.next he) hx
      exact Mem.Rooted.reachable ⟨(Mem.drop_alive.1 hy.1).2, hy.2⟩
    refine ⟨hwalks, h.noFault, fun x hx => ?_, ?_⟩
    · have hxa : x ≠ a := by
        rintro rfl
        exact hna (hreach x hx)
      exact Mem.drop_alive.2 ⟨hxa, h.closed x (hreach x hx)⟩
    · rintro x ⟨⟨l₁, hl₁, hx⟩, hc, h0, hr⟩
      obtain rfl := seg_unique hl₁ hseg
      exact h.safe x ⟨(hwalk.ahead x).2 (by simp [hx]), hc, h0, hreach x hr⟩
  · obtain ⟨r, rfl, har, hseg, e⟩ := sweepRound_kept prev freed hwalk hw
    change sweepRound s a prev freed = _ at e
    rw [e] at hwalks ⊢
    refine ⟨hwalks, h.noFault, h.closed, ?_⟩
    rintro x ⟨⟨l₁, hl₁, hx⟩, hc, h0, hr⟩
    obtain rfl := seg_unique hl₁ hseg
    change (s.mem.setColor a .white).color x = .white at hc
    rw [Mem.setColor_color, if_neg (ne_of_notMem har hx)] at hc
    exact h.safe x ⟨(hwalk.ahead x).2 (by simp [hx]), hc, h0, hr⟩

theorem step_inv {p p' : Sys} {op : Op} (h : Inv p) (hst : Step p op p') (hok : LastRoot p op) : Inv p' := by
  cases hst with
  | load => exact ⟨step_walks h.walks .load, h.noFault, h.closed, h.safe⟩
  | round => exact inv_round h
  | finish =>
    refine ⟨step_walks h.walks .finish, h.noFault, h.closed, ?_⟩
    rintro a ⟨⟨l, hl, ha⟩, _⟩
    obtain rfl : l = [] := seg_unique hl rfl
    cases ha
  | mutate op ha => exact inv_mutate h ha hok

/-- A drop that misses `LastRoot` dooms its object. -/
theorem lastRoot_of_not_doomed {p p' : Sys} {op : Op} (hst : Step p op p') (hp : ∀ a, ¬ Doomed p' a) : LastRoot p op := by
  cases hst with
  | @mutate s pc op _ =>
    cases op with
    | dropRoot a =>
      intro hahead hw h1 hr
      refine hp a ⟨?_, hw, ?_, hr⟩
      · cases pc <;> exact hahead
      · show Function.update s.mem.rootCount a (s.mem.rootCount a - 1) a = 0
        change s.mem.rootCount a = 1 at h1
        rw [Function.update_self, h1]
    | _ => trivial
  | _ => trivial

/-- A sweep of a well-formed heap. -/
theorem walks_start {s : St} (h : WF s) : Walks ⟨⟨s.mem, s.heap.startSweeping⟩, .loading⟩ := by
  have hm : GcPhase.sweeping ≠ .marking := by decide
  obtain ⟨l, hl⟩ := h.listed
  exact ⟨hm, l, ⟨hl.seg, fun a ha => (hl.alive a).1 ha⟩, trivial⟩

/-- Marking is complete: what is reachable is shaded or has a root. -/
theorem inv_start {s : St} (h : Incremental.Inv ⟨s, .complete⟩) : Inv ⟨⟨s.mem, s.heap.startSweeping⟩, .loading⟩ := by
  cases h with
  | complete h hd =>
    refine ⟨walks_start h.wf, h.wf.sane.noFault, fun a => h.wf.alive_of_reachable, ?_⟩
    rintro a ⟨_, hw, h0, hr⟩
    rcases (Incremental.shaded_of_reachable h.wf h.roots hd hr).1 with hc | hc
    · exact hc hw
    · exact hc.2.ne' h0

/-- **Mutators during a sweep.** Marking has been completed by a run that met `Spared`, and the sweep goes on object by
object with any operations of the mutators in between. It never comes to a state in which it is going to free an object
that the program can reach iff every drop of a root meets `LastRoot`; then it frees nothing reachable, and no
dangling header is dereferenced. -/
theorem sweep_spares_mutators (o : GcOptions) (s : St)
    (hs : Reach (guarded Incremental.Step Incremental.Spared) (· = ⟨.fresh o, .waiting⟩) ⟨s, .complete⟩)
    (tr : List (Sys × Op)) (p : Sys) (h : Run Step ⟨⟨s.mem, s.heap.startSweeping⟩, .loading⟩ tr p) :
    (((∀ e ∈ tr, ∀ a, ¬ Doomed e.1 a) ∧ ∀ a, ¬ Doomed p a) ↔ ∀ e ∈ tr, LastRoot e.1 e.2) ∧
    ((∀ e ∈ tr, LastRoot e.1 e.2) → p.st.mem.fault = false ∧ (∀ a, p.st.mem.Reachable a → p.st.mem.alive a = true) ∧
      ∀ op p', Step p op p' → ∀ a, p.st.mem.alive a = true → p'.st.mem.alive a = false → ¬ p.st.mem.Reachable a) := by
  have h0 := inv_start (.of_reach hs)
  have hstep : ∀ q i q', Inv q → Step q i q' → LastRoot q i → Inv q' := fun _ _ _ hi hst hok => step_inv hi hst hok
  refine ⟨run_iff_of_inv h h0 hstep (fun _ hp => hp.safe) fun _ _ _ _ hst hp => lastRoot_of_not_doomed hst hp, fun hok => ?_⟩
  have hp : Inv p := h.inv hstep h0 hok
  refine ⟨hp.noFault, hp.closed, fun op p' hst a ha hfree hr => ?_⟩
  cases hst with
  | load => exact absurd (ha.symm.trans hfree) (by decide)
  | finish => exact absurd (ha.symm.trans hfree) (by decide)
  | mutate op _ => exact absurd ((St.mutate_alive op ha).symm.trans hfree) (by decide)
  | @round t b prev freed =>
    by_cases hw : t.mem.isWhite b = true
    · obtain ⟨l, hwalk, hb⟩ := hp.walks.walk
      obtain ⟨_, _, _, _, _, _, _, e⟩ := sweepRound_white freed hwalk hb hw
      by_cases hab : a = b
      · subst hab
        exact not_reachable_of_isWhite hp hw hr
      · change sweepRound t b prev freed = _ at e
        rw [e] at hfree
        exact absurd ((Mem.drop_alive.2 ⟨hab, ha⟩).symm.trans hfree) (by decide)
    · obtain ⟨l, hwalk, _⟩ := hp.walks.walk
      obtain ⟨_, _, _, _, e⟩ := sweepRound_kept prev freed hwalk hw
      change sweepRound t b prev freed = _ at e
      rw [e] at hfree
      exact absurd (ha.symm.trans hfree) (by decide)

/-- The object `2` is allocated while marking is in progress and is White; its root is dropped before the sweep comes by,
and the program has no other way to reach it. -/
theorem sweep_spares_mutators_drop : ∃ s tr p,
    Reach (guarded Incremental.Step Incremental.Spared) (· = ⟨.fresh .default, .waiting⟩) ⟨s, .complete⟩ ∧
    Run Step ⟨⟨s.mem, s.heap.startSweeping⟩, .loading⟩ tr p ∧ (∀ e ∈ tr, LastRoot e.1 e.2) ∧
    p.st.mem.dropped = [1, 2] ∧ p.st.mem.Rooted 3 ∧ p.st.mem.fault = false := by
  have h₁ : Reach (guarded Incremental.Step Incremental.Spared) (· = ⟨.fresh .default, .waiting⟩) _ := .step (.init rfl)
    ⟨.mutate (.allocate 1 (.leaf 2000000)) ⟨rfl, fun q hq => by cases hq⟩, by intro h; cases h⟩
  have h₂ := h₁.step ⟨.mutate (.dropRoot 1) ⟨by decide, by decide⟩, trivial⟩
  have h₃ := h₂.step ⟨.start 1 (by decide) rfl (Option.eq_some_of_isSome (by decide)), trivial⟩
  have h₄ := h₃.step ⟨.mutate (.allocate 2 (.leaf 8)) ⟨by decide, fun q hq => by cases hq⟩, fun _ q hq => by cases hq⟩
  have h₅ : Reach (guarded Incremental.Step Incremental.Spared) _ ⟨_, .found⟩ := h₄.step ⟨.mark 100 (by decide), trivial⟩
  have h₆ : Reach (guarded Incremental.Step Incremental.Spared) _ ⟨_, .complete⟩ := h₅.step ⟨.busyCheck, trivial⟩
  have hnil : ∀ t, Reach (guarded Incremental.Step Incremental.Spared) (· = ⟨.fresh .default, .waiting⟩) ⟨t, .complete⟩ →
      Run Step ⟨⟨t.mem, t.heap.startSweeping⟩, .loading⟩ [] ⟨⟨t.mem, t.heap.startSweeping⟩, .loading⟩ ∧
      ∀ e ∈ ([] : List (Sys × Op)), LastRoot e.1 e.2 := fun t _ => ⟨.nil _, fun e he => (by cases he)⟩
  have g₁ := Run.snoc_ok (hnil _ h₆) (Step.mutate (.dropRoot 2) ⟨by decide, by decide⟩) (by
    rintro _ _ _ ⟨r, ⟨_, hr⟩, _⟩
    -- no object has a root now
    change 0 < Function.update (Function.update (Function.update (Function.update Mem.empty.rootCount 1 1) 1 0) 2 1) 2 0 r at hr
    simp only [Function.update_apply] at hr
    split at hr
    · cases hr
    · split at hr <;> cases hr)
  have g₂ := Run.snoc_ok g₁ Step.load trivial
  have g₃ := Run.snoc_ok g₂ Step.round trivial
  have g₄ := Run.snoc_ok g₃ (Step.mutate (.allocate 3 (.leaf 8)) ⟨by decide, fun q hq => by cases hq⟩) trivial
  have g₅ := Run.snoc_ok g₄ Step.round trivial
  exact ⟨_, _, _, h₆, g₅.1, g₅.2, by decide, ⟨by decide, by decide⟩,
    ((sweep_spares_mutators .default _ h₆ _ _ g₅.1).2 g₅.2).1⟩

/-- The rest of a sweep that nobody disturbs. -/
theorem walking_run {s : St} {current : Option Addr} (prev : PrevNext) (freed : Nat) {l : List Addr}
    (hwalk : Walk s.mem current l) (hb : Behind s.mem l prev) :
    ∃ tr p', Run Step ⟨s, .walking current prev freed⟩ tr p' ∧ (∀ e ∈ tr, ∀ op, e.2 ≠ .mutate op) ∧ p'.pc = .finished ∧
      (∀ x, p'.st.mem.alive x = (s.mem.alive x && decide (x ∉ dead s.mem l))) ∧
      p'.st.mem.rootCount = s.mem.rootCount ∧ p'.st.mem.data = s.mem.data := by
  obtain ⟨tr, s', prev', freed', hr, hops, halive, hroot, hdata⟩ := rounds_run l s current prev freed hwalk hb
  refine ⟨_, _, hr.snoc .finish, fun e he op => ?_, rfl, halive, hroot, hdata⟩
  rcases List.mem_append.1 he with he | he
  · rw [hops e he]
    rintro ⟨⟩
  · obtain rfl := List.mem_singleton.1 he
    rintro ⟨⟩

/-- **A sweep ends, whatever the mutators have done**: left alone from any state of any run on, it frees exactly the
allocated objects ahead of it that are White and have no root, and leaves every pointer. So an object that is `Doomed` is
freed and can still be reached. -/
theorem sweep_completes (s : St) (hwf : WF s) (tr : List (Sys × Op)) (p : Sys)
    (h : Run Step ⟨⟨s.mem, s.heap.startSweeping⟩, .loading⟩ tr p) :
    ∃ tr' p', Run Step p tr' p' ∧ (∀ e ∈ tr', ∀ op, e.2 ≠ .mutate op) ∧ p'.pc = .finished ∧
      (∀ a, p.st.mem.alive a = true →
        (p'.st.mem.alive a = false ↔ Ahead p a ∧ p.st.mem.color a = .white ∧ p.st.mem.rootCount a = 0)) ∧
      ∀ a, p.st.mem.Reachable a → p'.st.mem.Reachable a := by
  obtain ⟨_, l, hwalk, hb⟩ := h.keeps (fun _ _ _ hi hst => step_walks hi hst) (walks_start hwf)
  obtain ⟨tr', p', hr, hops, hpc, halive, hroot, hdata⟩ : ∃ tr' p', Run Step p tr' p' ∧ (∀ e ∈ tr', ∀ op, e.2 ≠ .mutate op) ∧
      p'.pc = .finished ∧ (∀ x, p'.st.mem.alive x = (p.st.mem.alive x && decide (x ∉ dead p.st.mem l))) ∧
      p'.st.mem.rootCount = p.st.mem.rootCount ∧ p'.st.mem.data = p.st.mem.data := by
    obtain ⟨t, pc⟩ := p
    cases pc with
    | loading =>
      obtain ⟨tr', p', hr, hops, hrest⟩ := walking_run .head 0 hwalk trivial
      refine ⟨_, p', .cons .load hr, fun e he op => ?_, hrest⟩
      rcases List.mem_cons.1 he with rfl | he
      · rintro ⟨⟩
      · exact hops e he op
    | walking current prev freed => exact walking_run prev freed hwalk hb
    | finished =>
      obtain rfl : l = [] := seg_unique hwalk.seg rfl
      exact ⟨[], ⟨t, .finished⟩, .nil _, fun e he => (by cases he), rfl, fun x => by simp [dead], rfl, rfl⟩
  refine ⟨tr', p', hr, hops, hpc, fun a ha => ?_, fun a ha => ?_⟩
  · rw [halive a, ha, hwalk.ahead a, ← mem_dead]
    simp
  · obtain ⟨r, ⟨hal, hpos⟩, hpath⟩ := ha
    -- the sweep keeps the roots
    have hnd : r ∉ dead p.st.mem l := fun hd => hpos.ne' (mem_dead.1 hd).2.2
    have hr' : p'.st.mem.Rooted r := ⟨by rw [halive r, hal]; simp [hnd], by rw [hroot]; exact hpos⟩
    refine ⟨r, hr', ?_⟩
    have hedge : p'.st.mem.Edge = p.st.mem.Edge := by
      unfold Mem.Edge Mem.ptrs
      rw [hdata]
    rw [hedge]
    exact hpath

/-- The White `3` lives by its root when the sweep starts. The program stores a pointer to it in `2` and drops the root:
the sweep frees it under the pointer. -/
theorem sweep_completes_dangling : ∃ s tr p tr' p',
    Reach (guarded Incremental.Step Incremental.Spared) (· = ⟨.fresh .default, .waiting⟩) ⟨s, .complete⟩ ∧
    Run Step ⟨⟨s.mem, s.heap.startSweeping⟩, .loading⟩ tr p ∧ Doomed p 3 ∧
    Run Step p tr' p' ∧ p'.pc = .finished ∧ p'.st.mem.Reachable 3 ∧ p'.st.mem.alive 3 = false := by
  have h₁ : Reach (guarded Incremental.Step Incremental.Spared) (· = ⟨.fresh .default, .waiting⟩) _ := .step (.init rfl)
    ⟨.mutate (.allocate 1 (.leaf 2000000)) ⟨rfl, fun q hq => by cases hq⟩, by intro h; cases h⟩
  have h₂ := h₁.step ⟨.mutate (.allocate 2 (.node 48 [])) ⟨by decide, fun q hq => by cases hq⟩, by intro h; cases h⟩
  have h₃ := h₂.step ⟨.mutate (.dropRoot 1) ⟨by decide, by decide⟩, trivial⟩
  have h₄ := h₃.step ⟨.start 2 (by decide) rfl (Option.eq_some_of_isSome (by decide)), trivial⟩
  have h₅ : Reach (guarded Incremental.Step Incremental.Spared) _ ⟨_, .marking⟩ := h₄.step ⟨.mark 100 (by decide), trivial⟩
  have h₆ := h₅.step ⟨.mutate (.allocate 3 (.leaf 8)) ⟨by decide, fun q hq => by cases hq⟩, fun _ q hq => by cases hq⟩
  have h₇ : Reach (guarded Incremental.Step Incremental.Spared) _ ⟨_, .found⟩ := h₆.step ⟨.mark 100 (by decide), trivial⟩
  have h₈ : Reach (guarded Incremental.Step Incremental.Spared) _ ⟨_, .complete⟩ := h₇.step ⟨.busyCheck, trivial⟩
  have hwf := (Incremental.Inv.of_reach h₈).wf
  have hnil : ∀ t, WF t → Run Step ⟨⟨t.mem, t.heap.startSweeping⟩, .loading⟩ [] ⟨⟨t.mem, t.heap.startSweeping⟩, .loading⟩ :=
    fun t _ => .nil _
  have g₁ := (hnil _ hwf).snoc (Step.mutate (.set 2 0 [3]) ⟨by decide, by decide, fun q hq => by
    obtain rfl : q = 3 := List.mem_singleton.1 hq
    exact Mem.Rooted.reachable ⟨by decide, by decide⟩⟩)
  have g₂ := g₁.snoc (Step.mutate (.dropRoot 3) ⟨by decide, by decide⟩)
  obtain ⟨tr', p', hr, _, hpc, hfree, hreach⟩ := sweep_completes _ hwf _ _ g₂
  have hf := (hfree 3 (by decide)).2
    ⟨⟨[3, 2, 1], ⟨by decide, by decide, by decide, rfl⟩, by decide⟩, by decide, by decide⟩
  obtain ⟨hahead, hw, h0⟩ := (hfree 3 (by decide)).1 hf
  refine ⟨_, _, _, tr', p', h₈, g₂, ⟨hahead, hw, h0, ?_⟩, hr, hpc, hreach 3 ?_, hf⟩ <;>
    exact ⟨2, ⟨by decide, by decide⟩, .single (by decide : 3 ∈ _)⟩

end Abfall.Sweeping
