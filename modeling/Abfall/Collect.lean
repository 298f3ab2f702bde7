import Abfall.Sweep
/-!
# The operations of a heap: mutators and whole collections

| here | there |
| --- | --- |
| `St.allocate`            | `Heap::allocate` (`heap.rs:280-317`): assist, box, push, count |
| `St.cloneRoot`, `St.dropRoot`, `St.rootPtr` | `Clone`/`Drop for GcRoot`, `GcPtr::root` (`ptr.rs:45-52`, `:125-141`) |
| `St.barrier`, `St.setCell` | `GcCell::set` (`cell.rs:44-59`) on a thread whose context is on this heap |
| `St.tryMarkFull`, `St.forceCollect`, `St.collect` | `heap.rs:341-413` |

These are whole operations: each runs to its end before the next one starts, so the push of `allocate`
succeeds at its first compare-exchange. `forceCollect_spec` is the one lemma the later modules use
about a whole collection.
-/
namespace Abfall
open Chain Worklist

/-- The mutator assist of `allocate` (heap.rs:282-285). -/
def St.assist (s : St) : St :=
  if 0 < s.heap.options.assistWorkBudget then
    let r := s.heap.checkIsMarkingAndIncrementBusy
    if r.2 then
      let s := (St.doMarkIncremental ⟨s.mem, r.1⟩ s.heap.options.assistWorkBudget).1
      ⟨s.mem, s.heap.decrementBusyMarking⟩
    else ⟨s.mem, r.1⟩
  else s

/-- `GcBox::new` and the push onto the list; `a` is the address the allocator returned. -/
def St.push (s : St) (a : Addr) (d : Data) : St where
  mem := (s.mem.newBox a d).setNext a s.heap.head
  heap := (s.heap.withHead (some a)).withBytes (s.heap.bytesAllocated + d.size)

def St.allocate (s : St) (a : Addr) (d : Data) : St := s.assist.push a d

def St.cloneRoot (s : St) (a : Addr) : St := ⟨s.mem.incRoot a, s.heap⟩

def St.dropRoot (s : St) (a : Addr) : St := ⟨s.mem.decRoot a, s.heap⟩

def St.rootPtr (s : St) (a : Addr) : St := ⟨s.mem.incRoot a, s.heap⟩

/-- The write barrier: the new value is traced into the context's `local_gray`, which is then merged
into the shared queue. -/
def St.barrier (s : St) (localGray : Tracer) (vals : List Addr) : St × Tracer :=
  let r := s.heap.checkIsMarkingAndIncrementBusy
  if r.2 then
    let tr := Mem.markAll vals s.mem localGray
    let s := St.mergeWork ⟨tr.1, r.1⟩ tr.2
    (⟨s.mem, s.heap.decrementBusyMarking⟩, [])
  else (⟨s.mem, r.1⟩, localGray)

/-- The store into the `k`-th cell of the object at `o`. -/
def St.storeCell (s : St) (o : Addr) (k : Nat) (vals : List Addr) : St :=
  ⟨(s.mem.touch o).setData o ((s.mem.data o).setCell k vals), s.heap⟩

/-- `GcCell::set`; `local_gray` is empty between two calls. -/
def St.setCell (s : St) (o : Addr) (k : Nat) (vals : List Addr) : St :=
  (s.barrier [] vals).1.storeCell o k vals

/-- A mutator's operation, with the address the allocator chose for a new box. -/
inductive MutOp
  | allocate (a : Addr) (d : Data)
  | clone (a : Addr)
  | dropRoot (a : Addr)
  | root (a : Addr)
  | set (o : Addr) (k : Nat) (vals : List Addr)

def St.mutate (s : St) : MutOp → St
  | .allocate a d => s.allocate a d
  | .clone a => s.cloneRoot a
  | .dropRoot a => s.dropRoot a
  | .root a => s.rootPtr a
  | .set o k vals => s.setCell o k vals

/-- What a mutator can do: it has the pointers in `ok`, and a `GcRoot` to clone or drop is counted. -/
def MutOp.Allowed (ok : Addr → Prop) (s : St) : MutOp → Prop
  | .allocate a d => s.mem.alive a = false ∧ ∀ p ∈ d.ptrs, ok p
  | .clone a => s.mem.Rooted a
  | .dropRoot a => s.mem.Rooted a
  | .root a => ok a
  | .set o k vals => s.mem.alive o = true ∧ k < (s.mem.data o).cells.length ∧ ∀ p ∈ vals, ok p

theorem MutOp.Allowed.mono {ok ok' : Addr → Prop} {s : St} {op : MutOp} (hok : ∀ p, ok p → ok' p)
    (h : op.Allowed ok s) : op.Allowed ok' s := by
  cases op with
  | allocate a d => exact ⟨h.1, fun p hp => hok p (h.2 p hp)⟩
  | set o k vals => exact ⟨h.1, h.2.1, fun p hp => hok p (h.2.2 p hp)⟩
  | root a => exact hok a h
  | _ => exact h

/-- `try_mark_full` (heap.rs:398). -/
def St.tryMarkFull (fuel : Nat) (s : St) : Option (St × Bool) :=
  let r := s.heap.tryStartMarking
  if r.2 then do
    let s ← St.doMarkRoots fuel ⟨s.mem, r.1⟩ []
    let s ← doMarkWorkFull fuel s []
    some (s, true)
  else some (⟨s.mem, r.1⟩, false)

/-- `force_collect` (heap.rs:341). -/
def St.forceCollect (fuel : Nat) (s : St) : Option (St × Nat) := do
  let (s, started) ← s.tryMarkFull fuel
  if started then s.sweepAndFinish fuel else some (s, s.heap.bytesAllocated)

/-- `collect` (heap.rs:351). -/
def St.collect (fuel : Nat) (s : St) : Option St :=
  if s.heap.shouldCollect then (s.forceCollect fuel).map (·.1) else some s

/-! ## A whole collection -/

/-- What one uninterrupted `force_collect` did to a heap whose list was `l`. -/
structure Collected (s : St) (l : List Addr) (s' : St) (live : Nat) : Prop where
  /-- The memory between marking and sweeping. -/
  marked : ∃ m₁, s.mem.SameObjects m₁ ∧ (∀ x, m₁.color x ≠ .white ↔ Marked s.mem s.heap.grayQueue l x) ∧
    (Sane s.mem (waiting [] s.heap.grayQueue) → m₁.fault = false) ∧ Swept m₁ [] l s'.mem s'.heap.head ∧
    live = s.heap.bytesAllocated - sizeSum m₁ (dead m₁ l)
  heap : s'.heap = (s.heap.withQueue []).afterSweep s'.heap.head live

/-- The dropped objects are the listed ones that marking left White and that have no root. -/
theorem mem_dead_marked {s : St} {l : List Addr} {m₁ : Mem} (hs : s.mem.SameObjects m₁)
    (hm : ∀ x, m₁.color x ≠ .white ↔ Marked s.mem s.heap.grayQueue l x) {x : Addr} :
    x ∈ dead m₁ l ↔ x ∈ l ∧ ¬ Marked s.mem s.heap.grayQueue l x ∧ s.mem.rootCount x = 0 := by
  rw [mem_dead, hs.rootCount, ← hm x]
  simp

/-- A `force_collect` that returned has run a whole cycle, or found another one running. -/
theorem forceCollect_some {fuel live : Nat} {s s' : St} (h : s.forceCollect fuel = some (s', live)) :
    (s.heap.phase ≠ .idle ∧ s' = s) ∨ (s.heap.phase = .idle ∧ ∃ s₁ s₂,
      St.doMarkRoots fuel ⟨s.mem, s.heap.withPhase .marking⟩ [] = some s₁ ∧ doMarkWorkFull fuel s₁ [] = some s₂ ∧
      s₂.sweepAndFinish fuel = some (s', live)) := by
  by_cases hidle : s.heap.phase = .idle
  swap
  · simp only [St.forceCollect, St.tryMarkFull, Heap.tryStartMarking, hidle, ↓reduceIte, Option.bind_eq_bind,
      Option.bind_some, Bool.false_eq_true, Option.some.injEq, Prod.mk.injEq] at h
    exact .inl ⟨hidle, h.1.symm⟩
  simp only [St.forceCollect, St.tryMarkFull, Heap.tryStartMarking, hidle, ↓reduceIte, Option.bind_eq_bind] at h
  cases h₁ : St.doMarkRoots fuel ⟨s.mem, s.heap.withPhase .marking⟩ [] with
  | none => simp [h₁] at h
  | some s₁ =>
    cases h₂ : doMarkWorkFull fuel s₁ [] with
    | none => simp [h₁, h₂] at h
    | some s₂ =>
      simp only [h₁, h₂, Option.bind_some, ↓reduceIte] at h
      exact .inr ⟨hidle, s₁, s₂, rfl, h₂, h⟩

/-- The converse: the three parts of a cycle, put together. -/
theorem forceCollect_of {fuel : Nat} {s s₁ s₂ : St} {r : St × Nat} (hidle : s.heap.phase = .idle)
    (h₁ : St.doMarkRoots fuel ⟨s.mem, s.heap.withPhase .marking⟩ [] = some s₁) (h₂ : doMarkWorkFull fuel s₁ [] = some s₂)
    (hsweep : s₂.sweepAndFinish fuel = some r) : s.forceCollect fuel = some r := by
  simp only [St.forceCollect, St.tryMarkFull, Heap.tryStartMarking, hidle, ↓reduceIte, Option.bind_eq_bind, h₁, h₂,
    Option.bind_some, hsweep]

theorem forceCollect_spec {fuel live : Nat} {s s' : St} {l : List Addr} (hidle : s.heap.phase = .idle)
    (hl : Seg s.mem.next s.heap.head l none) (ha : ∀ x ∈ l, s.mem.alive x = true)
    (hb : 0 < s.heap.options.incrementalWorkBudget) (h : s.forceCollect fuel = some (s', live)) :
    Collected s l s' live := by
  obtain ⟨_, s₁, s₂, h₁, h₂, hsweep⟩ := (forceCollect_some h).resolve_left fun hno => hno.1 hidle
  obtain ⟨hs, hm, hh⟩ := marked_of_phase (s := ⟨s.mem, s.heap.withPhase .marking⟩) hl h₁ h₂ hb
  have hl₂ : Seg s₂.mem.next s₂.heap.head l none := by rw [hs.next, hh]; exact hl
  obtain ⟨hsw, hlive, hheap⟩ := sweepAndFinish_some hl₂ (fun x hx => by rw [hs.alive]; exact ha x hx) hsweep
  refine ⟨⟨s₂.mem, hs, hm, fun hsane => ?_, hsw, ?_⟩, ?_⟩
  · exact fault_of_phase (s := ⟨s.mem, s.heap.withPhase .marking⟩) hl ha h₁ h₂ hb hsane
  · rw [hlive, hh]; rfl
  · rw [hheap, hh]; rfl

/-- It ends when no assist or barrier is running: the walks are over a null-terminated list, and the
marking loop uses up White and waiting objects. -/
theorem forceCollect_total {s : St} {l : List Addr} (hidle : s.heap.phase = .idle)
    (hl : Seg s.mem.next s.heap.head l none) (hla : ∀ x, x ∈ l ↔ s.mem.alive x = true)
    (hsane : Sane s.mem (waiting [] s.heap.grayQueue)) (hbusy : s.heap.nBusyMarking = 0)
    (hb : 0 < s.heap.options.incrementalWorkBudget) : ∃ fuel s' live, s.forceCollect fuel = some (s', live) := by
  have hscan := scanRoots_sane (q := s.heap.grayQueue) l s.mem [] (fun a ha => (hla a).1 ha) hsane
  have hsame := scanRoots_same l s.mem []
  -- every object marking can meet is on the list
  have hwithin : Within l.toFinset (scanRoots l s.mem []).1
      (waiting [] ((scanRoots l s.mem []).2 ++ s.heap.grayQueue)) := by
    refine ⟨fun x hx => ?_, fun a b ha he => ?_⟩
    · have := hscan.waits x (by simpa [waiting] using hx)
      rw [hsame.alive] at this
      simpa [hla] using this
    · rw [hsame.edge] at he
      simp only [List.mem_toFinset, hla] at ha ⊢
      exact hsane.closed a b ha he
  obtain ⟨n, hn⟩ : ∃ n, n = whites l.toFinset (scanRoots l s.mem []).1 +
    ((scanRoots l s.mem []).2 ++ s.heap.grayQueue).length + 1 + l.length := ⟨_, rfl⟩
  have h₁ : St.doMarkRoots n ⟨s.mem, s.heap.withPhase .marking⟩ [] =
      some ⟨(scanRoots l s.mem []).1,
        (s.heap.withPhase .marking).withQueue ((scanRoots l s.mem []).2 ++ s.heap.grayQueue)⟩ :=
    (St.doMarkRoots_eq (s := ⟨s.mem, s.heap.withPhase .marking⟩) hl n []).trans (if_pos (by omega))
  obtain ⟨s₂, h₂⟩ := doMarkWorkFull_total (F := l.toFinset) n ⟨(scanRoots l s.mem []).1,
      (s.heap.withPhase .marking).withQueue ((scanRoots l s.mem []).2 ++ s.heap.grayQueue)⟩ [] hwithin hbusy hb
    (by simp only [List.length_nil, Heap.withQueue_grayQueue]; omega)
  obtain ⟨hs, _, hh⟩ := marked_of_phase (s := ⟨s.mem, s.heap.withPhase .marking⟩) hl h₁ h₂ hb
  have hl₂ : Seg s₂.mem.next s₂.heap.head l none := by rw [hs.next, hh]; exact hl
  obtain ⟨_, hyes⟩ := sweepAndFinish_spec hl₂ (fun x hx => by rw [hs.alive]; exact (hla x).1 hx) n
  obtain ⟨m', hd', live, _, _, e⟩ := hyes (by omega)
  exact ⟨n, ⟨m', s₂.heap.afterSweep hd' live⟩, live, forceCollect_of hidle h₁ h₂ e⟩

end Abfall
