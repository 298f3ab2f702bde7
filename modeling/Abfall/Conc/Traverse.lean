import Abfall.Conc.Push
/-!
# Pushes and traversals of the object list

| here | there |
| --- | --- |
| `Pc.boxed`, `loaded`, `stored`        | the push loop of `Heap::allocate` (`heap.rs:287-311`) |
| `Pc.scanAt`, `scanMark`, `scanNext`   | the walk of `do_mark_roots` (`heap.rs:503-518`) with its tracer |
| `Pc.countAt`                          | the walk of `allocation_count` (`heap.rs:565-577`) with its count |
| `Step`                                | one load, store or compare-exchange of one thread |

Any number of threads allocate and traverse while no sweep runs. `pushed`, `init`, `snap` and `seen`
are not in the program: the objects whose compare-exchange succeeded (latest first), the list at the
start, and for each thread the list at its last load of `head` and what it has visited since.

A `next` field is written only while its object is on no list, so what a traversal has in front of it
never changes. New objects go in front of `head`, where a traversal that has loaded it does not look. Of the
list itself no more is needed than `Push.Linked`, with the sweep at its `start`.
-/
namespace Abfall.Traverse
open Chain Transition
open Push (ThreadId Linked)

inductive Pc
  | idle
  | boxed (n : Addr)
  | loaded (n : Addr) (h : Option Addr)
  | stored (n : Addr) (h : Option Addr)
  /-- At the `while` of `do_mark_roots`. -/
  | scanAt (current : Option Addr) (t : Tracer)
  | scanMark (a : Addr) (t : Tracer)
  | scanNext (a : Addr) (t : Tracer)
  /-- At the `while` of `allocation_count`. -/
  | countAt (current : Option Addr) (count : Nat)
deriving DecidableEq, Repr

/-- Where the thread stands in the push loop. -/
def Pc.pushing : Pc → Push.AllocPc
  | .boxed n => .boxed n
  | .loaded n h => .loaded n h
  | .stored n h => .stored n h
  | _ => .idle

structure Sys where
  mem : Mem
  head : Option Addr
  grayQueue : List Addr
  pc : ThreadId → Pc
  pushed : List Addr
  init : List Addr
  snap : ThreadId → List Addr
  seen : ThreadId → List Addr

namespace Sys

def list (s : Sys) : List Addr := s.pushed ++ s.init

def setPc (s : Sys) (i : ThreadId) (p : Pc) : Sys := { s with pc := Function.update s.pc i p }

def setMem (s : Sys) (m : Mem) : Sys := { s with mem := m }

/-- The compare-exchange of `head` succeeded. -/
def push (s : Sys) (n : Addr) : Sys := { s with head := some n, pushed := n :: s.pushed }

/-- A traversal loads `head`. -/
def startWalk (s : Sys) (i : ThreadId) : Sys :=
  { s with snap := Function.update s.snap i s.list, seen := Function.update s.seen i [] }

def visit (s : Sys) (i : ThreadId) (a : Addr) : Sys := { s with seen := Function.update s.seen i (s.seen i ++ [a]) }

def merge (s : Sys) (t : Tracer) : Sys := { s with grayQueue := t ++ s.grayQueue }

end Sys

inductive Label
  | box (i : ThreadId) (n : Addr) (d : Data)
  | load (i : ThreadId)
  | store (i : ThreadId)
  | cas (i : ThreadId)
  | scanHead (i : ThreadId)
  | scanRoot (i : ThreadId)
  | scanMark (i : ThreadId)
  | scanNext (i : ThreadId)
  /-- The end of `do_mark_roots`: the tracer is merged into the shared queue. -/
  | scanEnd (i : ThreadId)
  | countHead (i : ThreadId)
  | countNext (i : ThreadId)
  /-- `allocation_count` returns. -/
  | countEnd (i : ThreadId) (count : Nat)

def Label.thread : Label → ThreadId
  | .box i _ _ | .load i | .store i | .cas i | .scanHead i | .scanRoot i | .scanMark i | .scanNext i | .scanEnd i
  | .countHead i | .countNext i | .countEnd i _ => i

/-- The thread whose traversal ends with this step. -/
def Label.ends : Label → Option ThreadId
  | .scanEnd i | .countEnd i _ => some i
  | _ => none

inductive Step : Sys → Label → Sys → Prop
  | box {s : Sys} (i : ThreadId) (n : Addr) (d : Data) : s.pc i = .idle → s.mem.alive n = false →
      Step s (.box i n d) ((s.setMem (s.mem.newBox n d)).setPc i (.boxed n))
  | load {s : Sys} (i : ThreadId) {n : Addr} : s.pc i = .boxed n →
      Step s (.load i) (s.setPc i (.loaded n s.head))
  | store {s : Sys} (i : ThreadId) {n : Addr} {h : Option Addr} : s.pc i = .loaded n h →
      Step s (.store i) ((s.setMem (s.mem.setNext n h)).setPc i (.stored n h))
  | casOk {s : Sys} (i : ThreadId) {n : Addr} {h : Option Addr} : s.pc i = .stored n h → s.head = h →
      Step s (.cas i) ((s.push n).setPc i .idle)
  | casFail {s : Sys} (i : ThreadId) {n : Addr} {h : Option Addr} : s.pc i = .stored n h → s.head ≠ h →
      Step s (.cas i) (s.setPc i (.boxed n))
  | scanHead {s : Sys} (i : ThreadId) : s.pc i = .idle →
      Step s (.scanHead i) ((s.startWalk i).setPc i (.scanAt s.head []))
  | scanRoot {s : Sys} (i : ThreadId) {a : Addr} {t : Tracer} : s.pc i = .scanAt (some a) t →
      Step s (.scanRoot i) ((s.visit i a).setPc i (if s.mem.isRoot a then .scanMark a t else .scanNext a t))
  | scanMark {s : Sys} (i : ThreadId) {a : Addr} {t : Tracer} : s.pc i = .scanMark a t →
      Step s (.scanMark i)
        ((s.setMem (s.mem.markHeader t a).1).setPc i (.scanNext a (s.mem.markHeader t a).2))
  | scanNext {s : Sys} (i : ThreadId) {a : Addr} {t : Tracer} : s.pc i = .scanNext a t →
      Step s (.scanNext i) (s.setPc i (.scanAt (s.mem.next a) t))
  | scanEnd {s : Sys} (i : ThreadId) {t : Tracer} : s.pc i = .scanAt none t →
      Step s (.scanEnd i) ((s.merge t).setPc i .idle)
  | countHead {s : Sys} (i : ThreadId) : s.pc i = .idle →
      Step s (.countHead i) ((s.startWalk i).setPc i (.countAt s.head 0))
  | countNext {s : Sys} (i : ThreadId) {a : Addr} {n : Nat} : s.pc i = .countAt (some a) n →
      Step s (.countNext i) ((s.visit i a).setPc i (.countAt (s.mem.next a) (n + 1)))
  | countEnd {s : Sys} (i : ThreadId) {n : Nat} : s.pc i = .countAt none n →
      Step s (.countEnd i n) (s.setPc i .idle)

/-- Any list of allocated objects; no allocation or traversal is under way. -/
structure Start (s : Sys) : Prop where
  list : Seg s.mem.next s.head s.init none
  alive : ∀ a ∈ s.init, s.mem.alive a = true
  pushed : s.pushed = []
  idle : ∀ i, s.pc i = .idle

/-! ## The invariant -/

/-- Where the rest of a traversal starts. -/
def Pc.ahead (next : Addr → Option Addr) : Pc → Option (Option Addr)
  | .scanAt p _ => some p
  | .scanMark a _ => some (next a)
  | .scanNext a _ => some (next a)
  | .countAt p _ => some p
  | _ => none

/-- The object a traversal stands at. -/
def Pc.standsAt : Pc → Option Addr
  | .scanMark a _ => some a
  | .scanNext a _ => some a
  | _ => none

/-- A traversal in the middle of its list. -/
structure Walk (s : Sys) (i : ThreadId) (p : Option Addr) : Prop where
  rest : ∃ rest, s.snap i = s.seen i ++ rest ∧ Seg s.mem.next p rest none
  suffix : s.snap i <:+ s.list
  stands : ∀ a, (s.pc i).standsAt = some a → a ∈ s.seen i
  count : ∀ q n, s.pc i = .countAt q n → n = (s.seen i).length

structure Inv (s : Sys) : Prop where
  linked : Linked s.mem s.head (Pc.pushing ∘ s.pc) .start s.list
  walk : ∀ i p, (s.pc i).ahead s.mem.next = some p → Walk s i p

@[simp] theorem setPc_pc (s : Sys) (i : ThreadId) (p : Pc) : (s.setPc i p).pc = Function.update s.pc i p := rfl

@[simp] theorem setPc_snap (s : Sys) (i : ThreadId) (p : Pc) : (s.setPc i p).snap = s.snap := rfl

@[simp] theorem setPc_seen (s : Sys) (i : ThreadId) (p : Pc) : (s.setPc i p).seen = s.seen := rfl

/-- What thread `i` changes in a step, as the others see it. -/
structure Framed (s s' : Sys) (i : ThreadId) : Prop where
  pc : s'.pc = s.pc
  snap : ∀ j, j ≠ i → s'.snap j = s.snap j
  seen : ∀ j, j ≠ i → s'.seen j = s.seen j
  next : ∀ a ∈ s.list, s'.mem.next a = s.mem.next a
  suffix : s.list <:+ s'.list

variable {s s' : Sys} {i : ThreadId}

theorem Walk.mem_list {p : Option Addr} (h : Walk s i p) {a : Addr} (ha : a ∈ s.seen i) : a ∈ s.list := by
  obtain ⟨rest, e, _⟩ := h.rest
  refine h.suffix.subset ?_
  rw [e]
  exact List.mem_append_left rest ha

/-- A traversal does not notice it: the rest of its list is as it was. -/
theorem Framed.walk (hf : Framed s s' i) (hi : Inv s) {j : ThreadId} (hj : j ≠ i) {p : Pc} {q : Option Addr}
    (h : (s.pc j).ahead s'.mem.next = some q) : Walk (s'.setPc i p) j q := by
  have hpc : (s'.setPc i p).pc j = s.pc j := by rw [setPc_pc, Function.update_of_ne hj, hf.pc]
  -- the object it stands at is on the list, so its `next` is unchanged
  have hsame : (s.pc j).ahead s.mem.next = some q := by
    cases hp : s.pc j with
    | scanMark a t =>
      have hw := hi.walk j (s.mem.next a) (by rw [hp]; rfl)
      rw [hp] at h
      rw [← h]
      exact congrArg some (hf.next a (hw.mem_list (hw.stands a (by rw [hp]; rfl)))).symm
    | scanNext a t =>
      have hw := hi.walk j (s.mem.next a) (by rw [hp]; rfl)
      rw [hp] at h
      rw [← h]
      exact congrArg some (hf.next a (hw.mem_list (hw.stands a (by rw [hp]; rfl)))).symm
    | _ => rw [hp] at h; exact h
  have hw := hi.walk j q hsame
  obtain ⟨rest, e, hseg⟩ := hw.rest
  refine ⟨⟨rest, ?_, ?_⟩, ?_, ?_, ?_⟩
  · rw [setPc_snap, setPc_seen, hf.snap j hj, hf.seen j hj]
    exact e
  · refine seg_congr (fun a ha => hf.next a (hw.suffix.subset ?_)) hseg
    rw [e]
    exact List.mem_append_right _ ha
  · rw [setPc_snap, hf.snap j hj]
    exact hw.suffix.trans hf.suffix
  · rw [hpc, setPc_seen, hf.seen j hj]
    exact hw.stands
  · rw [hpc, setPc_seen, hf.seen j hj]
    exact hw.count

theorem Framed.inv (hf : Framed s s' i) (hi : Inv s) {p : Pc}
    (hl : Linked s'.mem s'.head (Function.update (Pc.pushing ∘ s.pc) i p.pushing) .start s'.list)
    (hwalk : ∀ q, p.ahead s'.mem.next = some q → Walk (s'.setPc i p) i q) : Inv (s'.setPc i p) := by
  refine ⟨?_, fun j q hq => ?_⟩
  · rw [setPc_pc, hf.pc, Function.comp_update]
    exact hl
  · by_cases hj : j = i
    · subst hj
      rw [setPc_pc, Function.update_self] at hq
      exact hwalk q hq
    · rw [setPc_pc, Function.update_of_ne hj, hf.pc] at hq
      exact hf.walk hi hj hq

theorem Start.inv (h : Start s) : Inv s := by
  have hl : s.list = s.init := by simp [Sys.list, h.pushed]
  have hidle : ∀ i, (Pc.pushing ∘ s.pc) i = .idle := fun i => congrArg Pc.pushing (h.idle i)
  refine ⟨⟨by rw [hl]; exact h.list, by rw [hl]; exact h.alive, ?_, ?_, ?_, trivial, ?_⟩, ?_⟩
  · intro i n hn; rw [hidle] at hn; cases hn
  · intro i j n hn; rw [hidle] at hn; cases hn
  · intro i n k hn; rw [hidle] at hn; cases hn
  · intro a ha; cases ha
  · intro i p hp; rw [h.idle i] at hp; cases hp

/-- A new box: its address was free, so it is on no list. -/
theorem Inv.box {n : Addr} (d : Data) (hi : Inv s) (hal : s.mem.alive n = false) :
    Inv ((s.setMem (s.mem.newBox n d)).setPc i (.boxed n)) := by
  have hf : Framed s (s.setMem (s.mem.newBox n d)) i :=
    ⟨rfl, fun _ _ => rfl, fun _ _ => rfl,
      fun a ha => Function.update_of_ne (Mem.ne_of_alive hal (hi.linked.alive a ha)) _ _, List.suffix_refl _⟩
  exact hf.inv hi (hi.linked.box d hal) fun q hq => by cases hq

/-- `next` is written only while the node is the thread's own. -/
theorem Inv.store {n : Addr} {h : Option Addr} (hi : Inv s) (hpc : s.pc i = .loaded n h) :
    Inv ((s.setMem (s.mem.setNext n h)).setPc i (.stored n h)) := by
  have hown := hi.linked.own i n (by rw [Function.comp_apply, hpc]; rfl)
  have hold : ∀ a ∈ s.list, a ≠ n := by rintro a ha rfl; exact hown.2 ha
  have hf : Framed s (s.setMem (s.mem.setNext n h)) i :=
    ⟨rfl, fun _ _ => rfl, fun _ _ => rfl, fun a ha => Function.update_of_ne (hold a ha) _ _, List.suffix_refl _⟩
  exact hf.inv hi (hi.linked.store (congrArg Pc.pushing hpc)) fun q hq => by cases hq

/-- The compare-exchange succeeds: the node's `next` is the list it goes in front of. -/
theorem Inv.casOk {n : Addr} {h : Option Addr} (hi : Inv s) (hpc : s.pc i = .stored n h) (hh : s.head = h) :
    Inv ((s.push n).setPc i .idle) := by
  have hf : Framed s (s.push n) i :=
    ⟨rfl, fun _ _ => rfl, fun _ _ => rfl, fun _ _ => rfl, List.suffix_cons n s.list⟩
  exact hf.inv hi (hi.linked.casOk (congrArg Pc.pushing hpc) hh) fun q hq => by cases hq

/-- A thread that is not in a traversal. -/
theorem Inv.pause {p : Pc} (hi : Inv s) (hnode : ∀ n, p.pushing.node = some n → (s.pc i).pushing.node = some n)
    (hstored : ∀ n h, p.pushing ≠ .stored n h) (hahead : p.ahead s.mem.next = none) : Inv (s.setPc i p) := by
  have hf : Framed s s i := ⟨rfl, fun _ _ => rfl, fun _ _ => rfl, fun _ _ => rfl, List.suffix_refl _⟩
  refine hf.inv hi (hi.linked.keep hnode fun n g hst => absurd hst (hstored n g)) fun q hq => ?_
  rw [hahead] at hq
  cases hq

/-- A step of a thread that goes on in a traversal: it holds no node of its own. -/
theorem Framed.walking {p : Pc} {q : Option Addr} (hf : Framed s s' i) (hi : Inv s) (hm : s.mem.SameObjects s'.mem)
    (hhead : s'.head = s.head) (hlist : s'.list = s.list) (hidle : p.pushing = .idle)
    (hahead : p.ahead s.mem.next = some q) (hwalk : Walk (s'.setPc i p) i q) : Inv (s'.setPc i p) := by
  have hmem : Linked s'.mem s.head (Pc.pushing ∘ s.pc) .start s.list :=
    hi.linked.frame (fun a _ => congrFun hm.next a) (fun a ha => (congrFun hm.alive a).trans ha)
      fun _ n _ _ => congrFun hm.next n
  refine hf.inv hi ?_ fun q' hq => ?_
  · rw [hhead, hlist, hidle]
    exact hmem.keep (fun _ hn => by cases hn) fun _ _ hst => by cases hst
  · rw [hm.next, hahead] at hq
    obtain rfl := Option.some.inj hq
    exact hwalk

/-- A traversal starts with the whole list in front of it. -/
theorem Inv.startWalk {p : Pc} (hi : Inv s) (hidle : p.pushing = .idle) (hstands : p.standsAt = none)
    (hahead : p.ahead s.mem.next = some s.head) (hcount : ∀ q n, p = .countAt q n → n = 0) :
    Inv ((s.startWalk i).setPc i p) := by
  have hf : Framed s (s.startWalk i) i :=
    ⟨rfl, fun j hj => Function.update_of_ne hj _ _, fun j hj => Function.update_of_ne hj _ _, fun _ _ => rfl,
      List.suffix_refl _⟩
  refine hf.walking hi (.refl _) rfl rfl hidle hahead ⟨⟨s.list, by simp [Sys.startWalk], hi.linked.seg⟩, ?_, ?_, ?_⟩
  · simp only [setPc_snap, Sys.startWalk, Function.update_self]
    exact List.suffix_refl _
  · intro a ha; rw [setPc_pc, Function.update_self, hstands] at ha; cases ha
  · intro q n hq
    rw [setPc_pc, Function.update_self] at hq
    simp [Sys.startWalk, hcount q n hq]

/-- A traversal visits the object in front of it. -/
theorem Inv.visit {p : Pc} {a : Addr} (hi : Inv s) (hw : Walk s i (some a)) (hidle : p.pushing = .idle)
    (hahead : p.ahead s.mem.next = some (s.mem.next a)) (hstands : ∀ b, p.standsAt = some b → b = a)
    (hcount : ∀ q n, p = .countAt q n → n = (s.seen i).length + 1) : Inv ((s.visit i a).setPc i p) := by
  obtain ⟨rest, e, hseg⟩ := hw.rest
  obtain ⟨r, rfl, hr⟩ := seg_head hseg
  have hseen : ((s.visit i a).setPc i p).seen i = s.seen i ++ [a] := by simp [Sys.visit]
  have hf : Framed s (s.visit i a) i :=
    ⟨rfl, fun _ _ => rfl, fun j hj => Function.update_of_ne hj _ _, fun _ _ => rfl, List.suffix_refl _⟩
  refine hf.walking hi (.refl _) rfl rfl hidle hahead ⟨⟨r, ?_, hr⟩, hw.suffix, ?_, ?_⟩
  · rw [hseen, List.append_assoc]
    exact e
  · intro b hb
    rw [setPc_pc, Function.update_self] at hb
    rw [hseen, hstands b hb]
    simp
  · intro q n hq
    rw [setPc_pc, Function.update_self] at hq
    rw [hseen, hcount q n hq, List.length_append, List.length_singleton]

/-- A traversal goes on from where it is. -/
theorem Inv.walkOn {p : Pc} {m : Mem} {q : Option Addr} (hi : Inv s) (hm : s.mem.SameObjects m) (hw : Walk s i q)
    (hidle : p.pushing = .idle) (hahead : p.ahead s.mem.next = some q)
    (hstands : ∀ b, p.standsAt = some b → b ∈ s.seen i)
    (hcount : ∀ q n, p ≠ .countAt q n) : Inv ((s.setMem m).setPc i p) := by
  obtain ⟨rest, e, hseg⟩ := hw.rest
  have hf : Framed s (s.setMem m) i :=
    ⟨rfl, fun _ _ => rfl, fun _ _ => rfl, fun a _ => congrFun hm.next a, List.suffix_refl _⟩
  refine hf.walking hi hm rfl rfl hidle hahead ⟨⟨rest, e, ?_⟩, hw.suffix, ?_, ?_⟩
  · show Seg m.next q rest none
    rw [hm.next]
    exact hseg
  · rw [setPc_pc, Function.update_self]; exact hstands
  · intro q n hq; rw [setPc_pc, Function.update_self] at hq; exact absurd hq (hcount q n)

theorem step_inv {l : Label} (hi : Inv s) (h : Step s l s') : Inv s' := by
  cases h with
  | box i n d _ hal => exact hi.box d hal
  | load i hpc => exact hi.pause (fun k hk => by rw [hpc]; exact hk) (fun _ _ h => by cases h) rfl
  | store i hpc => exact hi.store hpc
  | casOk i hpc hh => exact hi.casOk hpc hh
  | casFail i hpc _ => exact hi.pause (fun k hk => by rw [hpc]; exact hk) (fun _ _ h => by cases h) rfl
  | scanHead i _ => exact hi.startWalk rfl rfl rfl fun _ _ h => by cases h
  | @scanRoot i a t hpc =>
    have hw := hi.walk i (some a) (by rw [hpc]; rfl)
    split
    · exact hi.visit hw rfl rfl (fun b hb => (Option.some.inj hb).symm) fun _ _ h => by cases h
    · exact hi.visit hw rfl rfl (fun b hb => (Option.some.inj hb).symm) fun _ _ h => by cases h
  | @scanMark i a t hpc =>
    have hw := hi.walk i (s.mem.next a) (by rw [hpc]; rfl)
    refine hi.walkOn (s.mem.markHeader_same t a) hw rfl rfl (fun b hb => ?_) fun _ _ h => by cases h
    exact hw.stands b (by rw [hpc]; exact hb)
  | @scanNext i a t hpc =>
    have hw := hi.walk i (s.mem.next a) (by rw [hpc]; rfl)
    exact hi.walkOn (.refl _) hw rfl rfl (fun b hb => by cases hb) fun _ _ h => by cases h
  | @scanEnd i t _ =>
    have hmerge : Inv (s.merge t) := ⟨hi.linked, fun j q hq =>
      ⟨(hi.walk j q hq).rest, (hi.walk j q hq).suffix, (hi.walk j q hq).stands, (hi.walk j q hq).count⟩⟩
    exact hmerge.pause (fun k hk => by cases hk) (fun _ _ h => by cases h) rfl
  | countHead i _ => exact hi.startWalk rfl rfl rfl fun _ _ h => by cases h; rfl
  | @countNext i a n hpc =>
    have hw := hi.walk i (some a) (by rw [hpc]; rfl)
    refine hi.visit hw rfl rfl (fun b hb => by cases hb) fun q k h => ?_
    cases h
    rw [hw.count _ _ hpc]
  | countEnd i _ => exact hi.pause (fun k hk => by cases hk) (fun _ _ h => by cases h) rfl

/-! ## A traversal ends -/

def Pc.walks : Pc → Bool
  | .scanAt _ _ | .scanMark _ _ | .scanNext _ _ | .countAt _ _ => true
  | _ => false

/-- The thread is in a traversal. -/
def Walking (s : Sys) (i : ThreadId) : Prop := (s.pc i).walks = true

theorem Pc.ahead_of_walks {p : Pc} (next : Addr → Option Addr) (h : p.walks = true) : ∃ q, p.ahead next = some q := by
  cases p <;> first | exact ⟨_, rfl⟩ | cases h

/-- The steps a traversal still takes at most, the last one included. -/
def Sys.left (s : Sys) (i : ThreadId) : Nat :=
  match s.pc i with
  | .scanAt _ _ => 3 * ((s.snap i).length - (s.seen i).length) + 1
  | .scanMark _ _ => 3 * ((s.snap i).length - (s.seen i).length) + 3
  | .scanNext _ _ => 3 * ((s.snap i).length - (s.seen i).length) + 2
  | .countAt _ _ => (s.snap i).length - (s.seen i).length + 1
  | _ => 0

/-- The steps of thread `i` in a trace. -/
def ownSteps (i : ThreadId) (tr : List (Sys × Label)) : Nat := (tr.filter fun e => e.2.thread == i).length

/-- A step of another thread. -/
theorem other_step {l : Label} (h : Step s l s') (hne : l.thread ≠ i) :
    s'.pc i = s.pc i ∧ s'.snap i = s.snap i ∧ s'.seen i = s.seen i := by
  cases h with
  | scanHead j => exact ⟨Function.update_of_ne (Ne.symm hne) _ _, Function.update_of_ne (Ne.symm hne) _ _,
      Function.update_of_ne (Ne.symm hne) _ _⟩
  | countHead j => exact ⟨Function.update_of_ne (Ne.symm hne) _ _, Function.update_of_ne (Ne.symm hne) _ _,
      Function.update_of_ne (Ne.symm hne) _ _⟩
  | scanRoot j => exact ⟨Function.update_of_ne (Ne.symm hne) _ _, rfl, Function.update_of_ne (Ne.symm hne) _ _⟩
  | countNext j => exact ⟨Function.update_of_ne (Ne.symm hne) _ _, rfl, Function.update_of_ne (Ne.symm hne) _ _⟩
  | _ => exact ⟨Function.update_of_ne (Ne.symm hne) _ _, rfl, rfl⟩

/-- A step of a traversal that does not end it. -/
theorem own_step {l : Label} (hi : Inv s) (h : Step s l s') (hl : l.thread = i) (hw : Walking s i)
    (hend : l.ends ≠ some i) : Walking s' i ∧ s'.left i + 1 ≤ s.left i ∧ s'.snap i = s.snap i := by
  subst hl
  -- visiting an object makes the rest shorter
  have hvisit : ∀ (j : ThreadId) (a : Addr), (s.pc j).ahead s.mem.next = some (some a) →
      (s.seen j).length < (s.snap j).length := by
    intro j a hp
    obtain ⟨rest, e, hseg⟩ := (hi.walk j _ hp).rest
    obtain ⟨r, rfl, _⟩ := seg_head hseg
    simp [e]
  cases h with
  | @scanRoot j a t hpc =>
    have hlt := hvisit j a (by rw [hpc]; rfl)
    simp only [Label.thread] at hw ⊢
    by_cases hr : s.mem.isRoot a = true
    · rw [if_pos hr]
      refine ⟨by simp [Walking, Pc.walks], ?_, rfl⟩
      simp only [Sys.left, setPc_pc, Function.update_self, hpc, setPc_snap, setPc_seen]
      simp only [Sys.visit, Function.update_self, List.length_append, List.length_singleton]
      omega
    · rw [if_neg hr]
      refine ⟨by simp [Walking, Pc.walks], ?_, rfl⟩
      simp only [Sys.left, setPc_pc, Function.update_self, hpc, setPc_snap, setPc_seen]
      simp only [Sys.visit, Function.update_self, List.length_append, List.length_singleton]
      omega
  | scanMark j hpc =>
    simp only [Label.thread] at hw ⊢
    refine ⟨by simp [Walking, Pc.walks], ?_, rfl⟩
    simp only [Sys.left, setPc_pc, Function.update_self, hpc, setPc_snap, setPc_seen]
    exact Nat.le_refl _
  | scanNext j hpc =>
    simp only [Label.thread] at hw ⊢
    refine ⟨by simp [Walking, Pc.walks], ?_, rfl⟩
    simp only [Sys.left, setPc_pc, Function.update_self, hpc, setPc_snap, setPc_seen]
    omega
  | countNext j hpc =>
    have hlt := hvisit j _ (by rw [hpc]; rfl)
    simp only [Label.thread] at hw ⊢
    refine ⟨by simp [Walking, Pc.walks], ?_, rfl⟩
    simp only [Sys.left, setPc_pc, Function.update_self, hpc, setPc_snap, setPc_seen]
    simp only [Sys.visit, Function.update_self, List.length_append, List.length_singleton]
    omega
  | scanEnd j => exact absurd rfl hend
  | countEnd j => exact absurd rfl hend
  | box j n d hpc => simp [Walking, Label.thread, hpc, Pc.walks] at hw
  | load j hpc => simp [Walking, Label.thread, hpc, Pc.walks] at hw
  | store j hpc => simp [Walking, Label.thread, hpc, Pc.walks] at hw
  | casOk j hpc => simp [Walking, Label.thread, hpc, Pc.walks] at hw
  | casFail j hpc => simp [Walking, Label.thread, hpc, Pc.walks] at hw
  | scanHead j hpc => simp [Walking, Label.thread, hpc, Pc.walks] at hw
  | countHead j hpc => simp [Walking, Label.thread, hpc, Pc.walks] at hw

theorem walk_step {l : Label} (hi : Inv s) (h : Step s l s') (hw : Walking s i) (hend : l.ends ≠ some i) :
    Walking s' i ∧ s'.left i + (if l.thread = i then 1 else 0) ≤ s.left i ∧ s'.snap i = s.snap i := by
  by_cases hl : l.thread = i
  · rw [if_pos hl]
    exact own_step hi h hl hw hend
  · obtain ⟨hpc, hsnap, hseen⟩ := other_step h hl
    rw [if_neg hl]
    refine ⟨by unfold Walking; rw [hpc]; exact hw, ?_, hsnap⟩
    simp only [Sys.left, hpc, hsnap, hseen]
    exact Nat.le_refl _

/-- A run in which a traversal does not end: each of its own steps has used up a part of the list. -/
theorem walk_run {tr : List (Sys × Label)} (h : Run Step s tr s') (hi : Inv s) (hw : Walking s i)
    (hend : ∀ e ∈ tr, e.2.ends ≠ some i) :
    Inv s' ∧ Walking s' i ∧ ownSteps i tr + s'.left i ≤ s.left i ∧ s'.snap i = s.snap i := by
  induction h with
  | nil => exact ⟨hi, hw, by simp [ownSteps], rfl⟩
  | @snoc u v l tr _ hst ih =>
    obtain ⟨hiu, hwu, hle, hsu⟩ := ih fun e he => hend e (by simp [he])
    obtain ⟨hwv, hlev, hsv⟩ := walk_step hiu hst hwu (hend (u, l) (by simp))
    refine ⟨step_inv hiu hst, hwv, ?_, hsv.trans hsu⟩
    have hown : ownSteps i (tr ++ [(u, l)]) = ownSteps i tr + if l.thread = i then 1 else 0 := by
      by_cases hl : l.thread = i <;> simp [ownSteps, hl]
    rw [hown]
    omega

theorem left_pos (hw : Walking s i) : 1 ≤ s.left i := by
  unfold Walking at hw
  cases hp : s.pc i <;> simp [Sys.left, hp, Pc.walks] at hw ⊢

/-- A traversal can always take its next step. -/
theorem walk_enabled (hw : Walking s i) : ∃ l s', l.thread = i ∧ Step s l s' := by
  unfold Walking at hw
  cases hp : s.pc i with
  | scanAt p t =>
    cases p with
    | none => exact ⟨.scanEnd i, _, rfl, .scanEnd i hp⟩
    | some a => exact ⟨.scanRoot i, _, rfl, .scanRoot i hp⟩
  | scanMark a t => exact ⟨.scanMark i, _, rfl, .scanMark i hp⟩
  | scanNext a t => exact ⟨.scanNext i, _, rfl, .scanNext i hp⟩
  | countAt p n =>
    cases p with
    | none => exact ⟨.countEnd i n, _, rfl, .countEnd i hp⟩
    | some a => exact ⟨.countNext i, _, rfl, .countNext i hp⟩
  | _ => rw [hp] at hw; cases hw

/-- It ends when it has visited all of its list. -/
theorem walk_end {l : Label} (hi : Inv s) (h : Step s l s') (hend : l.ends = some i) :
    s.seen i = s.snap i ∧ ∀ n, l = .countEnd i n → n = (s.snap i).length := by
  have hdone : (s.pc i).ahead s.mem.next = some none → s.seen i = s.snap i := by
    intro hp
    obtain ⟨rest, e, hseg⟩ := (hi.walk i none hp).rest
    cases rest with
    | nil => rw [e, List.append_nil]
    | cons a r => cases hseg.1
  cases h with
  | scanEnd j hpc =>
    obtain rfl : j = i := Option.some.inj hend
    exact ⟨hdone (by rw [hpc]; rfl), fun n hn => by cases hn⟩
  | countEnd j hpc =>
    obtain rfl : j = i := Option.some.inj hend
    have hs := hdone (by rw [hpc]; rfl)
    refine ⟨hs, fun k hk => ?_⟩
    cases hk
    rw [← hs]
    exact (hi.walk j none (by rw [hpc]; rfl)).count _ _ hpc
  | _ => cases hend

/-! ## Every interleaving -/

/-- The object that a step pushes. -/
def Sys.pushes (s : Sys) : Label → Option Addr
  | .cas i =>
    match s.pc i with
    | .stored n h => if s.head = h then some n else none
    | _ => none
  | _ => none

/-- The pushed objects of a run, in the order of their compare-exchanges. -/
def successes (tr : List (Sys × Label)) : List Addr := tr.filterMap fun e => e.1.pushes e.2

theorem pushed_run {tr : List (Sys × Label)} (h : Run Step s tr s') (hs : s.pushed = []) :
    s'.pushed = (successes tr).reverse ∧ s'.init = s.init := by
  induction h with
  | nil => exact ⟨hs, rfl⟩
  | @snoc u v l tr _ hst ih =>
    have happ : (successes (tr ++ [(u, l)])).reverse = (u.pushes l).toList ++ (successes tr).reverse := by
      cases hp : u.pushes l <;> simp [successes, hp]
    rw [happ, ← ih.1, ← ih.2]
    cases hst with
    | casOk i hpc hh =>
      refine ⟨?_, rfl⟩
      simp [Sys.pushes, hpc, hh, Sys.setPc, Sys.push]
    | casFail i hpc hh =>
      refine ⟨?_, rfl⟩
      simp [Sys.pushes, hpc, hh, Sys.setPc]
    | _ => exact ⟨rfl, rfl⟩

/-- The thread starts a traversal with this step: its load of `head`. -/
def Label.starts : Label → Option ThreadId
  | .scanHead i | .countHead i => some i
  | _ => none

theorem walk_starts {l : Label} (h : Step s l s') (hst : l.starts = some i) :
    Walking s' i ∧ s'.snap i = s.list ∧ s'.left i ≤ 3 * s.list.length + 1 := by
  cases h with
  | scanHead j _ =>
    obtain rfl : j = i := Option.some.inj hst
    refine ⟨by simp [Walking, Pc.walks], by simp [Sys.startWalk], ?_⟩
    simp [Sys.left, Sys.startWalk]
  | countHead j _ =>
    obtain rfl : j = i := Option.some.inj hst
    refine ⟨by simp [Walking, Pc.walks], by simp [Sys.startWalk], ?_⟩
    simp [Sys.left, Sys.startWalk]
    omega
  | _ => cases hst

/-- **Pushes are linearizable and traversals see a snapshot.** Wherever a run stands, the list from
`head` is null-terminated and free of repetitions: the objects whose compare-exchange succeeded, the
latest first, in front of the list the run started with. Let a thread now load `head` for a traversal,
and let anything follow in which the traversal has not ended: it can take its next step, it has taken
at most three for each object of that list, what it visited is a part of it in order, and when it ends
it has visited all of it. -/
theorem push_linearizable (s₀ s : Sys) (tr : List (Sys × Label)) (h₀ : Start s₀) (h : Run Step s₀ tr s) :
    (Seg s.mem.next s.head ((successes tr).reverse ++ s₀.init) none ∧ ((successes tr).reverse ++ s₀.init).Nodup) ∧
    ∀ i l s₁ tr₁ q, Step s l s₁ → l.starts = some i → Run Step s₁ tr₁ q → (∀ e ∈ tr₁, e.2.ends ≠ some i) →
      (∃ l' q', l'.thread = i ∧ Step q l' q') ∧
      ownSteps i tr₁ ≤ 3 * ((successes tr).reverse ++ s₀.init).length ∧
      q.seen i <+: (successes tr).reverse ++ s₀.init ∧
      ∀ l' q', Step q l' q' → l'.ends = some i → q.seen i = (successes tr).reverse ++ s₀.init ∧
        ∀ n, l' = .countEnd i n → n = ((successes tr).reverse ++ s₀.init).length := by
  have hi : Inv s := h.keeps (fun _ _ _ hi hst => step_inv hi hst) h₀.inv
  obtain ⟨hp, hinit⟩ := pushed_run h h₀.pushed
  have hlist : s.list = (successes tr).reverse ++ s₀.init := by rw [Sys.list, hp, hinit]
  rw [← hlist]
  refine ⟨⟨hi.linked.seg, seg_nodup hi.linked.seg⟩, fun i l s₁ tr₁ q hst hstart hrun hend => ?_⟩
  obtain ⟨hw, hsnap, hleft⟩ := walk_starts hst hstart
  obtain ⟨hiq, hwq, hle, hsq⟩ := walk_run hrun (step_inv hi hst) hw hend
  have hqsnap : q.snap i = s.list := hsq.trans hsnap
  obtain ⟨p, hp⟩ := Pc.ahead_of_walks q.mem.next hwq
  obtain ⟨rest, e, _⟩ := (hiq.walk i p hp).rest
  have hpos := left_pos hwq
  refine ⟨walk_enabled hwq, by omega, ⟨rest, by rw [← e, hqsnap]⟩, fun l' q' hst' hend' => ?_⟩
  obtain ⟨hs, hn⟩ := walk_end hiq hst' hend'
  rw [← hqsnap]
  exact ⟨hs, hn⟩

/-- `allocation_count` of thread `1` loads `head` just before thread `0` pushes `5` in front of `1`: it
returns 1, and the list is `5, 1` by then. -/
theorem push_linearizable_snapshot : ∃ (s₀ s s₁ q : Sys) (tr tr₁ : List (Sys × Label)), Start s₀ ∧ Run Step s₀ tr s ∧
    Step s (.countHead 1) s₁ ∧ Run Step s₁ tr₁ q ∧ q.head = some 5 ∧ q.seen 1 = [1] ∧
    ∀ l q', Step q l q' → l.ends = some 1 → ∀ n, l = .countEnd 1 n → n = 1 := by
  let s₀ : Sys := ⟨Mem.empty.newBox 1 (.leaf 8), some 1, [], fun _ => .idle, [], [1], fun _ => [], fun _ => []⟩
  have h₀ : Start s₀ := ⟨⟨rfl, rfl⟩, by decide, rfl, fun _ => rfl⟩
  have r₁ := Run.snoc (Run.nil s₀) (Step.box 0 5 (.leaf 8) rfl rfl)
  have r₂ := r₁.snoc (Step.load 0 rfl)
  have r₃ := r₂.snoc (Step.store 0 rfl)
  have hst := (fun {s : Sys} {tr : List (Sys × Label)} (_ : Run Step s₀ tr s) (h : s.pc 1 = .idle) =>
    (Step.countHead 1 h : Step s (.countHead 1) _)) r₃ rfl
  have q₀ := (fun {s s₁ : Sys} (_ : Step s (.countHead 1) s₁) => (Run.nil s₁ : Run Step s₁ [] s₁)) hst
  have q₁ := q₀.snoc (Step.casOk 0 rfl rfl)
  have q₂ := q₁.snoc (Step.countNext 1 rfl)
  have hsnap := (push_linearizable s₀ _ _ h₀ r₃).2 1 _ _ _ _ hst rfl q₂
  refine ⟨s₀, _, _, _, _, _, h₀, r₃, hst, q₂, rfl, rfl, fun l q' hl hend n hn => ?_⟩
  refine ((hsnap fun e he => ?_).2.2.2 l q' hl hend).2 n hn
  simp only [List.nil_append, List.cons_append, List.mem_cons, List.not_mem_nil, or_false] at he
  rcases he with rfl | rfl <;> decide

end Abfall.Traverse
