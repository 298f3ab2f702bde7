import Abfall.Closure
/-!
# Sweeping: `Heap::do_sweep` (heap.rs:520-559) on the intrusive list

The sweep walks the list from `head` and unlinks through `prev_next`, a pointer to the field it last
came through: the heap's `head` at first, the `next` of the last survivor afterwards. `sweepLoop_spec`
says what the whole walk does to a null-terminated list: the White, unrooted objects are dropped in
list order, the others stay linked in their order and are White again, and nothing else is written.
-/
namespace Abfall
open Chain

/-- `prev_next: *const AtomicPtr<GcHeader>`. -/
inductive PrevNext
  | head
  | nextOf (a : Addr)
deriving DecidableEq, Repr

/-- `(*prev_next).store(next)` (heap.rs:536). -/
def St.storePrev (s : St) (prev : PrevNext) (nx : Option Addr) : St :=
  match prev with
  | .head => ⟨s.mem, s.heap.withHead nx⟩
  | .nextOf b => ⟨(s.mem.touch b).setNext b nx, s.heap⟩

/-- The `while !current.is_null()` loop, with a bound on its rounds and the `freed` sum. -/
def sweepLoop : Nat → St → Option Addr → PrevNext → Nat → Option (St × Nat)
  | _, s, none, _, freed => some (s, freed)
  | 0, _, some _, _, _ => none
  | fuel + 1, s, some a, prev, freed =>
    let s : St := ⟨s.mem.touch a, s.heap⟩
    let nx := s.mem.next a
    if s.mem.isWhite a then
      let s := s.storePrev prev nx
      sweepLoop fuel ⟨s.mem.drop a, s.heap⟩ nx prev (freed + (s.mem.data a).size)
    else
      sweepLoop fuel ⟨s.mem.setColor a .white, s.heap⟩ nx (.nextOf a) freed

/-- `do_sweep` (heap.rs:520): the new state and the bytes still allocated. -/
def St.doSweep (fuel : Nat) (s : St) : Option (St × Nat) :=
  let s : St := ⟨s.mem, s.heap.startSweeping⟩
  (sweepLoop fuel s s.heap.head .head 0).map fun r =>
    let allocated := r.1.heap.bytesAllocated - r.2
    (⟨r.1.mem, (r.1.heap.withBytes allocated).finishGc⟩, allocated)

/-- `sweep_and_finish` (heap.rs:415). -/
def St.sweepAndFinish (fuel : Nat) (s : St) : Option (St × Nat) :=
  (s.doSweep fuel).map fun r => (⟨r.1.mem, (r.1.heap.updateThreshold r.2).finishGc⟩, r.2)

/-! ## The walk over a well-formed list -/

/-- The heap's fields after a sweep that left `live` bytes. -/
@[simps] def Heap.afterSweep (h : Heap) (head' : Option Addr) (live : Nat) : Heap :=
  { h with
    head := head'
    bytesAllocated := live
    currentThreshold := h.options.calculateThreshold h.currentThreshold live
    phase := .idle }

theorem Mem.touch_of_alive {m : Mem} {a : Addr} (h : m.alive a = true) : m.touch a = m := by
  simp [Mem.touch, h]

/-- Bytes of the listed objects. -/
def sizeSum (m : Mem) (l : List Addr) : Nat := l.foldr (fun a n => (m.data a).size + n) 0

@[simp] theorem sizeSum_cons (m : Mem) (a : Addr) (l : List Addr) :
    sizeSum m (a :: l) = (m.data a).size + sizeSum m l := rfl

theorem sizeSum_congr {m m' : Mem} {l : List Addr} (h : ∀ a ∈ l, (m'.data a).size = (m.data a).size) :
    sizeSum m' l = sizeSum m l := by
  induction l with
  | nil => rfl
  | cons a l ih =>
    rw [sizeSum_cons, sizeSum_cons, h a (by simp), ih]
    intro x hx
    exact h x (by simp [hx])

theorem sizeSum_perm {m : Mem} {l l' : List Addr} (h : l.Perm l') : sizeSum m l = sizeSum m l' := by
  induction h with
  | nil => rfl
  | cons a _ ih => rw [sizeSum_cons, sizeSum_cons, ih]
  | swap a b l => simp only [sizeSum_cons]; omega
  | trans _ _ ih₁ ih₂ => exact ih₁.trans ih₂

/-- The objects of `l` a sweep drops, and those it keeps. -/
def dead (m : Mem) (l : List Addr) : List Addr := l.filter fun a => m.isWhite a

def kept (m : Mem) (l : List Addr) : List Addr := l.filter fun a => !m.isWhite a

theorem mem_dead {m : Mem} {l : List Addr} {a : Addr} :
    a ∈ dead m l ↔ a ∈ l ∧ m.color a = .white ∧ m.rootCount a = 0 := by
  simp [dead, Mem.isWhite, Mem.isRoot]

theorem mem_kept {m : Mem} {l : List Addr} {a : Addr} : a ∈ kept m l ↔ a ∈ l ∧ a ∉ dead m l := by
  simp only [kept, dead, List.mem_filter]
  grind

theorem sizeSum_split (m : Mem) (l : List Addr) :
    sizeSum m (dead m l) + sizeSum m (kept m l) = sizeSum m l := by
  induction l with
  | nil => rfl
  | cons a l ih =>
    simp only [dead, kept, List.filter_cons] at ih ⊢
    cases m.isWhite a <;> simp <;> omega

/-- What a sweep over `l` does to the memory and to `head`; `pre` are the survivors already behind
it. -/
structure Swept (m : Mem) (pre l : List Addr) (m' : Mem) (head' : Option Addr) : Prop where
  list : Seg m'.next head' (pre ++ kept m l) none
  alive : ∀ x, m'.alive x = (m.alive x && decide (x ∉ dead m l))
  color : ∀ x, m'.color x = if x ∈ kept m l then .white else m.color x
  rootCount : m'.rootCount = m.rootCount
  data : m'.data = m.data
  dropped : m'.dropped = (dead m l).reverse ++ m.dropped
  fault : m'.fault = m.fault

/-- `prev_next` points at the field that holds the rest of the list. -/
def PrevOk (pre : List Addr) : PrevNext → Prop
  | .head => pre = []
  | .nextOf b => ∃ pre', pre = pre' ++ [b]

/-- The nodes of a list from which `a` was unlinked. -/
theorem mem_unlink {pre l : List Addr} {a : Addr} (ha : a ∉ pre ++ l) (x : Addr) :
    x ∈ pre ++ l ↔ x ≠ a ∧ x ∈ pre ++ a :: l := by
  by_cases hx : x = a
  · subst hx
    simp [ha]
  · simp [hx]

/-- Unlinking the object the walk stands at. -/
theorem storePrev_unlink {s : St} {pre l : List Addr} {a : Addr} {prev : PrevNext}
    (hprev : PrevOk pre prev) (hl : Seg s.mem.next s.heap.head (pre ++ a :: l) none)
    (ha : ∀ x ∈ pre, s.mem.alive x = true) :
    ∃ nx' hd', s.storePrev prev (s.mem.next a) =
        ⟨{ s.mem with next := nx' }, s.heap.withHead hd'⟩ ∧ Seg nx' hd' (pre ++ l) none ∧
      Seg nx' (s.mem.next a) l none := by
  cases prev with
  | head =>
    obtain rfl : pre = [] := hprev
    exact ⟨s.mem.next, s.mem.next a, rfl, hl.2, hl.2⟩
  | nextOf b =>
    obtain ⟨pre', rfl⟩ := hprev
    have hb : s.mem.alive b = true := ha b (by simp)
    refine ⟨Function.update s.mem.next b (s.mem.next a), s.heap.head, ?_, seg_unlink hl⟩
    simp only [St.storePrev, Mem.touch_of_alive hb]
    rfl

/-- The walk drops `a` and goes on with `l`. -/
theorem Swept.drop {m m' : Mem} {pre l : List Addr} {a : Addr} {nx : Addr → Option Addr} {hd : Option Addr}
    (hw : m.isWhite a = true) (h : Swept (({ m with next := nx } : Mem).drop a) pre l m' hd) :
    Swept m pre (a :: l) m' hd := by
  have hdead : dead m (a :: l) = a :: dead m l := by simp [dead, hw]
  have hkept : kept m (a :: l) = kept m l := by simp [kept, hw]
  refine ⟨?_, fun x => ?_, ?_, h.rootCount, h.data, ?_, h.fault⟩
  · rw [hkept]; exact h.list
  · rw [h.alive x, hdead]
    exact Mem.drop_alive_and _ a (dead m l) x
  · rw [hkept]; exact h.color
  · rw [h.dropped, hdead]
    show (dead m l).reverse ++ a :: m.dropped = _
    simp

/-- Resetting `a` changes nothing for the rest of the walk. -/
theorem isWhite_reset {m : Mem} {a : Addr} {l : List Addr} (ha : a ∉ l) :
    ∀ x ∈ l, (m.setColor a .white).isWhite x = m.isWhite x := by
  intro x hx
  have hxa : x ≠ a := by rintro rfl; exact ha hx
  simp only [Mem.isWhite, Mem.setColor_color, hxa, if_false]
  rfl

theorem dead_reset {m : Mem} {a : Addr} {l : List Addr} (ha : a ∉ l) : dead (m.setColor a .white) l = dead m l :=
  List.filter_congr (isWhite_reset ha)

theorem kept_reset {m : Mem} {a : Addr} {l : List Addr} (ha : a ∉ l) : kept (m.setColor a .white) l = kept m l :=
  List.filter_congr fun x hx => by rw [isWhite_reset ha x hx]

/-- The walk keeps `a`, makes it White again and goes on with `l`. -/
theorem Swept.keep {m m' : Mem} {pre l : List Addr} {a : Addr} {hd : Option Addr} (hw : ¬ m.isWhite a = true)
    (ha : a ∉ l) (h : Swept (m.setColor a .white) (pre ++ [a]) l m' hd) : Swept m pre (a :: l) m' hd := by
  have hdead : dead m (a :: l) = dead m l := by simp [dead, hw]
  have hkept : kept m (a :: l) = a :: kept m l := by simp [kept, hw]
  obtain ⟨hlist, hall, hcol, hrc, hdata, hdr, hfl⟩ := h
  rw [kept_reset ha] at hlist
  simp only [kept_reset ha] at hcol
  simp only [dead_reset ha] at hall
  rw [dead_reset ha] at hdr
  refine ⟨?_, ?_, fun x => ?_, hrc, hdata, ?_, hfl⟩
  · rw [hkept]; simpa using hlist
  · rw [hdead]; exact hall
  · rw [hcol x, hkept]
    simp only [Mem.setColor_color, List.mem_cons]
    by_cases hx : x = a <;> simp [hx]
  · rw [hdead]; exact hdr

/-- **The sweep's walk.** Induction over what is left of the list. -/
theorem sweepLoop_spec : ∀ (l : List Addr) (fuel : Nat) (s : St) (pre : List Addr) (p : Option Addr)
    (prev : PrevNext) (freed : Nat), PrevOk pre prev → Seg s.mem.next s.heap.head (pre ++ l) none →
    Seg s.mem.next p l none → (∀ x ∈ pre ++ l, s.mem.alive x = true) →
    (fuel < l.length → sweepLoop fuel s p prev freed = none) ∧
    (l.length ≤ fuel → ∃ m' hd', Swept s.mem pre l m' hd' ∧ sweepLoop fuel s p prev freed =
      some (⟨m', s.heap.withHead hd'⟩, freed + sizeSum s.mem (dead s.mem l)))
  | [], fuel, s, pre, p, prev, freed, _, hl, hp, _ => by
    obtain rfl : p = none := hp
    refine ⟨fun h => absurd h (Nat.not_lt_zero _), fun _ => ⟨s.mem, s.heap.head, ?_, by
      simp [sweepLoop, dead, sizeSum]; rfl⟩⟩
    exact ⟨by simpa [kept] using hl, by simp [dead], by simp [kept], rfl, rfl, by simp [dead], rfl⟩
  | a :: l, 0, s, pre, p, prev, freed, _, _, hp, _ => by
    obtain rfl : p = some a := hp.1
    exact ⟨fun _ => by simp [sweepLoop], fun h => absurd h (by simp)⟩
  | a :: l, fuel + 1, s, pre, p, prev, freed, hprev, hl, hp, ha => by
    obtain ⟨rfl, hp⟩ := hp
    have haa : s.mem.alive a = true := ha a (by simp)
    have hna : a ∉ pre ++ l := (seg_middle hl).1
    simp only [sweepLoop, Mem.touch_of_alive haa, List.length_cons, Nat.add_lt_add_iff_right,
      Nat.add_le_add_iff_right]
    split
    · rename_i hw
      -- dropped: the rest of the walk is over the list without `a`
      obtain ⟨nx', hd', e, hl', hseg⟩ := storePrev_unlink hprev hl fun x hx => ha x (by simp [hx])
      rw [e]
      have hlive : ∀ x ∈ pre ++ l, (({ s.mem with next := nx' } : Mem).drop a).alive x = true := by
        intro x hx
        obtain ⟨hxa, hx⟩ := (mem_unlink hna x).1 hx
        exact Mem.drop_alive.2 ⟨hxa, ha x hx⟩
      obtain ⟨ih1, ih2⟩ := sweepLoop_spec l fuel
        ⟨({ s.mem with next := nx' } : Mem).drop a, s.heap.withHead hd'⟩ pre (s.mem.next a) prev
        (freed + (s.mem.data a).size) hprev hl' hseg hlive
      refine ⟨ih1, fun hf => ?_⟩
      obtain ⟨m', hd'', h, hrun⟩ := ih2 hf
      refine ⟨m', hd'', h.drop hw, ?_⟩
      have hdead : dead s.mem (a :: l) = a :: dead s.mem l := by simp [dead, hw]
      have e2 : freed + (s.mem.data a).size + sizeSum s.mem (dead s.mem l) =
          freed + sizeSum s.mem (a :: dead s.mem l) := by
        rw [sizeSum_cons]
        omega
      rw [hrun, hdead]
      exact congrArg (fun n => some (_, n)) e2
    · rename_i hw
      -- kept: `a` is White again, and `prev_next` points into it from now on
      have hal : a ∉ l := fun h => hna (by simp [h])
      have happ : pre ++ a :: l = (pre ++ [a]) ++ l := by simp
      obtain ⟨ih1, ih2⟩ := sweepLoop_spec l fuel ⟨s.mem.setColor a .white, s.heap⟩ (pre ++ [a])
        (s.mem.next a) (.nextOf a) freed ⟨pre, rfl⟩ (by rw [← happ]; exact hl) hp (by rw [← happ]; exact ha)
      refine ⟨ih1, fun hf => ?_⟩
      obtain ⟨m', hd', h, hrun⟩ := ih2 hf
      refine ⟨m', hd', h.keep hw hal, ?_⟩
      have hdead : dead s.mem (a :: l) = dead s.mem l := by simp [dead, hw]
      rw [hrun, dead_reset hal, hdead]
      rfl

/-- **`do_sweep`** on a well-formed list of allocated objects: it ends, drops the White unrooted
objects, gives the others back White, and leaves the phase Idle. -/
theorem doSweep_spec {s : St} {l : List Addr} (hl : Seg s.mem.next s.heap.head l none)
    (ha : ∀ x ∈ l, s.mem.alive x = true) (fuel : Nat) :
    (fuel < l.length → s.doSweep fuel = none) ∧
    (l.length ≤ fuel → ∃ m' hd' live, Swept s.mem [] l m' hd' ∧
      live = s.heap.bytesAllocated - sizeSum s.mem (dead s.mem l) ∧
      s.doSweep fuel = some (⟨m', ((s.heap.withHead hd').withBytes live).withPhase .idle⟩, live)) := by
  obtain ⟨h1, h2⟩ := sweepLoop_spec l fuel ⟨s.mem, s.heap.startSweeping⟩ [] s.heap.head .head 0 rfl hl hl ha
  have hhead : s.heap.startSweeping.head = s.heap.head := rfl
  refine ⟨fun hf => ?_, fun hf => ?_⟩
  · simp only [St.doSweep]
    rw [hhead, h1 hf]
    rfl
  · obtain ⟨m', hd', h, hrun⟩ := h2 hf
    refine ⟨m', hd', _, h, rfl, ?_⟩
    simp only [St.doSweep]
    rw [hhead, hrun, Nat.zero_add]
    rfl

/-- **`sweep_and_finish`** also moves the threshold. -/
theorem sweepAndFinish_spec {s : St} {l : List Addr} (hl : Seg s.mem.next s.heap.head l none)
    (ha : ∀ x ∈ l, s.mem.alive x = true) (fuel : Nat) :
    (fuel < l.length → s.sweepAndFinish fuel = none) ∧
    (l.length ≤ fuel → ∃ m' hd' live, Swept s.mem [] l m' hd' ∧
      live = s.heap.bytesAllocated - sizeSum s.mem (dead s.mem l) ∧
      s.sweepAndFinish fuel = some (⟨m', s.heap.afterSweep hd' live⟩, live)) := by
  obtain ⟨h1, h2⟩ := doSweep_spec hl ha fuel
  refine ⟨fun hf => by simp [St.sweepAndFinish, h1 hf], fun hf => ?_⟩
  obtain ⟨m', hd', live, h, hlive, hrun⟩ := h2 hf
  exact ⟨m', hd', live, h, hlive, by rw [St.sweepAndFinish, hrun]; rfl⟩

/-- What a sweep that ended has done. -/
theorem sweepAndFinish_some {s s' : St} {l : List Addr} {fuel live : Nat}
    (hl : Seg s.mem.next s.heap.head l none) (ha : ∀ x ∈ l, s.mem.alive x = true)
    (h : s.sweepAndFinish fuel = some (s', live)) :
    Swept s.mem [] l s'.mem s'.heap.head ∧ live = s.heap.bytesAllocated - sizeSum s.mem (dead s.mem l) ∧
      s'.heap = s.heap.afterSweep s'.heap.head live := by
  obtain ⟨hno, hyes⟩ := sweepAndFinish_spec hl ha fuel
  by_cases hf : fuel < l.length
  · rw [hno hf] at h; cases h
  · obtain ⟨m', hd', live', hsw, hlive, e⟩ := hyes (by omega)
    rw [e] at h
    cases h
    exact ⟨hsw, hlive, rfl⟩

/-- Whatever the list looks like, the walk writes no field of the heap but `head`. -/
theorem sweepLoop_heap : ∀ (fuel : Nat) (s : St) (cur : Option Addr) (prev : PrevNext) (freed : Nat) (r : St × Nat),
    sweepLoop fuel s cur prev freed = some r → r.1.heap = s.heap.withHead r.1.heap.head
  | fuel, s, none, _, _, r, h => by
    cases fuel <;> cases h <;> rfl
  | 0, _, some _, _, _, _, h => by cases h
  | fuel + 1, s, some a, prev, freed, r, h => by
    simp only [sweepLoop] at h
    split at h
    · have ih := sweepLoop_heap fuel _ _ _ _ r h
      cases prev <;> exact ih
    · have ih := sweepLoop_heap fuel _ _ _ _ r h
      exact ih

theorem sweepAndFinish_heap {s s' : St} {fuel live : Nat} (h : s.sweepAndFinish fuel = some (s', live)) :
    s'.heap = s.heap.afterSweep s'.heap.head live := by
  simp only [St.sweepAndFinish, St.doSweep, Option.map_map, Option.map_eq_some_iff] at h
  obtain ⟨r, hr, e⟩ := h
  have hh := sweepLoop_heap _ _ _ _ _ r hr
  cases e
  simp only
  rw [hh]
  rfl

/-- Where the sweep's `prev_next` points to: `head`, or a field of an object of `S`. -/
def PrevIn (S : Addr → Prop) : PrevNext → Prop
  | .head => True
  | .nextOf b => S b

/-- A sweep writes the links of its own list only. -/
theorem sweepLoop_outside {S : Addr → Prop} (fuel : Nat) :
    ∀ (s : St) (cur : Option Addr) (prev : PrevNext) (freed : Nat) (r : St × Nat),
      (∀ a b, S a → s.mem.next a = some b → S b) → (∀ a, cur = some a → S a) → PrevIn S prev →
      sweepLoop fuel s cur prev freed = some r → ∀ x, ¬ S x → r.1.mem.next x = s.mem.next x := by
  induction fuel with
  | zero =>
    intro s cur prev freed r _ _ _ hr x _
    cases cur with
    | none => cases hr; rfl
    | some a => cases hr
  | succ fuel ih =>
    intro s cur prev freed r hcl hcur hprev hr x hx
    cases cur with
    | none => cases hr; rfl
    | some a =>
      have hnx : ∀ b, s.mem.next a = some b → S b := fun b hb => hcl a b (hcur a rfl) hb
      simp only [sweepLoop] at hr
      split at hr
      · -- unlinked through `prev`: a field of the list's own objects, if not `head`
        cases prev with
        | head =>
          refine (ih _ _ .head _ r ?_ hnx trivial hr x hx).trans rfl
          exact hcl
        | nextOf b =>
          have hxb : x ≠ b := by rintro rfl; exact hx hprev
          refine (ih _ _ (.nextOf b) _ r (fun y z hy hz => ?_) hnx hprev hr x hx).trans (Function.update_of_ne hxb _ _)
          change Function.update s.mem.next b (s.mem.next a) y = some z at hz
          by_cases hyb : y = b
          · rw [hyb, Function.update_self] at hz
            exact hnx z hz
          · rw [Function.update_of_ne hyb] at hz
            exact hcl y z hy hz
      · exact ih ⟨(s.mem.touch a).setColor a .white, s.heap⟩ _ (.nextOf a) _ r hcl hnx (hcur a rfl) hr x hx

theorem sweepAndFinish_outside {s s' : St} {l : List Addr} {fuel live : Nat} (hl : Seg s.mem.next s.heap.head l none)
    (h : s.sweepAndFinish fuel = some (s', live)) : ∀ x ∉ l, s'.mem.next x = s.mem.next x := by
  simp only [St.sweepAndFinish, St.doSweep, Option.map_map, Option.map_eq_some_iff] at h
  obtain ⟨r, hr, he⟩ := h
  have hhead : ∀ a, s.heap.head = some a → a ∈ l := by
    intro a ha
    rw [ha] at hl
    obtain ⟨_, rfl, _⟩ := seg_head hl
    simp
  have := sweepLoop_outside (S := (· ∈ l)) fuel ⟨s.mem, s.heap.startSweeping⟩ _ .head 0 r
    (fun a b ha hb => seg_closed hl a ha b hb) hhead trivial hr
  cases he
  exact this

/-- **`do_sweep` filters the list.** From any null-terminated list of allocated objects, whatever their
colors and root counts, and a byte count that covers it, the sweep takes exactly one round for each
object and calls the destructors of the White unrooted ones, once each and in list order. `head` and
the `next` pointers then form the list of the others in their old order, all White; no root count is
written and no header is touched after its destructor. The returned bytes are exact: nothing
underflows. -/
theorem doSweep_filters (s : St) (l : List Addr) (hl : Seg s.mem.next s.heap.head l none)
    (ha : ∀ x ∈ l, s.mem.alive x = true) (hb : sizeSum s.mem l ≤ s.heap.bytesAllocated) (fuel : Nat) :
    (fuel < l.length → s.doSweep fuel = none) ∧
    (l.length ≤ fuel → ∃ s' live, s.doSweep fuel = some (s', live) ∧
      s'.mem.fault = s.mem.fault ∧
      s'.mem.dropped = (dead s.mem l).reverse ++ s.mem.dropped ∧ (dead s.mem l).Nodup ∧
      Seg s'.mem.next s'.heap.head (kept s.mem l) none ∧
      (∀ x ∈ kept s.mem l, s'.mem.alive x = true ∧ s'.mem.color x = .white) ∧
      s'.mem.rootCount = s.mem.rootCount ∧ s'.mem.data = s.mem.data ∧
      live + sizeSum s.mem (dead s.mem l) = s.heap.bytesAllocated ∧ s'.heap.bytesAllocated = live ∧
      s'.heap.phase = .idle) := by
  obtain ⟨hno, hyes⟩ := doSweep_spec hl ha fuel
  refine ⟨hno, fun hf => ?_⟩
  obtain ⟨m', hd', live, hsw, hlive, e⟩ := hyes hf
  refine ⟨_, live, e, hsw.fault, hsw.dropped, (seg_nodup hl).filter _, by simpa using hsw.list, fun x hx => ?_,
    hsw.rootCount, hsw.data, ?_, rfl, rfl⟩
  · obtain ⟨hxl, hnd⟩ := mem_kept.1 hx
    exact ⟨by simp [hsw.alive x, ha x hxl, hnd], by simp [hsw.color x, hx]⟩
  · have hsplit := sizeSum_split s.mem l
    omega

/-- The list `4, 3, 2, 1` with `4` and `2` White and unrooted, `3` rooted and `1` Black: freed at the
front and in the middle, kept for its root and for its color. -/
theorem doSweep_filters_four : ∃ s s' : St, s.doSweep 4 = some (s', 40) ∧ s'.mem.dropped = [2, 4] ∧
    Seg s'.mem.next s'.heap.head [3, 1] none ∧ s'.mem.fault = false := by
  have hd : ∃ m : Mem, m.fault = false ∧ m.dropped = [] ∧ m.next = (fun a => if a ≤ 1 then none else some (a - 1)) ∧
      m.alive = (fun a => decide (a ≤ 4)) ∧ m.color = (fun a => if a = 1 then .black else .white) ∧
      m.rootCount = (fun a => if a = 3 then 1 else 0) ∧ m.data = fun a => .leaf (10 * a) :=
    ⟨⟨fun a => decide (a ≤ 4), _, _, _, _, _, _⟩, rfl, rfl, rfl, rfl, rfl, rfl, rfl⟩
  obtain ⟨m, hf, hdr, hnx, hal, hc, hr, hda⟩ := hd
  have hl : Seg m.next (some 4) [4, 3, 2, 1] none := by rw [hnx]; exact ⟨rfl, rfl, rfl, rfl, rfl⟩
  have hdead : dead m [4, 3, 2, 1] = [4, 2] := by simp [dead, Mem.isWhite, Mem.isRoot, hc, hr]
  have hkept : kept m [4, 3, 2, 1] = [3, 1] := by simp [kept, Mem.isWhite, Mem.isRoot, hc, hr]
  have hsum : sizeSum m [4, 2] = 60 := by simp [sizeSum, hda, Data.leaf]
  obtain ⟨s', live, e, hf', hdr', _, hseg, _, _, _, hlive, _⟩ :=
    (doSweep_filters ⟨m, ((Heap.withOptions .off).withHead (some 4)).withBytes 100⟩ [4, 3, 2, 1] hl
      (by simp [hal]) (by simp [sizeSum, hda, Data.leaf]) 4).2 (by decide)
  simp only [hdead, hsum, Heap.withBytes_bytesAllocated] at hlive
  obtain rfl : live = 40 := by omega
  exact ⟨_, s', e, by simp [hdr', hdead, hdr], by rw [← hkept]; exact hseg, hf'.trans hf⟩

end Abfall
