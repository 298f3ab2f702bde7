import Abfall.Budget
import Mathlib.Data.List.Sigma
/-!
# The `Trace` impls of the crate (trace.rs:107-238, ptr.rs:146, cell.rs:68)

| here | there |
| --- | --- |
| `NoTraceTy`           | the types of `impl_no_trace!` (`trace.rs:125-147`) |
| `DerefTy`, `IterTy`, `MapTy` | those of `impl_trace_deref!`, `impl_trace_iterable!`, `impl_trace_map!` |
| `Ty`, `Ty.noTrace`    | a type built from the impls, and its `NO_TRACE` |
| `Ty.Val`              | its values; a collection is the list of its items in iteration order |
| `trace`               | `Trace::trace`: the calls of `Tracer::mark` it makes, in order |
| `mark`, `traceObject` | `Tracer::mark` and the vtable's `trace` (`trace.rs:60-71`, `gc_box.rs:33-71`), with the two `NO_TRACE` fast paths or without |

`ptrAt` says what a value *contains*, independently of how it is traced: the `GcPtr` at the end of a path of
selectors, if there is one. `trace_exact` compares the two by induction over the type.

A `GcPtr<T>` decides by its own `T::NO_TRACE`, the vtable by that of the object it points to. On a heap
where pointers have the types of their objects the two are the same, and marking with the fast paths
ends with the same Black objects as marking without them (`trace_impls_complete`): an object of a `NO_TRACE`
type has no pointers, so it does not matter when it is made Black.
-/
namespace Abfall.TraceImpls
open Chain

/-! ## Types and values -/

inductive NoTraceTy
  | unit | i8 | i16 | i32 | i64 | i128 | isize | u8 | u16 | u32 | u64 | u128 | usize
  | f32 | f64 | bool | char | string | str | infallible | phantomData
deriving DecidableEq, Repr

def NoTraceTy.Val : NoTraceTy → Type
  | unit => Unit
  | i8 => Int8
  | i16 => Int16
  | i32 => Int32
  | i64 => Int64
  | i128 => BitVec 128
  | isize => ISize
  | u8 => UInt8
  | u16 => UInt16
  | u32 => UInt32
  | u64 => UInt64
  | u128 => BitVec 128
  | usize => USize
  | f32 => Float32
  | f64 => Float
  | bool => Bool
  | char => Char
  | string => String
  | str => String
  | infallible => Empty
  | phantomData => Unit

inductive DerefTy
  | box | rc | arc
deriving DecidableEq, Repr

inductive IterTy
  | vec | vecDeque | hashSet | btreeSet
deriving DecidableEq, Repr

inductive MapTy
  | hashMap | btreeMap
deriving DecidableEq, Repr

inductive Ty
  | noTraceTy (b : NoTraceTy)
  | gcPtr (t : Ty)
  | gcCell (t : Ty)
  | deref (c : DerefTy) (t : Ty)
  | iterable (c : IterTy) (t : Ty)
  | array (t : Ty) (n : Nat)
  | map (c : MapTy) (k v : Ty)
  | option (t : Ty)
  | result (t e : Ty)
deriving DecidableEq, Repr

namespace Ty

/-- `NO_TRACE`. `GcPtr` and `GcCell` leave it at its default. -/
def noTrace : Ty → Bool
  | noTraceTy _ => true
  | gcPtr _ => false
  | gcCell _ => false
  | deref _ t => t.noTrace
  | iterable _ t => t.noTrace
  | array t _ => t.noTrace
  | map _ k v => k.noTrace && v.noTrace
  | option t => t.noTrace
  | result t e => t.noTrace && e.noTrace

def Val : Ty → Type
  | noTraceTy b => b.Val
  | gcPtr _ => Addr
  | gcCell t => t.Val
  | deref _ t => t.Val
  | iterable _ t => List t.Val
  | array t n => { l : List t.Val // l.length = n }
  | map _ k v => List (k.Val × v.Val)
  | option t => Option t.Val
  | result t e => Except e.Val t.Val

end Ty

/-! ## `Trace::trace` -/

/-- A call of `Tracer::mark::<T>`: `T` and the object pointed to. -/
structure MarkCall where
  ty : Ty
  addr : Addr
deriving DecidableEq, Repr

def trace : (t : Ty) → t.Val → List MarkCall
  | .noTraceTy _, _ => []
  | .gcPtr t, p => [⟨t, p⟩]
  | .gcCell t, v => trace t v
  | .deref _ t, v => trace t v
  | .iterable _ t, l => l.flatMap (trace t)
  | .array t _, l => l.val.flatMap (trace t)
  | .map _ k v, l => l.flatMap fun e => trace k e.1 ++ trace v e.2
  | .option _, none => []
  | .option t, some v => trace t v
  | .result t _, .ok v => trace t v
  | .result _ e, .error v => trace e v

/-! ## What a value contains -/

/-- One step into a value: the content of a cell, a box or a `Some`, an item of a collection, a side of a
map entry or of a `Result`. -/
inductive Sel
  | content
  | item (i : Nat)
  | key
  | value
  | ok
  | err
deriving DecidableEq, Repr

abbrev Path := List Sel

/-- Go on with `f` behind one selector. -/
def under {α : Type} (sel : Sel) (f : Path → Option α) : Path → Option α
  | [] => none
  | s :: π => if s = sel then f π else none

/-- Go on with `f` behind an item. -/
def underItem {α β : Type} (l : List β) (f : β → Path → Option α) : Path → Option α
  | .item i :: π => (l[i]?).bind fun v => f v π
  | _ => none

/-- The `GcPtr` at the end of a path, if the value has one there. -/
def ptrAt : (t : Ty) → t.Val → Path → Option MarkCall
  | .noTraceTy _, _ => fun _ => none
  | .gcPtr t, p => fun π => if π = [] then some ⟨t, p⟩ else none
  | .gcCell t, v => under .content (ptrAt t v)
  | .deref _ t, v => under .content (ptrAt t v)
  | .iterable _ t, l => underItem l (ptrAt t)
  | .array t _, l => underItem l.val (ptrAt t)
  | .map _ k v, l => underItem l fun e π => under .key (ptrAt k e.1) π <|> under .value (ptrAt v e.2) π
  | .option _, none => fun _ => none
  | .option t, some v => under .content (ptrAt t v)
  | .result t _, .ok v => under .ok (ptrAt t v)
  | .result _ e, .error v => under .err (ptrAt e v)

/-- The paths to `GcPtr`s are those of `πs`, each once, and `calls` are the pointers there. -/
structure Exactly (f : Path → Option MarkCall) (πs : List Path) (calls : List MarkCall) : Prop where
  nodup : πs.Nodup
  mem : ∀ π, π ∈ πs ↔ (f π).isSome = true
  calls : πs.map f = calls.map some

namespace Exactly
variable {f g : Path → Option MarkCall} {πs ρs : List Path} {cs ds : List MarkCall}

theorem nothing : Exactly (fun _ => none) [] [] := ⟨.nil, by simp, rfl⟩

theorem ptr (c : MarkCall) : Exactly (fun π => if π = [] then some c else none) [[]] [c] := by
  refine ⟨by simp, fun π => ?_, rfl⟩
  by_cases h : π = [] <;> simp [h]

theorem under (sel : Sel) (h : Exactly f πs cs) : Exactly (under sel f) (πs.map (sel :: ·)) cs := by
  refine ⟨h.nodup.map fun π ρ e => (List.cons.inj e).2, fun π => ?_, ?_⟩
  · cases π with
    | nil => simp [TraceImpls.under]
    | cons s π =>
      by_cases hs : s = sel
      · simp [TraceImpls.under, hs, h.mem]
      · have hs' : sel ≠ s := fun e => hs e.symm
        simp [TraceImpls.under, hs, hs']
  · rw [List.map_map, ← h.calls]
    refine List.map_congr_left fun π _ => ?_
    simp [TraceImpls.under]

/-- The two sides of a map entry. -/
theorem entry (h : Exactly f πs cs) (h' : Exactly g ρs ds) :
    Exactly (fun π => TraceImpls.under .key f π <|> TraceImpls.under .value g π)
      (πs.map (.key :: ·) ++ ρs.map (.value :: ·)) (cs ++ ds) := by
  have hk := h.under .key
  have hv := h'.under .value
  have hdis : ∀ π, TraceImpls.under .key f π = none ∨ TraceImpls.under .value g π = none := by
    intro π
    cases π with
    | nil => exact .inl rfl
    | cons s π =>
      by_cases hs : s = .key
      · exact .inr (by simp [TraceImpls.under, hs])
      · exact .inl (by simp [TraceImpls.under, hs])
  refine ⟨?_, fun π => ?_, ?_⟩
  · refine List.nodup_append.2 ⟨hk.nodup, hv.nodup, ?_⟩
    rintro π hπ ρ hρ rfl
    rw [hk.mem] at hπ
    rw [hv.mem] at hρ
    rcases hdis π with e | e
    · rw [e] at hπ; cases hπ
    · rw [e] at hρ; cases hρ
  · rw [List.mem_append, hk.mem, hv.mem]
    rcases hdis π with e | e <;> rw [e] <;> simp
  · rw [List.map_append, List.map_append, ← hk.calls, ← hv.calls]
    congr 1
    · refine List.map_congr_left fun π hπ => ?_
      rw [hk.mem] at hπ
      obtain ⟨c, hc⟩ := Option.isSome_iff_exists.1 hπ
      simp [hc]
    · refine List.map_congr_left fun π hπ => ?_
      rw [hv.mem] at hπ
      have hn : TraceImpls.under .key f π = none := (hdis π).resolve_right fun e => by rw [e] at hπ; cases hπ
      simp [hn]

/-- The items of a collection, in iteration order. -/
theorem items {β : Type} {f : β → Path → Option MarkCall} {cs : β → List MarkCall} (l : List β)
    (h : ∀ x, ∃ πs, Exactly (f x) πs (cs x)) : ∃ πs, Exactly (underItem l f) πs (l.flatMap cs) := by
  choose p hp using h
  have hitem : ∀ x ∈ l.zipIdx, ∀ π, underItem l f (.item x.2 :: π) = f x.1 π := by
    intro x hx π
    rw [List.mem_zipIdx_iff_getElem?] at hx
    simp [underItem, hx]
  refine ⟨l.zipIdx.flatMap fun x => (p x.1).map (.item x.2 :: ·), ?_, fun π => ?_, ?_⟩
  · refine List.nodup_flatMap.2 ⟨fun x _ => (hp x.1).nodup.map fun π ρ e => (List.cons.inj e).2, ?_⟩
    -- paths through different items differ in their first selector
    refine (List.pairwise_map.1 (List.nodup_zipIdx_map_snd l)).imp fun {x y} hxy => ?_
    rintro π hx hy
    obtain ⟨_, _, rfl⟩ := List.mem_map.1 hx
    obtain ⟨_, _, e⟩ := List.mem_map.1 hy
    exact hxy (Sel.item.inj (List.cons.inj e).1).symm
  · simp only [List.mem_flatMap, List.mem_map]
    constructor
    · rintro ⟨x, hx, ρ, hρ, rfl⟩
      rw [hitem x hx]
      exact ((hp x.1).mem ρ).1 hρ
    · intro hs
      unfold underItem at hs
      split at hs
      · rename_i i ρ
        obtain ⟨c, hc⟩ := Option.isSome_iff_exists.1 hs
        obtain ⟨v, hv, hc⟩ := Option.bind_eq_some_iff.1 hc
        exact ⟨(v, i), List.mem_zipIdx_iff_getElem?.2 hv, ρ, ((hp v).mem ρ).2 (by simp [hc]), rfl⟩
      · cases hs
  · have hl : l.flatMap cs = l.zipIdx.flatMap fun x => cs x.1 := by
      conv_lhs => rw [← List.zipIdx_map_fst 0 l, List.flatMap_map]
    rw [hl, List.map_flatMap, List.map_flatMap]
    refine List.flatMap_congr fun x hx => ?_
    rw [List.map_map, ← (hp x.1).calls]
    exact List.map_congr_left fun π _ => hitem x hx π

end Exactly

/-- Every `Trace::trace` marks the `GcPtr`s of its value, each as often as it occurs. -/
theorem trace_exact (t : Ty) (v : t.Val) : ∃ πs, Exactly (ptrAt t v) πs (trace t v) := by
  induction t with
  | noTraceTy b => exact ⟨[], .nothing⟩
  | gcPtr t => exact ⟨[[]], .ptr ⟨t, v⟩⟩
  | gcCell t ih =>
    obtain ⟨πs, h⟩ := ih v
    exact ⟨_, h.under .content⟩
  | deref c t ih =>
    obtain ⟨πs, h⟩ := ih v
    exact ⟨_, h.under .content⟩
  | iterable c t ih => exact Exactly.items v ih
  | array t n ih => exact Exactly.items v.val ih
  | map c k v' ihk ihv =>
    refine Exactly.items v fun e => ?_
    obtain ⟨πs, hk⟩ := ihk e.1
    obtain ⟨ρs, hv⟩ := ihv e.2
    exact ⟨_, hk.entry hv⟩
  | option t ih =>
    cases v with
    | none => exact ⟨[], .nothing⟩
    | some v =>
      obtain ⟨πs, h⟩ := ih v
      exact ⟨_, h.under .content⟩
  | result t e iht ihe =>
    cases v with
    | ok v =>
      obtain ⟨πs, h⟩ := iht v
      exact ⟨_, h.under .ok⟩
    | error v =>
      obtain ⟨πs, h⟩ := ihe v
      exact ⟨_, h.under .err⟩

/-! ## `NO_TRACE` -/

theorem trace_of_noTrace (t : Ty) (h : t.noTrace = true) (v : t.Val) : trace t v = [] := by
  induction t with
  | noTraceTy b => rfl
  | gcPtr t => cases h
  | gcCell t => cases h
  | deref c t ih => exact ih h v
  | iterable c t ih => exact List.flatMap_eq_nil_iff.2 fun x _ => ih h x
  | array t n ih => exact List.flatMap_eq_nil_iff.2 fun x _ => ih h x
  | map c k v' ihk ihv =>
    simp only [Ty.noTrace, Bool.and_eq_true] at h
    refine List.flatMap_eq_nil_iff.2 fun e _ => ?_
    rw [ihk h.1, ihv h.2]
    rfl
  | option t ih =>
    cases v with
    | none => rfl
    | some v => exact ih h v
  | result t e iht ihe =>
    simp only [Ty.noTrace, Bool.and_eq_true] at h
    cases v with
    | ok v => exact iht h.1 v
    | error v => exact ihe h.2 v

/-- A value of a `NO_TRACE` type holds no `GcPtr`. -/
theorem ptrAt_of_noTrace {t : Ty} (h : t.noTrace = true) (v : t.Val) (π : Path) : ptrAt t v π = none := by
  obtain ⟨πs, hex⟩ := trace_exact t v
  have hnil : πs = [] := by
    have hcalls := hex.calls
    rw [trace_of_noTrace t h v] at hcalls
    exact List.map_eq_nil_iff.1 hcalls
  have hmem := hex.mem π
  rw [hnil] at hmem
  cases hp : ptrAt t v π with
  | none => rfl
  | some c => simp [hp] at hmem

/-! ## Marking with and without the fast paths -/

/-- An object: its type and its value. -/
abbrev Obj := (t : Ty) × t.Val

section Marking
variable (fast : Bool) (obj : Addr → Obj)

/-- `Tracer::mark` (trace.rs:60); without its fast path it is `mark_header`. -/
def mark (m : Mem) (t : Tracer) (c : MarkCall) : Mem × Tracer :=
  if fast && c.ty.noTrace then ((m.touch c.addr).setColor c.addr .black, t) else m.markHeader t c.addr

def markEach : List MarkCall → Mem → Tracer → Mem × Tracer
  | [], m, t => (m, t)
  | c :: cs, m, t => markEach cs (mark fast m t c).1 (mark fast m t c).2

/-- `vtable.trace` (gc_box.rs:61-65): `trace_noop` or `trace_impl`. -/
def traceObject (m : Mem) (t : Tracer) (a : Addr) : Mem × Tracer :=
  if fast && (obj a).1.noTrace then (m, t) else markEach fast (trace (obj a).1 (obj a).2) m t

def processObject (m : Mem) (t : Tracer) (a : Addr) : Mem × Tracer :=
  let r := traceObject fast obj (m.touch a) t a
  (r.1.setColor a .black, r.2)

def doMarkLoop : Nat → St → Tracer → Nat → St × Tracer × Nat
  | 0, s, t, workDone => (s, t, workDone)
  | budget + 1, s, t, workDone =>
    match s.nextWork t with
    | none => (s, t, workDone)
    | some (p, s, t) =>
      let r := processObject fast obj s.mem t p
      doMarkLoop budget ⟨r.1, s.heap⟩ r.2 (workDone + 1)

def doMarkWithTracer (s : St) (t : Tracer) (workBudget : Nat) : St × Tracer × Nat :=
  let r := doMarkLoop fast obj workBudget s t 0
  if r.2.1 = [] then r else (r.1.mergeWork r.2.1, [], r.2.2)

def doMarkWorkFull : Nat → St → Tracer → Option St
  | 0, _, _ => none
  | fuel + 1, s, t =>
    let r := doMarkWithTracer fast obj s t s.heap.options.incrementalWorkBudget
    if 0 < r.2.2 ∨ 0 < r.1.heap.nBusyMarking then doMarkWorkFull fuel r.1 r.2.1 else some r.1

def doMarkIncremental (s : St) (workBudget : Nat) : St × Bool :=
  let r := doMarkWithTracer fast obj s [] workBudget
  (r.1, r.2.2 == 0)

/-- The marking loop of `background_gc_thread` (heap.rs:627-645). A stop abandons the phase, so it is left out. -/
def backgroundLoop : Nat → St → Option St
  | 0, _ => none
  | fuel + 1, s =>
    let r := doMarkIncremental fast obj s s.heap.options.incrementalWorkBudget
    if r.2 then
      if 0 < r.1.heap.nBusyMarking then backgroundLoop fuel r.1 else some r.1
    else backgroundLoop fuel r.1

/-- A whole marking phase, of `force_collect` or of the background thread. -/
def Phase (s s' : St) : Prop := ∃ fuel s₁, St.doMarkRoots fuel ⟨s.mem, s.heap.withPhase .marking⟩ [] = some s₁ ∧
  (doMarkWorkFull fast obj fuel s₁ [] = some s' ∨ backgroundLoop fast obj fuel s₁ = some s')

end Marking

/-! ## The untyped model -/

/-- The value of an object as the untyped model keeps it. Without the fast paths no type counts as
`NO_TRACE`. -/
def Obj.toData (fast : Bool) (size : Nat) (o : Obj) : Data where
  noTrace := fast && o.1.noTrace
  size := size
  cells := (trace o.1 o.2).map fun c => [c.addr]
  noTrace_cells := fun h => by
    rw [trace_of_noTrace o.1 (Bool.and_eq_true_iff.1 h).2 o.2]
    rfl

/-- The memory that holds these objects. -/
def memOf (fast : Bool) (obj : Addr → Obj) (m : Mem) : Mem :=
  { m with data := fun a => (obj a).toData fast (m.data a).size }

def stOf (fast : Bool) (obj : Addr → Obj) (s : St) : St := ⟨memOf fast obj s.mem, s.heap⟩

/-- A `GcPtr<T>` in an allocated object points to an allocated object of type `T`. -/
def WellTyped (obj : Addr → Obj) (m : Mem) : Prop :=
  ∀ a, m.alive a = true → ∀ c ∈ trace (obj a).1 (obj a).2, m.alive c.addr = true ∧ (obj c.addr).1 = c.ty

section Untyped
variable {fast : Bool} {obj : Addr → Obj}

theorem WellTyped.of_alive {m m' : Mem} (h : WellTyped obj m) (ha : m'.alive = m.alive) : WellTyped obj m' := by
  intro a hm c hc
  rw [ha] at hm ⊢
  exact h a hm c hc

theorem ptrs_memOf (m : Mem) (a : Addr) : (memOf fast obj m).ptrs a = (trace (obj a).1 (obj a).2).map (·.addr) := by
  show ((trace (obj a).1 (obj a).2).map fun c => [c.addr]).flatten = _
  induction trace (obj a).1 (obj a).2 with
  | nil => rfl
  | cons c cs ih => simp [ih]

theorem mark_memOf (m : Mem) (t : Tracer) {c : MarkCall} (hc : (obj c.addr).1 = c.ty) :
    (memOf fast obj m).mark t c.addr = (memOf fast obj (mark fast m t c).1, (mark fast m t c).2) := by
  have hn : ((memOf fast obj m).data c.addr).noTrace = (fast && c.ty.noTrace) := by rw [← hc]; rfl
  unfold Mem.mark mark
  rw [hn]
  split
  · rfl
  · unfold Mem.markHeader
    have hcol : (memOf fast obj m).color = m.color := rfl
    rw [hcol]
    split <;> rfl

theorem markEach_memOf (cs : List MarkCall) (m : Mem) (t : Tracer) (hc : ∀ c ∈ cs, (obj c.addr).1 = c.ty) :
    Mem.markAll (cs.map (·.addr)) (memOf fast obj m) t =
      (memOf fast obj (markEach fast cs m t).1, (markEach fast cs m t).2) := by
  induction cs generalizing m t with
  | nil => rfl
  | cons c cs ih =>
    simp only [List.map_cons, Mem.markAll, markEach, mark_memOf m t (hc c (by simp))]
    exact ih _ _ fun d hd => hc d (by simp [hd])

theorem processObject_memOf {m : Mem} (ht : WellTyped obj m) (t : Tracer) {a : Addr} (ha : m.alive a = true) :
    (memOf fast obj m).processObject t a =
      (memOf fast obj (processObject fast obj m t a).1, (processObject fast obj m t a).2) := by
  have htr : (memOf fast obj (m.touch a)).trace t a =
      (memOf fast obj (traceObject fast obj (m.touch a) t a).1, (traceObject fast obj (m.touch a) t a).2) := by
    unfold Mem.trace traceObject
    have hn : ((memOf fast obj (m.touch a)).data a).noTrace = (fast && (obj a).1.noTrace) := rfl
    rw [hn]
    split
    · rfl
    · rw [ptrs_memOf]
      exact markEach_memOf _ _ _ fun c hc => (ht a ha c hc).2
  show (((memOf fast obj (m.touch a)).trace t a).1.setColor a .black, ((memOf fast obj (m.touch a)).trace t a).2) = _
  rw [htr]
  rfl

theorem nextWork_stOf (s : St) (t : Tracer) :
    (stOf fast obj s).nextWork t = (s.nextWork t).map fun r => (r.1, stOf fast obj r.2.1, r.2.2) := by
  cases t with
  | cons p t => rfl
  | nil =>
    have hsteal : (stOf fast obj s).stealWork [] 8 = (s.stealWork [] 8).map fun r => (stOf fast obj r.1, r.2) := by
      simp only [St.stealWork, Option.map_map]
      rfl
    simp only [St.nextWork, hsteal]
    cases s.stealWork [] 8 with
    | none => rfl
    | some r =>
      obtain ⟨s', t'⟩ := r
      cases t' <;> rfl

/-- What the simulation needs of a state: pointers have the types of their objects, and only allocated objects
wait. -/
structure Typed (fast : Bool) (obj : Addr → Obj) (s : St) (t : Tracer) : Prop where
  types : WellTyped obj s.mem
  sane : Sane (memOf fast obj s.mem) (waiting t s.heap.grayQueue)

theorem Typed.of_same {s s' : St} {t t' : Tracer} (h : Typed fast obj s t)
    (hs : (memOf fast obj s.mem).SameObjects (memOf fast obj s'.mem))
    (hsane : Sane (memOf fast obj s'.mem) (waiting t' s'.heap.grayQueue)) : Typed fast obj s' t' := by
  have hal : s'.mem.alive = s.mem.alive := hs.alive
  exact ⟨h.types.of_alive hal, hsane⟩

theorem doMarkLoop_stOf (b : Nat) {s : St} {t : Tracer} (n : Nat) (h : Typed fast obj s t) :
    Abfall.doMarkLoop b (stOf fast obj s) t n =
      (stOf fast obj (doMarkLoop fast obj b s t n).1, (doMarkLoop fast obj b s t n).2) := by
  induction b generalizing s t n with
  | zero => rfl
  | succ b ih =>
    simp only [Abfall.doMarkLoop, doMarkLoop, nextWork_stOf]
    cases hw : s.nextWork t with
    | none => rfl
    | some r =>
      obtain ⟨p, ⟨m', h'⟩, t'⟩ := r
      obtain ⟨hm, _, hperm⟩ := St.nextWork_some hw
      change m' = s.mem at hm
      subst hm
      have hsane := h.sane
      rw [waiting_of_perm hperm] at hsane
      have hp : (memOf fast obj s.mem).processObject t' p =
          (memOf fast obj (processObject fast obj s.mem t' p).1, (processObject fast obj s.mem t' p).2) :=
        processObject_memOf h.types t' (hsane.waits p (Set.mem_insert p _))
      have hnext : Typed fast obj ⟨(processObject fast obj s.mem t' p).1, h'⟩
          (processObject fast obj s.mem t' p).2 := by
        have hsame := (memOf fast obj s.mem).processObject_same t' p
        have hkeep := sane_process _ t' h'.grayQueue p hsane
        rw [hp] at hsame hkeep
        exact h.of_same hsame hkeep
      simp only [Option.map_some]
      show Abfall.doMarkLoop b ⟨((memOf fast obj s.mem).processObject t' p).1, h'⟩
        ((memOf fast obj s.mem).processObject t' p).2 (n + 1) = _
      rw [hp]
      exact ih (n + 1) hnext

theorem doMarkWithTracer_stOf {s : St} {t : Tracer} (h : Typed fast obj s t) (b : Nat) :
    (stOf fast obj s).doMarkWithTracer t b =
      (stOf fast obj (doMarkWithTracer fast obj s t b).1, (doMarkWithTracer fast obj s t b).2) := by
  simp only [St.doMarkWithTracer, doMarkWithTracer, doMarkLoop_stOf b 0 h]
  split <;> rfl

theorem doMarkWithTracer_tracer (s : St) (t : Tracer) (b : Nat) : (doMarkWithTracer fast obj s t b).2.1 = [] := by
  unfold doMarkWithTracer
  by_cases h : (doMarkLoop fast obj b s t 0).2.1 = [] <;> simp [h]

theorem Typed.doMark {s : St} {t : Tracer} (h : Typed fast obj s t) (b : Nat) :
    Typed fast obj (doMarkWithTracer fast obj s t b).1 [] := by
  have hsame := doMarkWithTracer_same (stOf fast obj s) t b
  have hsane := (stOf fast obj s).doMarkWithTracer_rule sane_process b h.sane
  rw [doMarkWithTracer_stOf h] at hsame hsane
  exact h.of_same hsame hsane

theorem doMarkWorkFull_stOf (fuel : Nat) {s : St} {t : Tracer} (h : Typed fast obj s t) :
    Abfall.doMarkWorkFull fuel (stOf fast obj s) t = (doMarkWorkFull fast obj fuel s t).map (stOf fast obj) := by
  induction fuel generalizing s t with
  | zero => rfl
  | succ fuel ih =>
    have hopt : (stOf fast obj s).heap = s.heap := rfl
    have hheap : (stOf fast obj (doMarkWithTracer fast obj s t s.heap.options.incrementalWorkBudget).1).heap =
      (doMarkWithTracer fast obj s t s.heap.options.incrementalWorkBudget).1.heap := rfl
    have hnext := h.doMark s.heap.options.incrementalWorkBudget
    simp only [Abfall.doMarkWorkFull, doMarkWorkFull, hopt, doMarkWithTracer_stOf h, hheap, doMarkWithTracer_tracer]
    split
    · exact ih hnext
    · rfl

/-- The background thread's loop is the loop of `do_mark_work_full`, whose tracer is empty between two calls. -/
theorem backgroundLoop_eq (fuel : Nat) (s : St) :
    backgroundLoop fast obj fuel s = doMarkWorkFull fast obj fuel s [] := by
  induction fuel generalizing s with
  | zero => rfl
  | succ fuel ih =>
    simp only [backgroundLoop, doMarkWorkFull, doMarkIncremental, doMarkWithTracer_tracer, beq_iff_eq]
    by_cases hw : (doMarkWithTracer fast obj s [] s.heap.options.incrementalWorkBudget).2.2 = 0
    · simp only [hw, ↓reduceIte, Nat.lt_irrefl, false_or, ih]
    · have hpos : 0 < (doMarkWithTracer fast obj s [] s.heap.options.incrementalWorkBudget).2.2 := Nat.pos_of_ne_zero hw
      simp only [hw, ↓reduceIte, hpos, true_or]
      exact ih _

variable (fast obj) in
theorem markRootsLoop_memOf (fuel : Nat) (m : Mem) (t : Tracer) (p : Option Addr) :
    markRootsLoop fuel (memOf fast obj m) t p =
      (markRootsLoop fuel m t p).map fun r => (memOf fast obj r.1, r.2) := by
  induction fuel generalizing m t p with
  | zero => cases p <;> rfl
  | succ fuel ih =>
    cases p with
    | none => rfl
    | some a =>
      have hscan : (memOf fast obj m).scanRoot t a = (memOf fast obj (m.scanRoot t a).1, (m.scanRoot t a).2) := by
        unfold Mem.scanRoot Mem.markHeader
        show (if m.isRoot a then if m.color a = .white then _ else _ else _) = _
        split
        · split <;> rfl
        · rfl
      simp only [markRootsLoop, hscan]
      exact ih _ _ _

variable (fast obj) in
theorem doMarkRoots_stOf (fuel : Nat) (s : St) (t : Tracer) :
    (stOf fast obj s).doMarkRoots fuel t = (s.doMarkRoots fuel t).map (stOf fast obj) := by
  have h := markRootsLoop_memOf fast obj fuel s.mem t s.heap.head
  simp only [St.doMarkRoots, Option.map_map]
  show (markRootsLoop fuel (memOf fast obj s.mem) t s.heap.head).map _ = _
  rw [h, Option.map_map]
  rfl

end Untyped

/-! ## The Black objects -/

/-- A heap of such objects before a marking phase: White, with nothing queued and nobody else marking. -/
structure Ready (obj : Addr → Obj) (s : St) : Prop where
  types : WellTyped obj s.mem
  listed : ∃ l, Listed s l
  noFault : s.mem.fault = false
  idle : s.heap.phase = .idle
  busy : s.heap.nBusyMarking = 0
  white : ∀ a, s.mem.alive a = true → s.mem.color a = .white
  queue : s.heap.grayQueue = []

theorem listed_stOf {fast : Bool} {obj : Addr → Obj} {s : St} {l : List Addr} (h : Listed s l) :
    Listed (stOf fast obj s) l := by
  refine ⟨h.seg, h.alive, h.bytes.trans ?_⟩
  exact (sizeSum_congr fun a _ => rfl : sizeSum (memOf fast obj s.mem) l = sizeSum s.mem l).symm

theorem Ready.quiet {obj : Addr → Obj} {s : St} (h : Ready obj s) (fast : Bool) : Quiet (stOf fast obj s) := by
  obtain ⟨l, hl⟩ := h.listed
  refine ⟨⟨⟨l, listed_stOf hl⟩, h.noFault, fun x hx => ?_, fun a b ha he => ?_⟩, h.idle, h.busy, h.white, h.queue⟩
  · have hq : (stOf fast obj s).heap.grayQueue = [] := h.queue
    rw [hq] at hx
    rcases hx with hx | hx <;> cases hx
  · change b ∈ (memOf fast obj s.mem).ptrs a at he
    rw [ptrs_memOf] at he
    obtain ⟨c, hc, rfl⟩ := List.mem_map.1 he
    exact (h.types a ha c hc).1

section Phase
variable {fast : Bool} {obj : Addr → Obj} {s : St} (h : Ready obj s)
include h

/-- The root scan is the untyped model's, and marking starts from a typed state. -/
theorem Ready.scan {fuel : Nat} {s₁ : St} (h₁ : St.doMarkRoots fuel ⟨s.mem, s.heap.withPhase .marking⟩ [] = some s₁) :
    St.doMarkRoots fuel ⟨(stOf fast obj s).mem, (stOf fast obj s).heap.withPhase .marking⟩ [] =
      some (stOf fast obj s₁) ∧ Typed fast obj s₁ [] := by
  have hroots := doMarkRoots_stOf fast obj fuel ⟨s.mem, s.heap.withPhase .marking⟩ []
  rw [h₁] at hroots
  obtain ⟨l, hl⟩ := (h.quiet fast).wf.listed
  obtain ⟨hsame, _⟩ := (h.quiet fast).scan hl hroots
  have hwf : WF (stOf fast obj s₁) :=
    WF.doMarkRoots (s := ⟨(stOf fast obj s).mem, (stOf fast obj s).heap.withPhase .marking⟩)
      ((h.quiet fast).wf.of_heap rfl rfl rfl) hroots
  have hal : s₁.mem.alive = s.mem.alive := hsame.alive
  exact ⟨hroots, h.types.of_alive hal, hwf.sane⟩

/-- A phase is a phase of the untyped model. -/
theorem Ready.untyped {s' : St} (hp : Phase fast obj s s') : ∃ fuel s₁,
    St.doMarkRoots fuel ⟨(stOf fast obj s).mem, (stOf fast obj s).heap.withPhase .marking⟩ [] = some s₁ ∧
    Abfall.doMarkWorkFull fuel s₁ [] = some (stOf fast obj s') := by
  obtain ⟨fuel, s₁, h₁, h₂⟩ := hp
  rw [backgroundLoop_eq, or_self] at h₂
  obtain ⟨hroots, htyped⟩ : _ ∧ Typed fast obj s₁ [] := h.scan h₁
  refine ⟨fuel, stOf fast obj s₁, hroots, ?_⟩
  rw [doMarkWorkFull_stOf fuel htyped, h₂]
  rfl

/-- Every phase ends. -/
theorem Ready.phase_ends : ∃ s', Phase fast obj s s' := by
  obtain ⟨fuel, _, _, hf⟩ := (h.quiet fast).forceCollect_ends
  obtain ⟨_, s₁, s₂, h₁, h₂, _⟩ := (forceCollect_some hf).resolve_left fun hno => hno.1 (h.quiet fast).idle
  have hroots := doMarkRoots_stOf fast obj fuel ⟨s.mem, s.heap.withPhase .marking⟩ []
  obtain ⟨s₀, h₀, rfl⟩ := Option.map_eq_some_iff.1 (hroots.symm.trans h₁)
  rw [doMarkWorkFull_stOf fuel (h.scan h₀).2] at h₂
  obtain ⟨s', hs', _⟩ := Option.map_eq_some_iff.1 h₂
  exact ⟨s', fuel, s₀, h₀, .inl hs'⟩

end Phase

/-- The root scan blackens nothing. -/
theorem scanRoots_black (l : List Addr) (m : Mem) (t : Tracer) {x : Addr}
    (h : (scanRoots l m t).1.color x = .black) : m.color x = .black := by
  induction l generalizing m t with
  | nil => exact h
  | cons a l ih =>
    have hx := ih _ _ h
    rcases m.scanRoot_cases t a with ⟨_, _, e⟩ | ⟨_, e⟩ <;> rw [e] at hx
    · rw [Mem.setColor_color] at hx
      split at hx
      · cases hx
      · exact hx
    · exact hx

/-- The Black objects at the end of a phase, with the fast paths or without. -/
theorem Ready.black_iff {fast : Bool} {obj : Addr → Obj} {s s' : St} {l : List Addr} (h : Ready obj s)
    (hl : Listed s l) (hp : Phase fast obj s s') {a : Addr} (ha : s.mem.alive a = true) :
    s'.mem.color a = .black ↔ 0 < s.heap.options.incrementalWorkBudget ∧ Marked (memOf false obj s.mem) [] l a := by
  have hq := h.quiet fast
  obtain ⟨fuel, s₁, h₁, h₂⟩ := h.untyped hp
  have hl' : Listed (stOf fast obj s) l := listed_stOf hl
  by_cases hb : 0 < s.heap.options.incrementalWorkBudget
  · obtain ⟨hs, hm, _⟩ := marked_of_phase (s := ⟨(stOf fast obj s).mem, (stOf fast obj s).heap.withPhase .marking⟩)
      hl'.seg h₁ h₂ hb
    have hleft := (hq.complete_of_pos hb).full fuel s₁ _ h₁ h₂
    have hgray : s'.mem.color a ≠ .gray := hleft.2 a (by rw [hs.alive]; exact ha)
    have hmark : s'.mem.color a ≠ .white ↔ Marked (memOf false obj s.mem) [] l a := by
      rw [← h.queue]
      exact hm a
    simp only [hb, true_and, ← hmark]
    cases hc : s'.mem.color a <;> simp [hc] at hgray ⊢
  · -- a budget of 0: the phase ends with the root scan
    simp only [hb, false_and, iff_false]
    intro hblack
    obtain ⟨_, _, hbusy, hopt⟩ := hq.scan hl' h₁
    have h₁' := St.doMarkRoots_some (s := ⟨(stOf fast obj s).mem, (stOf fast obj s).heap.withPhase .marking⟩) hl'.seg h₁
    cases fuel with
    | zero => cases h₂
    | succ fuel =>
      have hb0 : s₁.heap.options.incrementalWorkBudget = 0 := by
        rw [hopt]
        exact Nat.eq_zero_of_not_pos hb
      rw [doMarkWorkFull_idle hbusy (.inl hb0)] at h₂
      have hcol : s'.mem.color a = s₁.mem.color a := by rw [Option.some.inj h₂]; rfl
      rw [hcol, h₁'] at hblack
      have hw := scanRoots_black l _ [] hblack
      rw [show (stOf fast obj s).mem.color a = .white from h.white a ha] at hw
      cases hw

/-- **The `Trace` impls are complete, and the fast paths change nothing.** For every type built from the
crate's impls: `trace` calls `Tracer::mark` once for each `GcPtr` in the value; a type has `NO_TRACE` only
if no value of it holds a `GcPtr`. And on every heap of such objects that is White and has nothing
queued, a marking phase with the fast paths and one without them both end, and whichever way they run
they leave the same objects Black. -/
theorem trace_impls_complete :
    (∀ (t : Ty) (v : t.Val), ∃ πs, Exactly (ptrAt t v) πs (trace t v)) ∧
    (∀ t : Ty, t.noTrace = true → ∀ (v : t.Val) (π : Path), ptrAt t v π = none) ∧
    (∀ (obj : Addr → Obj) (s : St), Ready obj s → (∀ fast, ∃ s', Phase fast obj s s') ∧
      ∀ s₁ s₂, Phase true obj s s₁ → Phase false obj s s₂ →
        ∀ a, s.mem.alive a = true → (s₁.mem.color a = .black ↔ s₂.mem.color a = .black)) := by
  refine ⟨trace_exact, fun t h v π => ptrAt_of_noTrace h v π, fun obj s h => ⟨fun fast => h.phase_ends, ?_⟩⟩
  intro s₁ s₂ hp₁ hp₂ a ha
  obtain ⟨l, hl⟩ := h.listed
  rw [h.black_iff hl hp₁ ha, h.black_iff hl hp₂ ha]

/-- In `rootedPair` object 1 is a `Vec<GcPtr<i32>>` and object 2 its `i32`. -/
def pairObj (a : Addr) : Obj :=
  if a = 1 then ⟨.iterable .vec (.gcPtr (.noTraceTy .i32)), ([2] : List Addr)⟩ else ⟨.noTraceTy .i32, (7 : Int32)⟩

theorem trace_impls_complete_pair : Ready pairObj rootedPair ∧
    (∃ s', Phase true pairObj rootedPair s') ∧
    ∀ s₁ s₂, Phase true pairObj rootedPair s₁ → Phase false pairObj rootedPair s₂ →
      (s₁.mem.color 2 = .black ↔ s₂.mem.color 2 = .black) := by
  have hq := quiet_rootedPair
  have hready : Ready pairObj rootedPair := by
    refine ⟨fun a _ c hc => ?_, hq.wf.listed, hq.wf.sane.noFault, hq.idle, hq.busy, hq.white, hq.queue⟩
    by_cases h1 : a = 1
    · subst h1
      obtain rfl := List.mem_singleton.1 (hc : c ∈ [⟨.noTraceTy .i32, 2⟩])
      exact ⟨by decide, rfl⟩
    · have hint : pairObj a = ⟨.noTraceTy .i32, (7 : Int32)⟩ := if_neg h1
      rw [hint] at hc
      cases hc
  obtain ⟨_, _, h⟩ := trace_impls_complete
  obtain ⟨hends, hsame⟩ := h pairObj rootedPair hready
  exact ⟨hready, hends true, fun s₁ s₂ h₁ h₂ => hsame s₁ s₂ h₁ h₂ 2 (by decide)⟩

end Abfall.TraceImpls
