import Abfall.Mutator
import Abfall.Conc.SweepCycles
import Mathlib.Data.Fintype.EquivFin
/-!
# Collections cannot be seen

`Collector` is what a program runs on: a heap, the steps a collector makes on its own, and an invariant
under which no such step takes a reachable object away. Whatever the collector does in between, a
program then does what it does on a store that keeps everything (`Collector.simulates`, `AsIf`): it can
make the same commands, finds objects of the same shape at the end of the same paths, finds two paths
to lead to one object in the same cases, and never touches a freed one.

`stop_the_world_transparent` is about `force_collect` and `collect` at any places of the program,
`incremental_transparent` about the background thread's cycles between its commands, and `sweeping_transparent` about
cycles whose sweeps the program interrupts as well. Two runs of one program may differ in options, addresses and
collections; `schedule_irrelevant` says that a `force_collect` at their ends leaves as many objects and as many bytes in both.
-/
namespace Abfall.Mutator
open Chain Transition

/-! ## What a program sees -/

/-- From an object along cells and indices. -/
def follow (obj : Nat → Data) : Nat → List (Nat × Nat) → Option Nat
  | o, [] => some o
  | o, e :: π => do
    let cell ← (obj o).cells[e.1]?
    let p ← cell[e.2]?
    follow obj p π

/-- From a stack position. -/
def look (obj : Nat → Data) (env : List Nat) (n : Nat) (π : List (Nat × Nat)) : Option Nat :=
  env[n]?.bind fun o => follow obj o π

/-- What can be seen of a value besides its pointers. -/
def shape (d : Data) : Bool × Nat × List Nat := (d.noTrace, d.size, d.cells.map List.length)

/-- Two memories look the same from their stacks. -/
structure Alike (obj₁ : Nat → Data) (env₁ : List Nat) (obj₂ : Nat → Data) (env₂ : List Nat) : Prop where
  shapes : ∀ n π, (look obj₁ env₁ n π).map (fun o => shape (obj₁ o)) = (look obj₂ env₂ n π).map fun o => shape (obj₂ o)
  same : ∀ n π n' π', look obj₁ env₁ n π = look obj₁ env₁ n' π' ↔ look obj₂ env₂ n π = look obj₂ env₂ n' π'

theorem Alike.symm {obj₁ obj₂ : Nat → Data} {env₁ env₂ : List Nat} (h : Alike obj₁ env₁ obj₂ env₂) :
    Alike obj₂ env₂ obj₁ env₁ := ⟨fun n π => (h.shapes n π).symm, fun n π n' π' => (h.same n π n' π').symm⟩

theorem Alike.trans {obj₁ obj₂ obj₃ : Nat → Data} {env₁ env₂ env₃ : List Nat} (h : Alike obj₁ env₁ obj₂ env₂)
    (h' : Alike obj₂ env₂ obj₃ env₃) : Alike obj₁ env₁ obj₃ env₃ :=
  ⟨fun n π => (h.shapes n π).trans (h'.shapes n π), fun n π n' π' => (h.same n π n' π').trans (h'.same n π n' π')⟩

section View
variable {ρ : Addr → Nat} {m : Mem} {env : List Addr} {i : Store}

theorem Rep.follow (h : Rep ρ m env i) (π : List (Nat × Nat)) {o : Addr} (ho : m.Reachable o) :
    Mutator.follow i.obj (ρ o) π = (Mutator.follow m.data o π).map ρ ∧
      ∀ p, Mutator.follow m.data o π = some p → m.Reachable p := by
  induction π generalizing o with
  | nil => exact ⟨rfl, fun p hp => by cases hp; exact ho⟩
  | cons e π ih =>
    simp only [Mutator.follow, h.cells ho, List.getElem?_map]
    cases hc : (m.data o).cells[e.1]? with
    | none => exact ⟨rfl, fun p hp => by cases hp⟩
    | some cell =>
      simp only [Option.map_some, Option.bind_eq_bind, Option.bind_some, List.getElem?_map]
      cases hp : cell[e.2]? with
      | none => exact ⟨rfl, fun p hp => by cases hp⟩
      | some p =>
        have hpr : m.Reachable p :=
          ho.next (List.mem_flatten.2 ⟨cell, List.mem_of_getElem? hc, List.mem_of_getElem? hp⟩)
        exact ih hpr

theorem Rep.look (h : Rep ρ m env i) (n : Nat) (π : List (Nat × Nat)) :
    Mutator.look i.obj i.env n π = (Mutator.look m.data env n π).map ρ ∧
      ∀ p, Mutator.look m.data env n π = some p → m.Reachable p := by
  simp only [Mutator.look, h.get]
  cases ho : env[n]? with
  | none => exact ⟨rfl, fun p hp => by cases hp⟩
  | some o => exact h.follow π (h.reachable (List.mem_of_getElem? ho))

theorem shape_map (f : Addr → Addr) (d : Data) : shape (d.map f) = shape d := by
  simp [shape, Data.map, Function.comp_def]

theorem Rep.alike (h : Rep ρ m env i) : Alike m.data env i.obj i.env := by
  refine ⟨fun n π => ?_, fun n π n' π' => ?_⟩
  · obtain ⟨e, hr⟩ := h.look n π
    rw [e]
    cases hp : Mutator.look m.data env n π with
    | none => rfl
    | some p => simp only [Option.map_some, h.obj p (hr p hp), shape_map]
  · obtain ⟨e, hr⟩ := h.look n π
    obtain ⟨e', hr'⟩ := h.look n' π'
    rw [e, e']
    refine ⟨fun hsame => by rw [hsame], fun hsame => ?_⟩
    -- `ρ` keeps reachable objects apart
    cases hp : Mutator.look m.data env n π with
    | none =>
      cases hp' : Mutator.look m.data env n' π' with
      | none => rfl
      | some p' => rw [hp, hp'] at hsame; cases hsame
    | some p =>
      cases hp' : Mutator.look m.data env n' π' with
      | none => rw [hp, hp'] at hsame; cases hsame
      | some p' =>
        rw [hp, hp'] at hsame
        rw [h.inj p p' (hr p hp) (hr' p' hp') (Option.some.inj hsame)]

end View

/-! ## Collectors -/

/-- What a step of a collector may do: objects that cannot be reached may go. -/
structure Keeps (m m' : Mem) : Prop where
  data : m'.data = m.data
  rootCount : m'.rootCount = m.rootCount
  alive : ∀ a, m'.alive a = true → m.alive a = true
  spares : ∀ a, m.Reachable a → m'.alive a = true

theorem Keeps.of_same {m m' : Mem} (h : m.SameObjects m') (hal : ∀ a, m.Reachable a → m.alive a = true) : Keeps m m' :=
  ⟨h.data, h.rootCount, fun a ha => by rwa [h.alive] at ha, fun a ha => by rw [h.alive]; exact hal a ha⟩

theorem Rep.keeps {ρ : Addr → Nat} {m m' : Mem} {env : List Addr} {i : Store} (h : Rep ρ m env i) (hk : Keeps m m') :
    Rep ρ m' env i := by
  have hsub : ∀ a, m'.Reachable a → m.Reachable a := by
    intro a ha
    refine ha.of_closed (S := m.Reachable) (fun b hb => ?_) fun b c hb he => ?_
    · exact Mem.Rooted.reachable ⟨hk.alive b hb.1, by rw [← hk.rootCount]; exact hb.2⟩
    · exact hb.next (Rep.edge_of_data hk.data he)
  have hrep : Rep ρ m' env (i.withEnv (env.map ρ)) := by
    refine h.shrink hk.data (fun a ha => ?_) (fun a ha => hk.spares a (h.reachable ha)) hsub
    rw [hk.rootCount]
    exact h.counts a (hk.alive a ha)
  rw [← h.env] at hrep
  exact hrep

/-- What a program needs of its heap. -/
structure Usable (m : Mem) : Prop where
  noFault : m.fault = false
  alive : ∀ a, m.Reachable a → m.alive a = true
  free : ∃ a, m.alive a = false

theorem exists_free {m : Mem} {l : List Addr} (h : ∀ a, a ∈ l ↔ m.alive a = true) : ∃ a, m.alive a = false := by
  obtain ⟨a, ha⟩ := Infinite.exists_notMem_finset l.toFinset
  refine ⟨a, ?_⟩
  rw [List.mem_toFinset, h] at ha
  simpa using ha

theorem usable_of_wf {s : St} (h : WF s) : Usable s.mem :=
  ⟨h.sane.noFault, fun _ => h.alive_of_reachable, exists_free h.listed.choose_spec.alive⟩

/-- A heap with a collector: `collect` is a step the collector makes on its own, `ok` what it asks of the
mutators, and `okCollect` what it asks of the moments of its own steps. -/
structure Collector (κ : Type) where
  st : κ → St
  collect : κ → κ → Prop
  mutate : κ → MutOp → κ
  ok : κ → MutOp → Prop
  okCollect : κ → Prop
  Inv : κ → Prop
  mutate_st : ∀ x op, st (mutate x op) = (st x).mutate op
  usable : ∀ x, Inv x → Usable (st x).mem
  mutate_inv : ∀ x op, Inv x → op.Allowed (st x).mem.Reachable (st x) → ok x op → Inv (mutate x op)
  collect_inv : ∀ x x', Inv x → collect x x' → okCollect x → Inv x'
  keeps : ∀ x x', Inv x → collect x x' → Keeps (st x).mem (st x').mem

/-- A program in the middle: the heap and the stack of its roots. -/
structure Prog (κ : Type) where
  x : κ
  env : List Addr

/-- A command, with the operation it made, or a step of the collector. -/
inductive Act
  | cmd (c : Cmd) (op : MutOp)
  | collector

def Act.cmd? : Act → Option Cmd
  | .cmd c _ => some c
  | .collector => none

namespace Collector
variable {κ : Type} (C : Collector κ)

inductive Step : Prog κ → Act → Prog κ → Prop
  | cmd {x : κ} {env env' : List Addr} {c : Cmd} {op : MutOp} (a : Addr) : (C.st x).mem.alive a = false →
      c.op (C.st x).mem env a = some (op, env') → Step ⟨x, env⟩ (.cmd c op) ⟨C.mutate x op, env'⟩
  | collector {x x' : κ} {env : List Addr} : C.collect x x' → Step ⟨x, env⟩ .collector ⟨x', env⟩

/-- What the collector asks of the program. -/
def Meets (p : Prog κ) : Act → Prop
  | .cmd _ op => C.ok p.x op
  | .collector => C.okCollect p.x

/-- The program stands where it would stand on the store `i`. -/
structure AsIf (p : Prog κ) (i : Store) : Prop where
  alike : Alike (C.st p.x).mem.data p.env i.obj i.env
  enabled : ∀ c, (∃ op p', C.Step p (.cmd c op) p') ↔ (i.exec c).isSome = true
  noFault : (C.st p.x).mem.fault = false

variable {C}

theorem step_rep {p p' : Prog κ} {e : Act} {i : Store} {ρ : Addr → Nat} (hi : C.Inv p.x)
    (h : Rep ρ (C.st p.x).mem p.env i) (hst : C.Step p e p') (hok : C.Meets p e) :
    ∃ i', e.cmd?.elim (some i) i.exec = some i' ∧ C.Inv p'.x ∧ ∃ ρ', Rep ρ' (C.st p'.x).mem p'.env i' := by
  cases hst with
  | cmd a ha hop =>
    obtain ⟨hal, i', ρ', hexec, hrep⟩ := h.cmd (C.usable _ hi).alive ha hop
    refine ⟨i', hexec, C.mutate_inv _ _ hi hal hok, ρ', ?_⟩
    rw [C.mutate_st]
    exact hrep
  | collector hc => exact ⟨i, rfl, C.collect_inv _ _ hi hc hok, ρ, h.keeps (C.keeps _ _ hi hc)⟩

theorem rep_empty {m : Mem} (h : ∀ a, m.alive a = false) : Rep id m [] .empty := by
  have hno : ∀ a, ¬ m.Reachable a := by
    rintro a ⟨r, hr, _⟩
    have := hr.1
    simp [h r] at this
  refine ⟨fun a ha => ?_, fun a ha => ?_, rfl, fun a _ ha => absurd ha (hno a), fun a ha => absurd ha (hno a),
    fun a ha => absurd ha (hno a)⟩
  · simp [h a] at ha
  · cases ha

/-- A program on a heap does what it does on a store. -/
theorem simulates {x₀ : κ} {p : Prog κ} {tr : List (Prog κ × Act)} (h0 : C.Inv x₀)
    (hempty : ∀ a, (C.st x₀).mem.alive a = false) (h : Run C.Step ⟨x₀, []⟩ tr p) (hok : ∀ e ∈ tr, C.Meets e.1 e.2) :
    ∃ i, Store.run (tr.filterMap fun e => e.2.cmd?) = some i ∧ C.Inv p.x ∧ ∃ ρ, Rep ρ (C.st p.x).mem p.env i := by
  refine h.simulate (R := fun p i => C.Inv p.x ∧ ∃ ρ, Rep ρ (C.st p.x).mem p.env i) ?_ ⟨h0, id, rep_empty hempty⟩ hok
  rintro p e p' i ⟨hi, ρ, hrep⟩ hst hm
  exact step_rep hi hrep hst hm

theorem asIf_of_rep {p : Prog κ} {i : Store} {ρ : Addr → Nat} (hi : C.Inv p.x) (h : Rep ρ (C.st p.x).mem p.env i) :
    C.AsIf p i := by
  have hu := C.usable _ hi
  refine ⟨h.alike, fun c => ?_, hu.noFault⟩
  constructor
  · rintro ⟨op, p', hst⟩
    cases hst with
    | cmd a _ hop =>
      rw [← h.enabled a c, hop]
      rfl
  · intro hsome
    obtain ⟨a, ha⟩ := hu.free
    rw [← h.enabled a c] at hsome
    obtain ⟨⟨op, env'⟩, hop⟩ := Option.isSome_iff_exists.1 hsome
    exact ⟨op, _, .cmd a ha hop⟩

end Collector

/-! ## Without a background thread -/

section StopTheWorld
open StopTheWorld (Clean)

/-- `collect` is nothing or a `force_collect`. -/
theorem collect_some {s s' : St} {fuel : Nat} (h : s.collect fuel = some s') :
    s' = s ∨ ∃ live, s.forceCollect fuel = some (s', live) := by
  unfold St.collect at h
  split at h
  · obtain ⟨⟨s₁, live⟩, hf, rfl⟩ := Option.map_eq_some_iff.1 h
    exact .inr ⟨live, hf⟩
  · cases h
    exact .inl rfl

theorem swept_keeps {m m' : Mem} {l : List Addr} {hd : Option Addr} (hsw : Swept m [] l m' hd)
    (hspares : ∀ a, m.Reachable a → m'.alive a = true) : Keeps m m' := by
  refine ⟨hsw.data, hsw.rootCount, fun a ha => ?_, hspares⟩
  rw [hsw.alive, Bool.and_eq_true] at ha
  exact ha.1

theorem Keeps.after_same {m₁ m₂ m₃ : Mem} (hs : m₁.SameObjects m₂) (h : Keeps m₂ m₃) : Keeps m₁ m₃ := by
  refine ⟨h.data.trans hs.data, h.rootCount.trans hs.rootCount, fun a ha => ?_, fun a ha => h.spares a ?_⟩
  · rw [← hs.alive]
    exact h.alive a ha
  · refine ha.of_closed (fun r hr => Mem.Rooted.reachable ((hs.rooted r).2 hr)) fun x y hx he => hx.next ?_
    rw [hs.edge]
    exact he

theorem forceCollect_keeps {s s' : St} {rs : List Addr} {fuel live : Nat} (hc : Clean ⟨s, rs⟩)
    (h : s.forceCollect fuel = some (s', live)) : Keeps s.mem s'.mem := by
  obtain ⟨l, hl⟩ := hc.wf.listed
  obtain ⟨⟨m₁, hs, _, _, hsw, _⟩, _⟩ := forceCollect_spec hc.idle hl.seg (fun x hx => (hl.alive x).1 hx) hc.budget h
  have hexact := (StopTheWorld.forceCollect_exact hc h).1.survivors
  refine Keeps.after_same hs (swept_keeps hsw fun a ha => (hexact a).2 ?_)
  have hr : s.mem.Reachable a := by
    refine ha.of_closed (fun r hr => Mem.Rooted.reachable ((hs.rooted r).1 hr)) fun x y hx he => hx.next ?_
    rwa [hs.edge] at he
  exact ⟨hc.wf.alive_of_reachable hr, hr⟩

/-- What a mutator may do is a step of `StopTheWorld`. -/
theorem clean_mutate {s : St} {rs : List Addr} {op : MutOp} (hc : Clean ⟨s, rs⟩) (ha : op.Allowed s.mem.Reachable s) :
    ∃ rs', Clean ⟨s.mutate op, rs'⟩ := by
  have hmem : ∀ a, s.mem.Rooted a → a ∈ rs := by
    intro a hr
    have hcount : s.mem.rootCount a = rs.count a := hc.counts a hr.1
    have hpos := hr.2
    rw [hcount] at hpos
    exact List.count_pos_iff.1 hpos
  cases op with
  | allocate a d => exact ⟨_, StopTheWorld.step_clean hc (.allocate ha.1 ha.2)⟩
  | clone a => exact ⟨_, StopTheWorld.step_clean hc (.clone (hmem a ha))⟩
  | dropRoot a => exact ⟨_, StopTheWorld.step_clean hc (.dropRoot (hmem a ha))⟩
  | root a => exact ⟨_, StopTheWorld.step_clean hc (.root ha)⟩
  | set o k vals => exact ⟨_, StopTheWorld.step_clean hc (.set ha.1 ha.2.1 ha.2.2)⟩

/-- `force_collect` and `collect`, called at any time. -/
def stopTheWorld : Collector St where
  st := id
  collect := fun s s' => (∃ fuel live, s.forceCollect fuel = some (s', live)) ∨ ∃ fuel, s.collect fuel = some s'
  mutate := St.mutate
  ok := fun _ _ => True
  okCollect := fun _ => True
  Inv := fun s => ∃ rs, Clean ⟨s, rs⟩
  mutate_st := fun _ _ => rfl
  usable := by
    rintro s ⟨rs, hc⟩
    exact usable_of_wf hc.wf
  mutate_inv := by
    rintro s op ⟨rs, hc⟩ ha _
    exact clean_mutate hc ha
  collect_inv := by
    rintro s s' ⟨rs, hc⟩ (⟨fuel, live, h⟩ | ⟨fuel, h⟩) _
    · exact ⟨rs, StopTheWorld.step_clean hc (.forceCollect h)⟩
    · exact ⟨rs, StopTheWorld.step_clean hc (.collect h)⟩
  keeps := by
    rintro s s' ⟨rs, hc⟩ (⟨fuel, live, h⟩ | ⟨fuel, h⟩)
    · exact forceCollect_keeps hc h
    · rcases collect_some h with rfl | ⟨live, h⟩
      · exact .of_same (.refl _) fun a => hc.wf.alive_of_reachable
      · exact forceCollect_keeps hc h

/-- **Collections cannot be seen.** A program that calls `force_collect` and `collect` wherever it likes, on
a heap with any options and with any addresses for its boxes, does what it does on a store that keeps
every object. -/
theorem stop_the_world_transparent (o : GcOptions) (hb : 1 ≤ o.incrementalWorkBudget) (p : Prog St)
    (tr : List (Prog St × Act)) (h : Run stopTheWorld.Step ⟨.fresh o, []⟩ tr p) :
    ∃ i, Store.run (tr.filterMap fun e => e.2.cmd?) = some i ∧ stopTheWorld.AsIf p i := by
  obtain ⟨i, hrun, hi, ρ, hrep⟩ := Collector.simulates (C := stopTheWorld) ⟨[], StopTheWorld.clean_fresh hb⟩
    (fun _ => rfl) h fun e _ => by unfold Collector.Meets; split <;> trivial
  exact ⟨i, hrun, Collector.asIf_of_rep hi hrep⟩

/-- One object, its root dropped, and a `force_collect` that frees it; the store still has it. -/
theorem stop_the_world_transparent_freed : ∃ (p : Prog St) (tr : List (Prog St × Act)) (i : Store),
    Run stopTheWorld.Step ⟨.fresh .default, []⟩ tr p ∧ p.x.mem.alive 7 = false ∧
    Store.run (tr.filterMap fun e => e.2.cmd?) = some i ∧ i.next = 1 ∧ stopTheWorld.AsIf p i := by
  have h₁ : Run stopTheWorld.Step ⟨.fresh .default, []⟩ _ ⟨_, [7]⟩ :=
    .snoc (.nil _) (.cmd (c := .alloc (.leaf 40)) 7 rfl rfl)
  have h₂ : Run stopTheWorld.Step ⟨.fresh .default, []⟩ _ ⟨_, []⟩ := h₁.snoc (.cmd (c := .drop 0) 8 rfl rfl)
  have hends : ((((St.fresh .default).mutate (.allocate 7 (.leaf 40))).mutate (.dropRoot 7)).forceCollect 3).map
      (fun r => r.1.mem.alive 7) = some false := by decide
  obtain ⟨⟨s', live⟩, hf, hfree⟩ := Option.map_eq_some_iff.1 hends
  have h₃ : Run stopTheWorld.Step ⟨.fresh .default, []⟩ _ ⟨s', []⟩ := h₂.snoc (.collector (.inl ⟨3, live, hf⟩))
  obtain ⟨i, hrun, has⟩ := stop_the_world_transparent .default (by decide) _ _ h₃
  refine ⟨_, _, i, h₃, hfree, hrun, ?_, has⟩
  cases hrun
  rfl

/-! ## Two runs of one program -/

/-- The objects two heaps with one store have in common: each reachable object of one has a partner. -/
theorem Rep.partner {ρ₁ ρ₂ : Addr → Nat} {m₁ m₂ : Mem} {env₁ env₂ : List Addr} {i : Store} (h₁ : Rep ρ₁ m₁ env₁ i)
    (h₂ : Rep ρ₂ m₂ env₂ i) {a : Addr} (ha : m₁.Reachable a) : ∃ b, m₂.Reachable b ∧ ρ₂ b = ρ₁ a := by
  -- along a path from a root of the first heap
  refine (ha.of_closed (S := fun a => m₁.Reachable a ∧ ∃ b, m₂.Reachable b ∧ ρ₂ b = ρ₁ a) (fun r hr => ?_) ?_).2
  · have hm : ρ₁ r ∈ env₂.map ρ₂ := by
      rw [← h₂.env, h₁.env]
      exact List.mem_map_of_mem (h₁.mem_of_rooted hr)
    obtain ⟨b, hb, e⟩ := List.mem_map.1 hm
    exact ⟨hr.reachable, b, h₂.reachable hb, e⟩
  · rintro x y ⟨hx, b, hb, e⟩ he
    have hobj : (m₂.data b).map ρ₂ = (m₁.data x).map ρ₁ := by rw [← h₂.obj b hb, ← h₁.obj x hx, e]
    have hm : ρ₁ y ∈ (m₂.data b).ptrs.map ρ₂ := by
      rw [← Data.map_ptrs, hobj, Data.map_ptrs]
      exact List.mem_map_of_mem he
    obtain ⟨c, hc, e'⟩ := List.mem_map.1 hm
    exact ⟨hx.next he, c, hb.next hc, e'⟩

/-- A list of all the reachable objects, numbered as in the store, is unique up to its order. -/
theorem Rep.perm {ρ₁ ρ₂ : Addr → Nat} {m₁ m₂ : Mem} {env₁ env₂ l₁ l₂ : List Addr} {i : Store} (h₁ : Rep ρ₁ m₁ env₁ i)
    (h₂ : Rep ρ₂ m₂ env₂ i) (hn₁ : l₁.Nodup) (hn₂ : l₂.Nodup) (hl₁ : ∀ a, a ∈ l₁ ↔ m₁.Reachable a)
    (hl₂ : ∀ a, a ∈ l₂ ↔ m₂.Reachable a) : (l₁.map ρ₁).Perm (l₂.map ρ₂) := by
  refine (List.perm_ext_iff_of_nodup ?_ ?_).2 fun x => ?_
  · exact hn₁.map_on fun a ha b hb => h₁.inj a b ((hl₁ a).1 ha) ((hl₁ b).1 hb)
  · exact hn₂.map_on fun a ha b hb => h₂.inj a b ((hl₂ a).1 ha) ((hl₂ b).1 hb)
  · simp only [List.mem_map, hl₁, hl₂]
    constructor
    · rintro ⟨a, ha, rfl⟩
      exact h₁.partner h₂ ha
    · rintro ⟨b, hb, rfl⟩
      exact h₂.partner h₁ hb

/-- The bytes of a list of reachable objects can be read off the store. -/
theorem Rep.sizeSum {ρ : Addr → Nat} {m : Mem} {env : List Addr} {i : Store} (h : Rep ρ m env i) {l : List Addr}
    (hl : ∀ a ∈ l, m.Reachable a) : Abfall.sizeSum m l = ((l.map ρ).map fun n => (i.obj n).size).sum := by
  induction l with
  | nil => rfl
  | cons a l ih =>
    have hsize : (i.obj (ρ a)).size = (m.data a).size := by rw [h.obj a (hl a (by simp))]; rfl
    simp only [sizeSum_cons, List.map_cons, List.sum_cons, hsize, ih fun b hb => hl b (by simp [hb])]

/-- `allocation_count` (heap.rs:565): the walk from `current` on. -/
def countLoop (m : Mem) : Nat → Option Addr → Nat → Option Nat
  | _, none, count => some count
  | 0, some _, _ => none
  | fuel + 1, some a, count => countLoop m fuel (m.next a) (count + 1)

def allocationCount (fuel : Nat) (s : St) : Option Nat := countLoop s.mem fuel s.heap.head 0

theorem countLoop_eq {m : Mem} : ∀ (l : List Addr) (fuel : Nat) (p : Option Addr) (n : Nat), Seg m.next p l none →
    l.length ≤ fuel → countLoop m fuel p n = some (n + l.length)
  | [], fuel, p, n, hp, _ => by
    obtain rfl : p = none := hp
    cases fuel <;> rfl
  | a :: l, 0, _, _, _, hlen => by simp at hlen
  | a :: l, fuel + 1, p, n, hp, hlen => by
    obtain ⟨rfl, hp⟩ := hp
    rw [countLoop, countLoop_eq l fuel (m.next a) (n + 1) hp (by simpa using hlen), List.length_cons]
    congr 1
    omega

/-- **When collections run does not matter.** Two runs of one program, with any two options, with different
addresses and with collections at different places, end in heaps that look the same; a `force_collect`
of either ends, and leaves the same number of objects and of bytes. -/
theorem schedule_irrelevant (o₁ o₂ : GcOptions) (hb₁ : 1 ≤ o₁.incrementalWorkBudget) (hb₂ : 1 ≤ o₂.incrementalWorkBudget)
    (p₁ p₂ : Prog St) (tr₁ tr₂ : List (Prog St × Act)) (h₁ : Run stopTheWorld.Step ⟨.fresh o₁, []⟩ tr₁ p₁)
    (h₂ : Run stopTheWorld.Step ⟨.fresh o₂, []⟩ tr₂ p₂)
    (hsame : (tr₁.filterMap fun e => e.2.cmd?) = tr₂.filterMap fun e => e.2.cmd?) :
    Alike p₁.x.mem.data p₁.env p₂.x.mem.data p₂.env ∧
    (∃ fuel s live, p₁.x.forceCollect fuel = some (s, live)) ∧ (∃ fuel s live, p₂.x.forceCollect fuel = some (s, live)) ∧
    ∀ fuel₁ fuel₂ s₁ s₂ live₁ live₂, p₁.x.forceCollect fuel₁ = some (s₁, live₁) →
      p₂.x.forceCollect fuel₂ = some (s₂, live₂) → live₁ = live₂ ∧
      ∃ n, ∀ fuel, n ≤ fuel → allocationCount fuel s₁ = some n ∧ allocationCount fuel s₂ = some n := by
  have hmeets : ∀ (q : Prog St) (e : Act), stopTheWorld.Meets q e := fun q e => by cases e <;> trivial
  obtain ⟨i, hrun₁, ⟨rs₁, hc₁⟩, ρ₁, hrep₁⟩ := Collector.simulates (C := stopTheWorld)
    ⟨[], StopTheWorld.clean_fresh hb₁⟩ (fun _ => rfl) h₁ fun e _ => hmeets _ _
  obtain ⟨i₂, hrun₂, ⟨rs₂, hc₂⟩, ρ₂, hrep₂⟩ := Collector.simulates (C := stopTheWorld)
    ⟨[], StopTheWorld.clean_fresh hb₂⟩ (fun _ => rfl) h₂ fun e _ => hmeets _ _
  obtain rfl : i = i₂ := by
    rw [hsame, hrun₂] at hrun₁
    exact (Option.some.inj hrun₁).symm
  refine ⟨hrep₁.alike.trans hrep₂.alike.symm, StopTheWorld.forceCollect_ends hc₁, StopTheWorld.forceCollect_ends hc₂,
    fun fuel₁ fuel₂ s₁ s₂ live₁ live₂ hf₁ hf₂ => ?_⟩
  obtain ⟨hex₁, hcl₁⟩ := StopTheWorld.forceCollect_exact hc₁ hf₁
  obtain ⟨hex₂, hcl₂⟩ := StopTheWorld.forceCollect_exact hc₂ hf₂
  obtain ⟨l₁, hl₁⟩ := hcl₁.wf.listed
  obtain ⟨l₂, hl₂⟩ := hcl₂.wf.listed
  have hr₁ : ∀ a, a ∈ l₁ ↔ p₁.x.mem.Reachable a := fun a => by
    rw [hl₁.alive, hex₁.survivors]
    exact ⟨And.right, fun hr => ⟨hc₁.wf.alive_of_reachable hr, hr⟩⟩
  have hr₂ : ∀ a, a ∈ l₂ ↔ p₂.x.mem.Reachable a := fun a => by
    rw [hl₂.alive, hex₂.survivors]
    exact ⟨And.right, fun hr => ⟨hc₂.wf.alive_of_reachable hr, hr⟩⟩
  have hperm := hrep₁.perm hrep₂ (seg_nodup hl₁.seg) (seg_nodup hl₂.seg) hr₁ hr₂
  refine ⟨?_, l₁.length, fun fuel hfuel => ?_⟩
  · have hb₁ : sizeSum s₁.mem l₁ = sizeSum p₁.x.mem l₁ :=
      sizeSum_congr fun a _ => by rw [(forceCollect_keeps hc₁ hf₁).data]
    have hb₂ : sizeSum s₂.mem l₂ = sizeSum p₂.x.mem l₂ :=
      sizeSum_congr fun a _ => by rw [(forceCollect_keeps hc₂ hf₂).data]
    have hsum₁ := hrep₁.sizeSum (l := l₁) fun a ha => (hr₁ a).1 ha
    have hsum₂ := hrep₂.sizeSum (l := l₂) fun a ha => (hr₂ a).1 ha
    calc live₁ = sizeSum p₁.x.mem l₁ := by rw [hex₁.result, hl₁.bytes]; exact hb₁
      _ = sizeSum p₂.x.mem l₂ := by
        refine hsum₁.trans (Eq.trans ?_ hsum₂.symm)
        exact (hperm.map _).sum_nat
      _ = live₂ := by rw [hex₂.result, hl₂.bytes]; exact hb₂.symm
  · have hlen : l₁.length = l₂.length := by simpa using hperm.length_eq
    have hn₁ := countLoop_eq l₁ fuel _ 0 hl₁.seg hfuel
    have hn₂ := countLoop_eq l₂ fuel _ 0 hl₂.seg (by omega)
    rw [Nat.zero_add] at hn₁ hn₂
    rw [← hlen] at hn₂
    exact ⟨hn₁, hn₂⟩

/-- The object is collected in one run and not in the other; both end with an empty heap. -/
theorem schedule_irrelevant_late : ∃ (p₁ p₂ : Prog St) (tr₁ tr₂ : List (Prog St × Act)),
    Run stopTheWorld.Step ⟨.fresh .default, []⟩ tr₁ p₁ ∧ Run stopTheWorld.Step ⟨.fresh .off, []⟩ tr₂ p₂ ∧
    p₁.x.heap.bytesAllocated = 0 ∧ p₂.x.heap.bytesAllocated = 40 ∧
    ∀ fuel₁ fuel₂ s₁ s₂ live₁ live₂, p₁.x.forceCollect fuel₁ = some (s₁, live₁) →
      p₂.x.forceCollect fuel₂ = some (s₂, live₂) → live₁ = live₂ := by
  have h₁ : Run stopTheWorld.Step ⟨.fresh .default, []⟩ _ ⟨_, [7]⟩ :=
    .snoc (.nil _) (.cmd (c := .alloc (.leaf 40)) 7 rfl rfl)
  have h₂ : Run stopTheWorld.Step ⟨.fresh .default, []⟩ _ ⟨_, []⟩ := h₁.snoc (.cmd (c := .drop 0) 8 rfl rfl)
  have hends : ((((St.fresh .default).mutate (.allocate 7 (.leaf 40))).mutate (.dropRoot 7)).forceCollect 3).map
      (fun r => r.1.heap.bytesAllocated) = some 0 := by decide
  obtain ⟨⟨s', live⟩, hf, hbytes⟩ := Option.map_eq_some_iff.1 hends
  have h₃ : Run stopTheWorld.Step ⟨.fresh .default, []⟩ _ ⟨s', []⟩ := h₂.snoc (.collector (.inl ⟨3, live, hf⟩))
  have g₁ : Run stopTheWorld.Step ⟨.fresh .off, []⟩ _ ⟨_, [9]⟩ :=
    .snoc (.nil _) (.cmd (c := .alloc (.leaf 40)) 9 rfl rfl)
  have g₂ : Run stopTheWorld.Step ⟨.fresh .off, []⟩ _ ⟨_, []⟩ := g₁.snoc (.cmd (c := .drop 0) 8 rfl rfl)
  obtain ⟨_, _, _, h⟩ := schedule_irrelevant .default .off (by decide) (by decide) _ _ _ _ h₃ g₂ rfl
  exact ⟨_, _, _, _, h₃, g₂, hbytes, rfl, fun f₁ f₂ s₁ s₂ l₁ l₂ hs₁ hs₂ => (h f₁ f₂ s₁ s₂ l₁ l₂ hs₁ hs₂).1⟩

end StopTheWorld

/-! ## With the background thread -/

section Incremental
open Incremental (Sys Spared)

theorem incremental_keeps {p p' : Sys} {op : Incremental.Op} (hi : Incremental.Inv p) (h : Incremental.Step p op p')
    (hop : ∀ mop, op ≠ .mutate mop) : Keeps p.st.mem p'.st.mem := by
  have hal : ∀ a, p.st.mem.Reachable a → p.st.mem.alive a = true := fun a => hi.wf.alive_of_reachable
  by_cases hm : SweepCycles.Marks op
  · exact .of_same (SweepCycles.marks_same hi.wf h hm) hal
  cases h with
  | @sweep s s' fuel live hs =>
    obtain ⟨l, hl⟩ := hi.wf.listed
    cases hi with
    | complete h hd =>
      obtain ⟨hsw, _, _⟩ := sweepAndFinish_some hl.seg (fun x hx => (hl.alive x).1 hx) hs
      refine swept_keeps hsw fun a ha => ?_
      by_contra hfree
      exact (h.sweep hd hs).2 a (hal a ha) (by simpa using hfree) ha
  | mutate op _ => exact absurd rfl (hop op)
  | _ => exact absurd trivial hm

/-- The cycles of `background_gc_thread` between a program's commands. -/
def incremental : Collector Sys where
  st := Sys.st
  collect := fun p p' => ∃ op, Incremental.Step p op p' ∧ ∀ mop, op ≠ .mutate mop
  mutate := fun p op => ⟨p.st.mutate op, p.pc⟩
  ok := fun p op => Spared p (.mutate op)
  okCollect := fun _ => True
  Inv := Incremental.Inv
  mutate_st := fun _ _ => rfl
  usable := fun _ hi => usable_of_wf hi.wf
  mutate_inv := fun _ _ hi ha hok => Incremental.inv_mutate hi ha hok
  collect_inv := by
    rintro p p' hi ⟨op, hst, hop⟩ _
    refine Incremental.step_inv hi hst ?_
    cases op with
    | mutate mop => exact absurd rfl (hop mop)
    | _ => trivial
  keeps := fun _ _ hi h => incremental_keeps hi h.choose_spec.1 h.choose_spec.2

/-- **Nor can the background thread's cycles**, in a run whose commands all meet `Spared`: while marking is in progress
the program roots no White object that stores White pointers, and puts no White pointers into a new one. -/
theorem incremental_transparent (o : GcOptions) (p : Prog Sys) (tr : List (Prog Sys × Act))
    (h : Run incremental.Step ⟨⟨.fresh o, .waiting⟩, []⟩ tr p) (hok : ∀ e ∈ tr, incremental.Meets e.1 e.2) :
    ∃ i, Store.run (tr.filterMap fun e => e.2.cmd?) = some i ∧ incremental.AsIf p i := by
  obtain ⟨i, hrun, hi, ρ, hrep⟩ := Collector.simulates (C := incremental)
    (.waiting ⟨wf_fresh o, rfl, fun _ _ => rfl⟩) (fun _ => rfl) h hok
  exact ⟨i, hrun, Collector.asIf_of_rep hi hrep⟩

/-- A cycle frees object 1, and meanwhile a new object takes its place on the stack. -/
theorem incremental_transparent_cycle : ∃ (p : Prog Sys) (tr : List (Prog Sys × Act)) (i : Store),
    Run incremental.Step ⟨⟨.fresh .default, .waiting⟩, []⟩ tr p ∧ (∀ e ∈ tr, incremental.Meets e.1 e.2) ∧
    p.x.st.mem.alive 1 = false ∧ p.x.st.mem.alive 2 = true ∧
    Store.run (tr.filterMap fun e => e.2.cmd?) = some i ∧ i.next = 2 ∧ incremental.AsIf p i := by
  have h₀ : Run incremental.Step ⟨⟨.fresh .default, .waiting⟩, []⟩ [] ⟨⟨_, .waiting⟩, []⟩ ∧
      ∀ e ∈ ([] : List (Prog Sys × Act)), incremental.Meets e.1 e.2 := ⟨.nil _, fun e he => by cases he⟩
  have h₁ : Run incremental.Step _ _ ⟨⟨_, .waiting⟩, [1]⟩ ∧ _ :=
    Run.snoc_ok h₀ (.cmd (c := .alloc (.leaf 2000000)) 1 rfl rfl) fun h => by cases h
  have h₂ : Run incremental.Step _ _ ⟨⟨_, .waiting⟩, []⟩ ∧ _ := Run.snoc_ok h₁ (.cmd (c := .drop 0) 8 rfl rfl) trivial
  have h₃ : Run incremental.Step _ _ ⟨⟨_, .marking⟩, []⟩ ∧ _ := Run.snoc_ok h₂ (.collector
    ⟨_, .start 1 (by decide) rfl (Option.eq_some_of_isSome (by decide)), fun _ h => by cases h⟩) trivial
  have h₄ : Run incremental.Step _ _ ⟨⟨_, .marking⟩, [2]⟩ ∧ _ :=
    Run.snoc_ok h₃ (.cmd (c := .alloc (.leaf 8)) 2 rfl rfl) fun _ q hq => by cases hq
  have h₅ : Run incremental.Step _ _ ⟨⟨_, .found⟩, [2]⟩ ∧ _ :=
    Run.snoc_ok h₄ (.collector ⟨_, .mark 100 (by decide), fun _ h => by cases h⟩) trivial
  have h₆ : Run incremental.Step _ _ ⟨⟨_, .complete⟩, [2]⟩ ∧ _ :=
    Run.snoc_ok h₅ (.collector ⟨_, .busyCheck, fun _ h => by cases h⟩) trivial
  have h₇ : Run incremental.Step _ _ ⟨⟨_, .waiting⟩, [2]⟩ ∧ _ := Run.snoc_ok h₆ (.collector
    ⟨.sweep 2, .sweep (Option.eq_some_of_isSome (by decide)), fun _ h => by cases h⟩) trivial
  obtain ⟨i, hrun, has⟩ := incremental_transparent .default _ _ h₇.1 h₇.2
  refine ⟨_, _, i, h₇.1, h₇.2, by decide, by decide, hrun, ?_, has⟩
  cases hrun
  rfl

end Incremental

/-! ## With commands between the rounds of a sweep -/

section Sweeping
open SweepCycles (Sys Undisturbed)

theorem sweeping_keeps {p p' : Sys} {op : SweepCycles.Op} (hi : SweepCycles.Inv p) (h : SweepCycles.Step p op p')
    (hop : ∀ mop, op ≠ .mutate mop) : Keeps p.st.mem p'.st.mem := by
  have hspares : ∀ a, p.st.mem.Reachable a → p'.st.mem.alive a = true := by
    intro a ha
    by_contra hfree
    obtain ⟨prev, freed, hpc, hw⟩ := SweepCycles.step_frees hi h (hi.alive ha) (by simpa using hfree)
    obtain ⟨s, pc⟩ := p
    obtain rfl : pc = .sweep (.walking (some a) prev freed) := hpc
    exact hi.not_reachable hw ha
  cases h with
  | cycle hst hm =>
    cases hi with
    | cycle hi => exact .of_same (SweepCycles.marks_same hi.wf hst hm) fun a => hi.wf.alive_of_reachable
  | @round s a prev freed =>
    obtain ⟨hdata, hroot, hal⟩ := SweepCycles.sweepRound_mem s a prev freed
    exact ⟨hdata, hroot, fun x hx => ((hal x).1 hx).1, hspares⟩
  | mutate op _ => exact absurd rfl (hop op)
  | _ => exact ⟨rfl, rfl, fun _ ha => ha, hspares⟩

theorem usable_of_inv {p : Sys} (h : SweepCycles.Inv p) : Usable p.st.mem := by
  refine ⟨h.noFault, fun a => h.alive, ?_⟩
  cases h with
  | cycle h => exact (usable_of_wf h.wf).free
  | loading h => exact exists_free h.alive
  | walking h _ _ => exact exists_free h.alive
  | ending h => exact (usable_of_wf h.wf).free

/-- The cycles of `background_gc_thread`, with sweeps that go object by object. -/
def sweeping : Collector Sys where
  st := Sys.st
  collect := fun p p' => ∃ op, SweepCycles.Step p op p' ∧ ∀ mop, op ≠ .mutate mop
  mutate := fun p op => ⟨p.st.mutate op, p.pc⟩
  ok := fun p op => Undisturbed p (.mutate op)
  okCollect := fun p => Undisturbed p .round
  Inv := SweepCycles.Inv
  mutate_st := fun _ _ => rfl
  usable := fun _ => usable_of_inv
  mutate_inv := fun _ _ hi ha hok => SweepCycles.inv_mutate hi ha hok
  collect_inv := by
    rintro p p' hi ⟨op, hst, hop⟩ hok
    refine SweepCycles.step_inv hi hst ?_
    cases op with
    | mutate mop => exact absurd rfl (hop mop)
    | round => exact hok
    | _ => trivial
  keeps := fun _ _ hi h => sweeping_keeps hi h.choose_spec.1 h.choose_spec.2

/-- **Nor can its sweeps**, whatever the program does between their rounds, in a run that meets `Undisturbed`. -/
theorem sweeping_transparent (o : GcOptions) (p : Prog Sys) (tr : List (Prog Sys × Act))
    (h : Run sweeping.Step ⟨⟨.fresh o, .cycle .waiting⟩, []⟩ tr p) (hok : ∀ e ∈ tr, sweeping.Meets e.1 e.2) :
    ∃ i, Store.run (tr.filterMap fun e => e.2.cmd?) = some i ∧ sweeping.AsIf p i := by
  obtain ⟨i, hrun, hi, ρ, hrep⟩ := Collector.simulates (C := sweeping)
    (.cycle (.waiting ⟨wf_fresh o, rfl, fun _ _ => rfl⟩)) (fun _ => rfl) h hok
  exact ⟨i, hrun, Collector.asIf_of_rep hi hrep⟩

/-- The sweep has passed `2` when the program allocates `3`; then it frees `1`, and the cycle ends. -/
theorem sweeping_transparent_behind : ∃ (p : Prog Sys) (tr : List (Prog Sys × Act)) (i : Store),
    Run sweeping.Step ⟨⟨.fresh .default, .cycle .waiting⟩, []⟩ tr p ∧ (∀ e ∈ tr, sweeping.Meets e.1 e.2) ∧
    p.env = [3, 2] ∧ p.x.st.mem.alive 1 = false ∧ p.x.pc = .cycle .waiting ∧
    Store.run (tr.filterMap fun e => e.2.cmd?) = some i ∧ i.env = [2, 1] ∧ sweeping.AsIf p i := by
  have h₀ : Run sweeping.Step ⟨⟨.fresh .default, .cycle .waiting⟩, []⟩ [] ⟨⟨_, .cycle .waiting⟩, []⟩ ∧
      ∀ e ∈ ([] : List (Prog Sys × Act)), sweeping.Meets e.1 e.2 := ⟨.nil _, fun e he => by cases he⟩
  have h₁ : Run sweeping.Step _ _ ⟨⟨_, .cycle .waiting⟩, [1]⟩ ∧ _ :=
    Run.snoc_ok h₀ (.cmd (c := .alloc (.leaf 2000000)) 1 rfl rfl) fun h => by cases h
  have h₂ : Run sweeping.Step _ _ ⟨⟨_, .cycle .waiting⟩, [2, 1]⟩ ∧ _ :=
    Run.snoc_ok h₁ (.cmd (c := .alloc (.leaf 8)) 2 rfl rfl) fun h => by cases h
  have h₃ : Run sweeping.Step _ _ ⟨⟨_, .cycle .waiting⟩, [2]⟩ ∧ _ := Run.snoc_ok h₂ (.cmd (c := .drop 1) 8 rfl rfl) trivial
  have h₄ : Run sweeping.Step _ _ ⟨⟨_, .cycle .marking⟩, [2]⟩ ∧ _ := Run.snoc_ok h₃ (.collector
    ⟨_, .cycle (.start 2 (by decide) rfl (Option.eq_some_of_isSome (by decide))) trivial, fun _ h => by cases h⟩) trivial
  have h₅ : Run sweeping.Step _ _ ⟨⟨_, .cycle .marking⟩, [2]⟩ ∧ _ :=
    Run.snoc_ok h₄ (.collector ⟨_, .cycle (.mark 100 (by decide)) trivial, fun _ h => by cases h⟩) trivial
  have h₆ : Run sweeping.Step _ _ ⟨⟨_, .cycle .found⟩, [2]⟩ ∧ _ :=
    Run.snoc_ok h₅ (.collector ⟨_, .cycle (.mark 100 (by decide)) trivial, fun _ h => by cases h⟩) trivial
  have h₇ : Run sweeping.Step _ _ ⟨⟨_, .cycle .complete⟩, [2]⟩ ∧ _ :=
    Run.snoc_ok h₆ (.collector ⟨_, .cycle .busyCheck trivial, fun _ h => by cases h⟩) trivial
  have h₈ : Run sweeping.Step _ _ ⟨⟨_, .sweep .loading⟩, [2]⟩ ∧ _ :=
    Run.snoc_ok h₇ (.collector ⟨_, .startSweep, fun _ h => by cases h⟩) trivial
  have h₉ : Run sweeping.Step _ _ ⟨⟨_, .sweep (.walking (some 2) .head 0)⟩, [2]⟩ ∧ _ :=
    Run.snoc_ok h₈ (.collector ⟨_, .load, fun _ h => by cases h⟩) trivial
  have h₁₀ : Run sweeping.Step _ _ ⟨⟨_, .sweep (.walking (some 1) (.nextOf 2) 0)⟩, [2]⟩ ∧ _ :=
    Run.snoc_ok h₉ (.collector ⟨_, .round, fun _ h => by cases h⟩) fun _ => rfl
  have h₁₁ : Run sweeping.Step _ _ ⟨⟨_, .sweep (.walking (some 1) (.nextOf 2) 0)⟩, [3, 2]⟩ ∧ _ :=
    Run.snoc_ok h₁₀ (.cmd (c := .alloc (.leaf 8)) 3 rfl rfl) fun q hq => by cases hq
  have h₁₂ : Run sweeping.Step _ _ ⟨⟨_, .sweep (.walking none (.nextOf 2) 2000000)⟩, [3, 2]⟩ ∧ _ :=
    Run.snoc_ok h₁₁ (.collector ⟨_, .round, fun _ h => by cases h⟩) trivial
  have h₁₃ : Run sweeping.Step _ _ ⟨⟨_, .ending _⟩, [3, 2]⟩ ∧ _ :=
    Run.snoc_ok h₁₂ (.collector ⟨_, .finish, fun _ h => by cases h⟩) trivial
  have h₁₄ : Run sweeping.Step _ _ ⟨⟨_, .cycle .waiting⟩, [3, 2]⟩ ∧ _ :=
    Run.snoc_ok h₁₃ (.collector ⟨_, .endSweep, fun _ h => by cases h⟩) trivial
  obtain ⟨i, hrun, has⟩ := sweeping_transparent .default _ _ h₁₄.1 h₁₄.2
  refine ⟨_, _, i, h₁₄.1, h₁₄.2, rfl, by decide, rfl, hrun, ?_, has⟩
  cases hrun
  rfl

end Sweeping

end Abfall.Mutator
