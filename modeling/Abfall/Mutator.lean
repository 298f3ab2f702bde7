import Abfall.Incremental
import Abfall.StopTheWorld
/-!
# Programs over the heap, and what they mean without a collector

| here | there |
| --- | --- |
| `Cmd.alloc`             | `Heap::allocate` (`heap.rs:280`) of a value whose `GcPtr`s come from live roots (`GcRoot::as_ptr`, `ptr.rs:108`) |
| `Cmd.clone`, `Cmd.drop` | `Clone` and `Drop for GcRoot` (`ptr.rs:125-141`) |
| `Cmd.load`              | `GcCell::get`, then `GcPtr::root` of a pointer in it (`cell.rs:36`, `ptr.rs:45`) |
| `Cmd.store`             | `GcCell::set` of pointers of live roots (`cell.rs:44`) |

A program keeps its `GcRoot`s on a stack and names them by their position, so it has no addresses in
its hands. `Cmd.op` is the heap operation a command makes, given the address the allocator returns.

`Store` is what the program is written for: objects are numbered as they come and live forever. `Rep`
says that a heap looks like a store from the stack, up to a renaming of the objects the program can
reach; whichever address the allocator picks, a command on both keeps it (`Rep.cmd`).
-/
namespace Abfall
open Chain Transition

/-- The value with its pointers renamed. -/
def Data.map (f : Addr → Addr) (d : Data) : Data where
  noTrace := d.noTrace
  size := d.size
  cells := d.cells.map (List.map f)
  noTrace_cells := fun h => by rw [d.noTrace_cells h]; rfl

theorem Data.map_ptrs (f : Addr → Addr) (d : Data) : (d.map f).ptrs = d.ptrs.map f := by
  simp [Data.ptrs, Data.map, List.map_flatten]

theorem Data.map_congr {f g : Addr → Addr} {d : Data} (h : ∀ p ∈ d.ptrs, f p = g p) : d.map f = d.map g := by
  have hcells : d.cells.map (List.map f) = d.cells.map (List.map g) := by
    refine List.map_congr_left fun c hc => List.map_congr_left fun p hp => h p ?_
    exact List.mem_flatten.2 ⟨c, hc, hp⟩
  simp [Data.map, hcells]

theorem Data.map_map (f g : Addr → Addr) (d : Data) : (d.map f).map g = d.map fun p => g (f p) := by
  simp [Data.map, Function.comp_def]

theorem Data.map_setCell (f : Addr → Addr) (d : Data) (k : Nat) (vals : List Addr) :
    (d.setCell k vals).map f = (d.map f).setCell k (vals.map f) := by
  simp [Data.map, Data.setCell, List.map_set]

namespace Mutator

/-- A command; the `GcRoot`s it uses are positions on the stack, and so are the pointers of `alloc`'s value. -/
inductive Cmd
  | alloc (d : Data)
  | clone (n : Nat)
  | drop (n : Nat)
  | load (n k j : Nat)
  | store (n k : Nat) (js : List Nat)

/-! ## A store that keeps everything -/

structure Store where
  /-- How many objects were made. -/
  next : Nat
  obj : Nat → Data
  env : List Nat

namespace Store

def empty : Store := ⟨0, fun _ => .leaf 0, []⟩

def withEnv (i : Store) (env : List Nat) : Store := { i with env := env }

def exec (i : Store) : Cmd → Option Store
  | .alloc d =>
    if ∀ p ∈ d.ptrs, p < i.env.length then
      some ⟨i.next + 1, Function.update i.obj i.next (d.map (i.env.getD · 0)), i.next :: i.env⟩
    else none
  | .clone n => i.env[n]?.map fun o => i.withEnv (o :: i.env)
  | .drop n => i.env[n]?.map fun _ => i.withEnv (i.env.eraseIdx n)
  | .load n k j => do
    let o ← i.env[n]?
    let cell ← (i.obj o).cells[k]?
    let p ← cell[j]?
    some (i.withEnv (p :: i.env))
  | .store n k js => do
    let o ← i.env[n]?
    if k < (i.obj o).cells.length ∧ ∀ j ∈ js, j < i.env.length then
      some { i with obj := Function.update i.obj o ((i.obj o).setCell k (js.map (i.env.getD · 0))) }
    else none

/-- What a program does. -/
def run (cmds : List Cmd) : Option Store := cmds.foldlM exec empty

end Store

/-! ## The heap operation of a command -/

/-- The operation a command makes on a heap, and the stack after it; `a` is the address of a new box. -/
def Cmd.op (m : Mem) (env : List Addr) (a : Addr) : Cmd → Option (MutOp × List Addr)
  | .alloc d =>
    if ∀ p ∈ d.ptrs, p < env.length then some (.allocate a (d.map (env.getD · 0)), a :: env) else none
  | .clone n => env[n]?.map fun b => (.clone b, b :: env)
  | .drop n => env[n]?.map fun b => (.dropRoot b, env.eraseIdx n)
  | .load n k j => do
    let o ← env[n]?
    let cell ← (m.data o).cells[k]?
    let p ← cell[j]?
    some (.root p, p :: env)
  | .store n k js => do
    let o ← env[n]?
    if k < (m.data o).cells.length ∧ ∀ j ∈ js, j < env.length then
      some (.set o k (js.map (env.getD · 0)), env)
    else none

/-! ## What a mutator's operation does to the objects -/

section Mutate
variable (s : St)

theorem mutate_allocate (a : Addr) (d : Data) :
    (s.mutate (.allocate a d)).mem.alive = Function.update s.mem.alive a true ∧
    (s.mutate (.allocate a d)).mem.rootCount = Function.update s.mem.rootCount a 1 ∧
    (s.mutate (.allocate a d)).mem.data = Function.update s.mem.data a d := by
  have h := s.assist_same
  refine ⟨?_, ?_, ?_⟩
  · rw [← h.alive]; rfl
  · rw [← h.rootCount]; rfl
  · rw [← h.data]; rfl

theorem mutate_set (o : Addr) (k : Nat) (vals : List Addr) :
    (s.mutate (.set o k vals)).mem.alive = s.mem.alive ∧
    (s.mutate (.set o k vals)).mem.rootCount = s.mem.rootCount ∧
    (s.mutate (.set o k vals)).mem.data = Function.update s.mem.data o ((s.mem.data o).setCell k vals) := by
  have h := s.barrier_same vals
  refine ⟨h.alive, h.rootCount, ?_⟩
  rw [← h.data]
  rfl

end Mutate

/-! ## A heap that stands for a store -/

/-- The objects a program can reach are those of the store, renamed by `ρ`; its roots are counted. -/
structure Rep (ρ : Addr → Nat) (m : Mem) (env : List Addr) (i : Store) : Prop where
  counts : ∀ a, m.alive a = true → m.rootCount a = env.count a
  held : ∀ a ∈ env, m.alive a = true
  env : i.env = env.map ρ
  inj : ∀ a b, m.Reachable a → m.Reachable b → ρ a = ρ b → a = b
  lt : ∀ a, m.Reachable a → ρ a < i.next
  obj : ∀ a, m.Reachable a → i.obj (ρ a) = (m.data a).map ρ

theorem getD_mem {l : List Nat} {n : Nat} (h : n < l.length) : l.getD n 0 ∈ l := by
  simp [List.getD, List.getElem?_eq_getElem h]

theorem getD_map {l : List Nat} {n : Nat} (f : Nat → Nat) (h : n < l.length) : (l.map f).getD n 0 = f (l.getD n 0) := by
  simp [List.getD, List.getElem?_eq_getElem h]

namespace Rep
variable {ρ : Addr → Nat} {m : Mem} {env : List Addr} {i : Store}

theorem rooted (h : Rep ρ m env i) {a : Addr} (ha : a ∈ env) : m.Rooted a := by
  refine ⟨h.held a ha, ?_⟩
  rw [h.counts a (h.held a ha)]
  exact List.count_pos_iff.2 ha

theorem reachable (h : Rep ρ m env i) {a : Addr} (ha : a ∈ env) : m.Reachable a := (h.rooted ha).reachable

theorem mem_of_rooted (h : Rep ρ m env i) {a : Addr} (ha : m.Rooted a) : a ∈ env := by
  have hc := ha.2
  rw [h.counts a ha.1] at hc
  exact List.count_pos_iff.1 hc

theorem length (h : Rep ρ m env i) : i.env.length = env.length := by rw [h.env, List.length_map]

theorem get (h : Rep ρ m env i) (n : Nat) : i.env[n]? = env[n]?.map ρ := by rw [h.env, List.getElem?_map]

/-- The pointers of stack positions. -/
theorem getD (h : Rep ρ m env i) {n : Nat} (hn : n < env.length) : i.env.getD n 0 = ρ (env.getD n 0) := by
  rw [h.env, getD_map ρ hn]

theorem map_getD (h : Rep ρ m env i) {js : List Nat} (hjs : ∀ j ∈ js, j < env.length) :
    js.map (i.env.getD · 0) = (js.map (env.getD · 0)).map ρ := by
  rw [List.map_map]
  exact List.map_congr_left fun j hj => h.getD (hjs j hj)

theorem cells (h : Rep ρ m env i) {o : Addr} (ho : m.Reachable o) :
    (i.obj (ρ o)).cells = (m.data o).cells.map (List.map ρ) := by rw [h.obj o ho]; rfl

/-- Only what is reachable, its contents and the root counts matter. -/
theorem shrink {m' : Mem} {env' : List Addr} (h : Rep ρ m env i) (hdata : m'.data = m.data)
    (hcounts : ∀ a, m'.alive a = true → m'.rootCount a = env'.count a) (hheld : ∀ a ∈ env', m'.alive a = true)
    (hsub : ∀ a, m'.Reachable a → m.Reachable a) : Rep ρ m' env' (i.withEnv (env'.map ρ)) := by
  refine ⟨hcounts, hheld, rfl, fun a b ha hb => h.inj a b (hsub a ha) (hsub b hb), fun a ha => h.lt a (hsub a ha),
    fun a ha => ?_⟩
  rw [hdata]
  exact h.obj a (hsub a ha)

theorem edge_of_data {m' : Mem} (hdata : m'.data = m.data) {a b : Addr} (he : m'.Edge a b) : m.Edge a b := by
  unfold Mem.Edge Mem.ptrs at he ⊢
  rwa [hdata] at he

end Rep

/-! ## One command -/

section Cmd
variable {ρ : Addr → Nat} {s : St} {env : List Addr} {i : Store}

/-- One root more. -/
theorem Rep.root (h : Rep ρ s.mem env i) {b : Addr} (hb : s.mem.Reachable b) (hal : s.mem.alive b = true) :
    Rep ρ (s.mem.incRoot b) (b :: env) (i.withEnv (ρ b :: i.env)) := by
  rw [h.env, ← List.map_cons]
  refine h.shrink rfl (fun x hx => ?_) (fun x hx => ?_) fun x hx => ?_
  · show Function.update s.mem.rootCount b (s.mem.rootCount b + 1) x = _
    by_cases hxb : x = b
    · subst hxb; rw [Function.update_self, List.count_cons_self, h.counts x hal]
    · rw [Function.update_of_ne hxb, List.count_cons_of_ne (Ne.symm hxb)]; exact h.counts x hx
  · rcases List.mem_cons.1 hx with rfl | hx
    · exact hal
    · exact h.held x hx
  · have hok : MutOp.Allowed s.mem.Reachable s (.root b) := hb
    exact (St.reachable_of_mutate hok hx).resolve_right fun hnew => (by obtain ⟨_, e⟩ := hnew; cases e)

/-- One root less. -/
theorem Rep.drop (h : Rep ρ s.mem env i) {n : Nat} {b : Addr} (hn : env[n]? = some b) :
    Rep ρ (s.mem.decRoot b) (env.eraseIdx n) (i.withEnv (i.env.eraseIdx n)) := by
  obtain ⟨hlt, rfl⟩ := List.getElem?_eq_some_iff.1 hn
  have hperm := List.getElem_cons_eraseIdx_perm hlt
  have hal : s.mem.alive env[n] = true := h.held _ (List.getElem_mem hlt)
  rw [h.env, List.eraseIdx_map]
  refine h.shrink rfl (fun x hx => ?_) (fun x hx => ?_) fun x hx => ?_
  · have hc : env.count x = (env[n] :: env.eraseIdx n).count x := (hperm.count_eq x).symm
    show Function.update s.mem.rootCount env[n] (s.mem.rootCount env[n] - 1) x = _
    by_cases hxb : x = env[n]
    · rw [hxb, Function.update_self, h.counts _ hal, ← hxb, hc, hxb, List.count_cons_self]
      rfl
    · rw [Function.update_of_ne hxb, h.counts x hx, hc, List.count_cons_of_ne (Ne.symm hxb)]
  · exact h.held x (List.mem_of_mem_eraseIdx hx)
  · have hok : MutOp.Allowed s.mem.Reachable s (.dropRoot env[n]) := h.rooted (List.getElem_mem hlt)
    exact (St.reachable_of_mutate hok hx).resolve_right fun hnew => (by obtain ⟨_, e⟩ := hnew; cases e)

/-- A new object gets the next number. -/
theorem Rep.alloc (h : Rep ρ s.mem env i) (hold : ∀ x, s.mem.Reachable x → s.mem.alive x = true) {a : Addr} {d : Data} (hd : ∀ p ∈ d.ptrs, p < env.length)
    (hok : MutOp.Allowed s.mem.Reachable s (.allocate a (d.map (env.getD · 0)))) :
    Rep (Function.update ρ a i.next) (s.mutate (.allocate a (d.map (env.getD · 0)))).mem (a :: env)
      ⟨i.next + 1, Function.update i.obj i.next (d.map (i.env.getD · 0)), i.next :: i.env⟩ := by
  obtain ⟨halive, hcount, hdata⟩ := mutate_allocate s a (d.map (env.getD · 0))
  have hne : ∀ {x}, s.mem.alive x = true → x ≠ a := Mem.ne_of_alive hok.1
  have hρ : ∀ {x}, s.mem.alive x = true → Function.update ρ a i.next x = ρ x := fun hx => Function.update_of_ne (hne hx) _ _
  have hsub : ∀ x, (s.mutate (.allocate a (d.map (env.getD · 0)))).mem.Reachable x → x = a ∨ s.mem.Reachable x := by
    intro x hx
    rcases St.reachable_of_mutate hok hx with hx | ⟨_, e⟩
    · exact .inr hx
    · cases e
      exact .inl rfl
  refine ⟨fun x hx => ?_, fun x hx => ?_, ?_, fun x y hx hy e => ?_, fun x hx => ?_, fun x hx => ?_⟩
  · rw [hcount]
    by_cases hxa : x = a
    · have hno : a ∉ env := fun hm => hne (h.held a hm) rfl
      rw [hxa, Function.update_self, List.count_cons_self, List.count_eq_zero.2 hno]
    · rw [halive, Function.update_of_ne hxa] at hx
      rw [Function.update_of_ne hxa, List.count_cons_of_ne (Ne.symm hxa), h.counts x hx]
  · rw [halive]
    rcases List.mem_cons.1 hx with rfl | hx
    · rw [Function.update_self]
    · rw [Function.update_of_ne (hne (h.held x hx))]
      exact h.held x hx
  · show i.next :: i.env = _
    rw [List.map_cons, Function.update_self, h.env]
    exact congrArg _ (List.map_congr_left fun x hx => (hρ (h.held x hx)).symm)
  · rcases hsub x hx with hxa | hx' <;> rcases hsub y hy with hya | hy'
    · rw [hxa, hya]
    · rw [hxa, Function.update_self, hρ (hold y hy')] at e
      exact absurd e (Nat.ne_of_gt (h.lt y hy'))
    · rw [hya, Function.update_self, hρ (hold x hx')] at e
      exact absurd e (Nat.ne_of_lt (h.lt x hx'))
    · rw [hρ (hold x hx'), hρ (hold y hy')] at e
      exact h.inj x y hx' hy' e
  · rcases hsub x hx with rfl | hx
    · rw [Function.update_self]
      exact Nat.lt_succ_self _
    · rw [hρ (hold x hx)]
      exact Nat.lt_succ_of_lt (h.lt x hx)
  · show Function.update i.obj i.next (d.map (i.env.getD · 0)) (Function.update ρ a i.next x) = _
    rw [hdata]
    rcases hsub x hx with rfl | hx
    · rw [Function.update_self, Function.update_self, Function.update_self, Data.map_map]
      refine Data.map_congr fun p hp => ?_
      rw [hρ (h.held _ (getD_mem (hd p hp))), h.getD (hd p hp)]
    · rw [hρ (hold x hx), Function.update_of_ne (Nat.ne_of_lt (h.lt x hx)), Function.update_of_ne (hne (hold x hx)),
        h.obj x hx]
      refine Data.map_congr fun p hp => (hρ (hold p (hx.next hp))).symm

/-- A store into a cell of a reachable object. -/
theorem Rep.store (h : Rep ρ s.mem env i) {o : Addr} {k : Nat} {js : List Nat} (ho : s.mem.Reachable o)
    (hjs : ∀ j ∈ js, j < env.length) (hok : MutOp.Allowed s.mem.Reachable s (.set o k (js.map (env.getD · 0)))) :
    Rep ρ (s.mutate (.set o k (js.map (env.getD · 0)))).mem env
      { i with obj := Function.update i.obj (ρ o) ((i.obj (ρ o)).setCell k (js.map (i.env.getD · 0))) } := by
  obtain ⟨halive, hcount, hdata⟩ := mutate_set s o k (js.map (env.getD · 0))
  have hsub : ∀ x, (s.mutate (.set o k (js.map (env.getD · 0)))).mem.Reachable x → s.mem.Reachable x := fun x hx =>
    (St.reachable_of_mutate hok hx).resolve_right fun hnew => (by obtain ⟨_, e⟩ := hnew; cases e)
  refine ⟨fun x hx => ?_, fun x hx => ?_, h.env, fun x y hx hy => h.inj x y (hsub x hx) (hsub y hy),
    fun x hx => h.lt x (hsub x hx), fun x hx => ?_⟩
  · rw [halive] at hx
    rw [hcount]
    exact h.counts x hx
  · rw [halive]
    exact h.held x hx
  · show Function.update i.obj (ρ o) ((i.obj (ρ o)).setCell k (js.map (i.env.getD · 0))) (ρ x) = _
    rw [hdata]
    by_cases hxo : x = o
    · rw [hxo, Function.update_self, Function.update_self, Data.map_setCell, h.obj o ho, h.map_getD hjs]
    · have hne : ρ x ≠ ρ o := fun e => hxo (h.inj x o (hsub x hx) ho e)
      rw [Function.update_of_ne hne, Function.update_of_ne hxo]
      exact h.obj x (hsub x hx)

/-- A command makes an operation that a mutator may make, and the store makes the same command. -/
theorem Rep.cmd (h : Rep ρ s.mem env i) (hal : ∀ x, s.mem.Reachable x → s.mem.alive x = true) {a : Addr}
    (ha : s.mem.alive a = false) {c : Cmd} {op : MutOp} {env' : List Addr} (hop : c.op s.mem env a = some (op, env')) :
    op.Allowed s.mem.Reachable s ∧ ∃ i' ρ', i.exec c = some i' ∧ Rep ρ' (s.mutate op).mem env' i' := by
  cases c with
  | alloc d =>
    simp only [Cmd.op] at hop
    split at hop
    · rename_i hd
      cases hop
      have hok : MutOp.Allowed s.mem.Reachable s (.allocate a (d.map (env.getD · 0))) := by
        refine ⟨ha, fun p hp => ?_⟩
        rw [Data.map_ptrs] at hp
        obtain ⟨n, hn, rfl⟩ := List.mem_map.1 hp
        exact h.reachable (getD_mem (hd n hn))
      refine ⟨hok, _, _, ?_, h.alloc hal hd hok⟩
      rw [← h.length] at hd
      exact if_pos hd
    · cases hop
  | clone n =>
    obtain ⟨b, hb, e⟩ := Option.map_eq_some_iff.1 hop
    cases e
    have hm : b ∈ env := List.mem_of_getElem? hb
    refine ⟨h.rooted hm, _, ρ, ?_, h.root (h.reachable hm) (h.held b hm)⟩
    simp [Store.exec, h.get, hb]
  | drop n =>
    obtain ⟨b, hb, e⟩ := Option.map_eq_some_iff.1 hop
    cases e
    refine ⟨h.rooted (List.mem_of_getElem? hb), _, ρ, ?_, h.drop hb⟩
    simp [Store.exec, h.get, hb]
  | load n k j =>
    simp only [Cmd.op, Option.bind_eq_bind, Option.bind_eq_some_iff, Option.some.injEq, Prod.mk.injEq] at hop
    obtain ⟨o, ho, c, hc, p, hp, rfl, rfl⟩ := hop
    have hor : s.mem.Reachable o := h.reachable (List.mem_of_getElem? ho)
    have hpr : s.mem.Reachable p :=
      hor.next (List.mem_flatten.2 ⟨c, List.mem_of_getElem? hc, List.mem_of_getElem? hp⟩)
    refine ⟨hpr, _, ρ, ?_, h.root hpr (hal p hpr)⟩
    simp [Store.exec, h.get, ho, h.cells hor, hc, hp]
  | store n k js =>
    simp only [Cmd.op, Option.bind_eq_bind, Option.bind_eq_some_iff] at hop
    obtain ⟨o, ho, hop⟩ := hop
    split at hop
    · rename_i hk
      cases hop
      have hm : o ∈ env := List.mem_of_getElem? ho
      have hor := h.reachable hm
      have hok : MutOp.Allowed s.mem.Reachable s (.set o k (js.map (env.getD · 0))) := by
        refine ⟨h.held o hm, hk.1, fun p hp => ?_⟩
        obtain ⟨j, hj, rfl⟩ := List.mem_map.1 hp
        exact h.reachable (getD_mem (hk.2 j hj))
      refine ⟨hok, _, ρ, ?_, h.store hor hk.2 hok⟩
      have hcell : k < (i.obj (ρ o)).cells.length ∧ ∀ j ∈ js, j < i.env.length := by
        rw [h.cells hor, h.length, List.length_map]
        exact hk
      simp only [Store.exec, h.get, ho, Option.map_some, Option.bind_eq_bind, Option.bind_some]
      rw [if_pos hcell]
    · cases hop

/-- The heap is never in the way of a command, nor does it allow more. -/
theorem Rep.enabled (h : Rep ρ s.mem env i) (a : Addr) (c : Cmd) : (c.op s.mem env a).isSome = (i.exec c).isSome := by
  cases c with
  | alloc d =>
    simp only [Cmd.op, Store.exec, h.length]
    split <;> rfl
  | clone n => simp [Cmd.op, Store.exec, h.get]
  | drop n => simp [Cmd.op, Store.exec, h.get]
  | load n k j =>
    simp only [Cmd.op, Store.exec, h.get]
    cases ho : env[n]? with
    | none => rfl
    | some o =>
      have hcells := h.cells (h.reachable (List.mem_of_getElem? ho))
      simp only [Option.map_some, Option.bind_eq_bind, Option.bind_some, hcells, List.getElem?_map]
      cases hc : (s.mem.data o).cells[k]? with
      | none => rfl
      | some cell =>
        simp only [Option.map_some, Option.bind_some, List.getElem?_map]
        cases hp : cell[j]? <;> rfl
  | store n k js =>
    simp only [Cmd.op, Store.exec, h.get]
    cases ho : env[n]? with
    | none => rfl
    | some o =>
      have hcells := h.cells (h.reachable (List.mem_of_getElem? ho))
      simp only [Option.map_some, Option.bind_eq_bind, Option.bind_some, hcells, List.length_map, h.length]
      split <;> rfl

end Cmd

end Mutator

end Abfall
