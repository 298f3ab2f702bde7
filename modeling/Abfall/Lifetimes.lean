import Abfall.Handles
/-!
# Lifetimes: roots against the heap, and the heap against its background thread

Two ownership schemes meet. A `GcRoot` counts in its object's header and holds no `Arc`, so the strong
count of the heap alone decides when `Drop for Heap` frees every object, rooted or not. A sweep
respects the root counts. So the roots stay valid exactly in the runs where the last `Arc` of a heap
goes after the last root to its objects (`roots_alive_iff`).

The background thread holds an `Arc` of the heap whose drop would stop it. Nothing else stops it when
the last user handle goes, so a heap shuts down exactly in the runs where it is stopped before
(`shut_down_iff`). With the default options every heap starts a background thread.
-/
namespace Abfall.Handles
open Chain Transition
open Contexts (HeapId ThreadId)

variable {w w' : World} {h : HeapId} {op : Op}

/-! ## Roots -/

/-- The `GcRoot` that is dereferenced, cloned or dropped. -/
def Op.touches : Op → Option Addr
  | .cloneRoot a => some a
  | .derefRoot a => some a
  | .dropRoot a => some a
  | _ => none

/-- Every `GcRoot` is to an allocated object. -/
def RootsAlive (w : World) : Prop := ∀ a, 0 < w.roots a → w.mem.alive a = true

/-- The last `Arc` of a heap goes after the last `GcRoot` to its objects. -/
def RootsFirst (w : World) (op : Op) : Prop :=
  ∀ h, op.releases = some h → (w.heaps h).strong = 1 → ∀ a, w.heapOf a = some h → w.roots a = 0

/-- Root counts count the roots of allocated objects. -/
structure RootsOk (w : World) : Prop where
  counts : ∀ a, w.mem.alive a = true → w.mem.rootCount a = w.roots a
  alive : RootsAlive w

theorem roots_init : RootsOk init := ⟨fun a ha => (by cases ha), fun a hpos => (by cases hpos)⟩

theorem RootsOk.rooted (hr : RootsOk w) {a : Addr} (hpos : 0 < w.roots a) : w.mem.Rooted a := by
  have hal := hr.alive a hpos
  exact ⟨hal, by rw [hr.counts a hal]; exact hpos⟩

/-- Marking and sweeping. -/
theorem RootsOk.collects (hr : RootsOk w) {s' : St} (hc : Collects w.mem s'.mem) : RootsOk (w.put h s') := by
  refine ⟨fun a ha => ?_, fun a hpos => hc.rooted a (hr.rooted hpos)⟩
  show s'.mem.rootCount a = w.roots a
  rw [hc.rootCount]
  exact hr.counts a (hc.alive a ha)

/-- A clone, a deref or a drop of a `GcRoot` to `a`. -/
theorem RootsOk.setRoots (hr : RootsOk w) {a : Addr} {m : Mem} {n : Nat} (hpos : 0 < w.roots a)
    (ha : m.alive = w.mem.alive) (hc : m.rootCount = Function.update w.mem.rootCount a n) :
    RootsOk (w.setRoots m a n) := by
  have hal := hr.alive a hpos
  refine ⟨fun x hx => ?_, fun x hx => ?_⟩
  · change m.alive x = true at hx
    show m.rootCount x = Function.update w.roots a n x
    rw [hc]
    by_cases hxa : x = a
    · rw [hxa, Function.update_self, Function.update_self]
    · rw [Function.update_of_ne hxa, Function.update_of_ne hxa]
      rw [ha] at hx
      exact hr.counts x hx
  · show m.alive x = true
    rw [ha]
    by_cases hxa : x = a
    · rw [hxa]; exact hal
    · refine hr.alive x ?_
      simpa [World.setRoots, hxa] using hx

theorem RootsOk.allocate (hr : RootsOk w) {a : Addr} (d : Data) (ha : w.mem.alive a = false) :
    RootsOk (w.allocate h a d) := by
  have hs := (w.view h).assist_same
  have h0 : w.roots a = 0 := by
    by_contra hne
    exact Mem.ne_of_alive ha (hr.alive a (Nat.pos_of_ne_zero hne)) rfl
  refine ⟨fun x hx => ?_, fun x hx => ?_⟩
  · show Function.update (w.view h).assist.mem.rootCount a 1 x = Function.update w.roots a (w.roots a + 1) x
    by_cases hxa : x = a
    · rw [hxa, Function.update_self, Function.update_self, h0]
    · rw [Function.update_of_ne hxa, Function.update_of_ne hxa, hs.rootCount]
      exact hr.counts x ((allocate_alive.1 hx).resolve_left hxa)
  · rw [allocate_alive]
    by_cases hxa : x = a
    · exact .inl hxa
    · refine .inr (hr.alive x ?_)
      simpa [World.allocate, hxa] using hx

/-- Giving up an `Arc` is safe for the roots if they were given up first. -/
theorem RootsOk.releases (hb : Base w) (hr : RootsOk w) (hst : Step w op w') (hop : op.releases = some h)
    (hok : RootsFirst w op) : RootsOk w' := by
  obtain ⟨x, fuel, hg, hrel⟩ := releases_cases hb hst hop
  rcases release_cases hrel with ⟨_, rfl⟩ | ⟨h0, m, hm, rfl⟩
  · exact ⟨hr.counts, hr.alive⟩
  · obtain ⟨ho, hlive⟩ := hb.given hg
    obtain ⟨_, hrc, hal⟩ := ho.gone hlive hm
    rw [set_self] at h0
    refine ⟨fun a ha => ?_, fun a hpos => (hal a).2 ⟨hr.alive a hpos, fun hof => ?_⟩⟩
    · show m.rootCount a = w.roots a
      rw [hrc]
      exact hr.counts a ((hal a).1 ha).1
    · have := hok h hop (by rw [← hg.strong, h0]) a hof
      change 0 < w.roots a at hpos
      omega

theorem roots_step (hb : Base w) (hr : RootsOk w) (hst : Step w op w') (hok : RootsFirst w op) : RootsOk w' := by
  cases hop : op.releases with
  | some h => exact hr.releases hb hst hop hok
  | none =>
    cases hst with
    | allocate h a d _ ha => exact hr.allocate d ha
    | cloneRoot a hpos =>
      have hcount := hr.counts a (hr.alive a hpos)
      exact hr.setRoots hpos rfl (by rw [← hcount]; rfl)
    | derefRoot a hpos =>
      have hcount := hr.counts a (hr.alive a hpos)
      exact hr.setRoots hpos rfl (by rw [← hcount]; exact (Function.update_eq_self a _).symm)
    | dropRoot a hpos =>
      have hcount := hr.counts a (hr.alive a hpos)
      exact hr.setRoots hpos rfl (by rw [← hcount]; rfl)
    | forceCollect h _ hu hc => exact hr.collects (hb.forceCollect (hb.live_of_user hu) hc).2
    | bgStart h _ ht _ hst hr' => exact hr.collects (hb.bgStart (hb.live_of_threads ht) hst hr').2
    | bgMark h _ _ => exact hr.collects (hb.bgMark _).2
    | bgSweep h _ ht _ hs => exact hr.collects (hb.sweep (hb.live_of_threads ht) (.refl _) rfl hs).2
    | bgAbort h _ _ => exact hr.collects (.of_same (.refl _))
    | create h o _ => exact ⟨hr.counts, hr.alive⟩
    | cloneArc h _ => exact ⟨hr.counts, hr.alive⟩
    | withHeap t h _ _ => exact ⟨hr.counts, hr.alive⟩
    | startBackground h _ => exact ⟨hr.counts, hr.alive⟩
    | stopBackground h _ => exact ⟨hr.counts, hr.alive⟩
    | _ => cases hop

/-- `Drop for Heap` frees every object of the heap, so a root to one of them dangles. -/
theorem rootsFirst_of_alive (hb : Base w) (hst : Step w op w') (halive : RootsAlive w') : RootsFirst w op := by
  intro h hop hone a hof
  obtain ⟨x, fuel, hg, hrel⟩ := releases_cases hb hst hop
  have hx : x.strong = 0 := by
    have := hg.strong
    omega
  rcases release_cases hrel with ⟨hpos, _⟩ | ⟨_, m, hm, rfl⟩
  · rw [set_self, hx] at hpos
    cases hpos
  · obtain ⟨ho, hlive⟩ := hb.given hg
    obtain ⟨_, _, hal⟩ := ho.gone hlive hm
    by_contra hne
    exact ((hal a).1 (halive a (Nat.pos_of_ne_zero hne))).2 hof

theorem touches_rooted {a : Addr} (hst : Step w op w') (ht : op.touches = some a) : 0 < w.roots a := by
  cases hst with
  | cloneRoot a hpos => cases ht; exact hpos
  | derefRoot a hpos => cases ht; exact hpos
  | dropRoot a hpos => cases ht; exact hpos
  | _ => cases ht

/-- **A `GcRoot` keeps its object alive** exactly in the runs where the last `Arc` of a heap is given
up after the last root to its objects; every use of a `GcRoot` then touches an allocated object. -/
theorem roots_alive_iff (w : World) (tr : List (World × Op)) (hrun : Run Step init tr w) :
    (((∀ e ∈ tr, RootsAlive e.1) ∧ RootsAlive w) ↔ ∀ e ∈ tr, RootsFirst e.1 e.2) ∧
    ((∀ e ∈ tr, RootsFirst e.1 e.2) → ∀ e ∈ tr, ∀ a, e.2.touches = some a → e.1.mem.alive a = true) := by
  have hiff := run_iff_of_inv (I := fun w => Base w ∧ RootsOk w) (P := RootsAlive) hrun ⟨base_init, roots_init⟩
    (fun _ _ _ hi hst hok => ⟨base_step hi.1 hst, roots_step hi.1 hi.2 hst hok⟩) (fun _ hi => hi.2.alive)
    fun _ _ _ hi hst hp => rootsFirst_of_alive hi.1 hst hp
  refine ⟨hiff, fun hok e he a ht => ?_⟩
  obtain ⟨u, hst⟩ := hrun.step_of_mem e he
  exact (hiff.2 hok).1 e he a (touches_rooted hst ht)

/-- After the first heap was made no thread has a context. -/
theorem no_context (o : GcOptions) (t : ThreadId) (g : HeapId) :
    t ∉ ((init.set 0 (Shared.new o).startBackground).heaps g).ctxs := by
  by_cases hg : g = 0
  · rw [hg, set_self]
    rcases startBackground_cases (Shared.new o) with e | ⟨_, e⟩ <;> rw [e] <;> exact List.not_mem_nil
  · rw [set_ne _ hg]
    exact List.not_mem_nil

/-- A context with `GcOptions::OFF`: the root is dropped before the context. -/
theorem roots_alive_iff_root_first : ∃ tr w, Run Step init tr w ∧ (w.heaps 0).life = .dropped ∧
    w.mem.alive 1 = false ∧ RootsAlive w := by
  have h₁ := (Run.nil init).snoc (Step.create 0 .off rfl)
  have h₂ := h₁.snoc (Step.withHeap 7 0 (by decide) (no_context .off 7))
  have h₃ := h₂.snoc (Step.allocate 0 1 (.leaf 8) (by decide) rfl)
  have h₄ := h₃.snoc (Step.dropRoot 1 (by decide))
  have h₅ := h₄.snoc (Step.dropContext 7 0 1 (by decide) (Option.eq_some_of_isSome (by decide)))
  refine ⟨_, _, h₅, by decide, by decide, ((roots_alive_iff _ _ h₅).1.2 ?_).2⟩
  intro e he
  simp only [List.nil_append, List.cons_append, List.mem_cons, List.not_mem_nil, or_false] at he
  rcases he with rfl | rfl | rfl | rfl | rfl
  case inr.inr.inr.inr =>
    -- object `1` is the only one, and it has no root any more
    intro h _ _ a hof
    obtain rfl : a = 1 := by
      by_contra hne
      simp [World.setRoots, World.allocate, World.put, World.set, init, hne] at hof
    rfl
  all_goals exact fun h hop => by cases hop

/-- The same program with the context dropped first: the object is freed under its `GcRoot`, and the
deref reads freed memory. -/
theorem root_dangles : ∃ tr w w', Run Step init tr w ∧ 0 < w.roots 1 ∧ w.mem.alive 1 = false ∧ ¬ RootsAlive w ∧
    Step w (.derefRoot 1) w' ∧ w'.mem.fault = true := by
  have h₁ := (Run.nil init).snoc (Step.create 0 .off rfl)
  have h₂ := h₁.snoc (Step.withHeap 7 0 (by decide) (no_context .off 7))
  have h₃ := h₂.snoc (Step.allocate 0 1 (.leaf 8) (by decide) rfl)
  have h₄ := h₃.snoc (Step.dropContext 7 0 1 (by decide) (Option.eq_some_of_isSome (by decide)))
  refine ⟨_, _, _, h₄, by decide, by decide, fun halive => ?_, Step.derefRoot 1 (by decide), by decide⟩
  have := halive 1 (by decide)
  revert this
  decide

/-! ## Shutdown -/

/-- A heap without a user handle is dropped with all its objects, or its background threads are
stopped. -/
def ShutDown (w : World) : Prop :=
  ∀ h, (w.heaps h).life ≠ .unused → (w.heaps h).user = 0 →
    ((w.heaps h).life = .dropped ∧ ∀ a, w.heapOf a = some h → w.mem.alive a = false) ∨
    ((w.heaps h).threads ≠ [] ∧ ∀ c ∈ (w.heaps h).threads, (w.heaps h).bg.isStopped c = true)

/-- The last user handle of a heap goes while its background collection is not started. -/
def StoppedFirst (w : World) (op : Op) : Prop :=
  ∀ h, op.releasesUser = some h → (w.heaps h).user = 1 → (w.heaps h).bg.isStarted = false

/-- While a heap without a user handle lives, no generation is running. -/
def Quiet (w : World) : Prop := ∀ h, (w.heaps h).life = .live → (w.heaps h).user = 0 → (w.heaps h).bg.handle = none

theorem Quiet.shutDown (hb : Base w) (hq : Quiet w) : ShutDown w := by
  intro h hused hu
  cases hl : (w.heaps h).life with
  | unused => exact absurd hl hused
  | live =>
    refine .inr ⟨fun ht => ?_, fun c _ => ?_⟩
    · have hpos := (hb.owners h).live.1 hl
      rw [Shared.strong, hu, ht] at hpos
      cases hpos
    · rw [isStopped_iff (hb.owners h).handle, hq h hl hu]
      simp
  | dropped =>
    refine .inl ⟨rfl, fun a hof => ?_⟩
    cases hal : w.mem.alive a with
    | false => rfl
    | true =>
      obtain ⟨g, hg, hlive⟩ := hb.objects.owned a hal
      obtain rfl : h = g := Option.some.inj (hof.symm.trans hg)
      rw [hl] at hlive
      cases hlive

/-- Heap `h` became `x`. -/
theorem Quiet.set (hq : Quiet w) {x : Shared} (hx : x.life = .live → x.user = 0 → x.bg.handle = none) :
    Quiet (w.set h x) := by
  intro g hl hu
  by_cases hg : g = h
  · rw [hg, set_self] at hl hu ⊢
    exact hx hl hu
  · rw [set_ne x hg] at hl hu ⊢
    exact hq g hl hu

theorem Quiet.put (hq : Quiet w) (s : St) : Quiet (w.put h s) := by
  intro g hl hu
  by_cases hg : g = h
  · rw [hg, put_self] at hl hu ⊢
    exact hq h hl hu
  · rw [put_ne s hg] at hl hu ⊢
    exact hq g hl hu

theorem Quiet.releases (hb : Base w) (hq : Quiet w) (hst : Step w op w') (hop : op.releases = some h)
    (hok : StoppedFirst w op) : Quiet w' := by
  obtain ⟨x, fuel, hg, hrel⟩ := releases_cases hb hst hop
  have hset : Quiet (w.set h x) := by
    refine hq.set fun hl hu => ?_
    rw [hg.bg]
    cases huser : op.releasesUser with
    | none =>
      rw [hg.life] at hl
      rw [hg.thread huser] at hu
      exact hq h hl hu
    | some g =>
      have hgh : g = h := by
        cases op <;> simp [Op.releases, Op.releasesUser] at hop huser <;> exact huser.symm.trans hop
      rw [hgh] at huser
      have hstop := hok h huser (by rw [← (hg.user huser).1, hu])
      simpa [StartStop.isStarted] using hstop
  rcases release_cases hrel with ⟨_, rfl⟩ | ⟨_, m, _, rfl⟩
  · exact hset
  · intro g hl hu
    by_cases hgh : g = h
    · rw [hgh, show ((w.set h x).gone h m).heaps h = _ from Function.update_self _ _ _] at hl
      cases hl
    · rw [show ((w.set h x).gone h m).heaps g = _ from Function.update_of_ne hgh _ _] at hl hu ⊢
      exact hset g hl hu

theorem quiet_step (hb : Base w) (hq : Quiet w) (hst : Step w op w') (hok : StoppedFirst w op) : Quiet w' := by
  cases hop : op.releases with
  | some h => exact hq.releases hb hst hop hok
  | none =>
    cases hst with
    | create h o _ =>
      refine hq.set fun _ hu => ?_
      rw [(startBackground_same (Shared.new o)).2.2] at hu
      cases hu
    | cloneArc h hu =>
      refine hq.set fun _ hu' => ?_
      simp only [Shared.user, Shared.withArcs] at hu'
      omega
    | withHeap t h _ _ =>
      refine hq.set fun _ hu' => ?_
      simp [Shared.user, Shared.withCtxs] at hu'
    | startBackground h hu =>
      refine hq.set fun _ hu' => ?_
      rw [(startBackground_same (w.heaps h)).2.2] at hu'
      omega
    | stopBackground h _ => exact hq.set fun _ _ => rfl
    | allocate h a d _ _ => exact hq.put ((w.view h).allocate a d)
    | cloneRoot a _ => exact hq
    | derefRoot a _ => exact hq
    | dropRoot a _ => exact hq
    | forceCollect h _ _ _ => exact hq.put _
    | bgStart h _ _ _ _ _ => exact hq.put _
    | bgMark h _ _ => exact hq.put _
    | bgSweep h _ _ _ _ => exact hq.put _
    | bgAbort h _ _ => exact hq.put _
    | _ => cases hop

/-- The thread of a running generation keeps the heap, and does not see a stop. -/
theorem stoppedFirst_of_shutDown (hb : Base w) (hst : Step w op w') (hs : ShutDown w') : StoppedFirst w op := by
  intro h huser hone
  have hop : op.releases = some h := by
    cases op <;> simp [Op.releasesUser] at huser <;> simp [Op.releases, huser]
  obtain ⟨x, fuel, hg, hrel⟩ := releases_cases hb hst hop
  cases hhandle : (w.heaps h).bg.handle with
  | none => simp [StartStop.isStarted, hhandle]
  | some c =>
    exfalso
    have hc : x.bg.handle = some c := by rw [hg.bg]; exact hhandle
    have hmem := (hg.handle c hc).1
    obtain ⟨_, hlive⟩ := hb.given hg
    rcases release_cases hrel with ⟨_, rfl⟩ | ⟨h0, _⟩
    · have hu : ((w.set h x).heaps h).user = 0 := by
        have := (hg.user huser).1
        rw [set_self]
        omega
      rcases hs h (by rw [hlive]; simp) hu with ⟨hd, _⟩ | ⟨_, hstop⟩
      · rw [hlive] at hd
        cases hd
      · rw [set_self] at hstop
        exact (isStopped_iff hg.handle c).1 (hstop c hmem) hc
    · rw [set_self] at h0
      have := List.length_pos_of_mem hmem
      unfold Shared.strong at h0
      omega

/-- **Dropping the last user handle shuts the heap down** exactly in the runs where that happens while
the heap's background collection is not started. -/
theorem shut_down_iff (w : World) (tr : List (World × Op)) (hrun : Run Step init tr w) :
    ((∀ e ∈ tr, ShutDown e.1) ∧ ShutDown w) ↔ ∀ e ∈ tr, StoppedFirst e.1 e.2 := by
  have h0 : Base init ∧ Quiet init := ⟨base_init, fun h hl => by cases hl⟩
  exact run_iff_of_inv (I := fun w => Base w ∧ Quiet w) hrun h0
    (fun _ _ _ hi hst hok => ⟨base_step hi.1 hst, quiet_step hi.1 hi.2 hst hok⟩)
    (fun _ hi => hi.2.shutDown hi.1) fun _ _ _ hi hst hs => stoppedFirst_of_shutDown hi.1 hst hs

/-- The background thread of a default heap is stopped and ends before the context is dropped. -/
theorem shut_down_iff_stopped_first : ∃ tr w, Run Step init tr w ∧ (w.heaps 0).life = .dropped ∧ ShutDown w := by
  have h₁ := (Run.nil init).snoc (Step.create 0 .default rfl)
  have h₂ := h₁.snoc (Step.withHeap 7 0 (by decide) (no_context .default 7))
  have h₃ := h₂.snoc (Step.stopBackground 0 (by decide))
  have h₄ := h₃.snoc (Step.bgEnd 0 1 0 (by decide) (by decide) (Option.eq_some_of_isSome (by decide)))
  have h₅ := h₄.snoc (Step.dropContext 7 0 0 (by decide) (Option.eq_some_of_isSome (by decide)))
  refine ⟨_, _, h₅, by decide, ((shut_down_iff _ _ h₅).2 ?_).2⟩
  intro e he
  simp only [List.nil_append, List.cons_append, List.mem_cons, List.not_mem_nil, or_false] at he
  rcases he with rfl | rfl | rfl | rfl | rfl
  case inr.inr.inr.inr =>
    intro h hop _
    obtain rfl : 0 = h := Option.some.inj hop
    decide
  all_goals exact fun h hop => by cases hop

/-- `GcContext::new`, one object whose root is dropped, and the context dropped: the background thread
keeps the heap and its object, and no stop was asked for. -/
theorem heap_outlives_handles : ∃ tr w, Run Step init tr w ∧ (w.heaps 0).user = 0 ∧ (w.heaps 0).life = .live ∧
    w.mem.alive 1 = true ∧ (w.heaps 0).threads = [1] ∧ (w.heaps 0).bg.isStopped 1 = false ∧ ¬ ShutDown w := by
  have h₁ := (Run.nil init).snoc (Step.create 0 .default rfl)
  have h₂ := h₁.snoc (Step.withHeap 7 0 (by decide) (no_context .default 7))
  have h₃ := h₂.snoc (Step.allocate 0 1 (.leaf 8) (by decide) rfl)
  have h₄ := h₃.snoc (Step.dropRoot 1 (by decide))
  have h₅ := h₄.snoc (Step.dropContext 7 0 0 (by decide) (Option.eq_some_of_isSome (by decide)))
  refine ⟨_, _, h₅, by decide, by decide, by decide, by decide, by decide, fun hs => ?_⟩
  rcases hs 0 (by decide) (by decide) with ⟨hd, _⟩ | ⟨_, hstop⟩
  · revert hd
    decide
  · have := hstop 1 (by decide)
    revert this
    decide

end Abfall.Handles
