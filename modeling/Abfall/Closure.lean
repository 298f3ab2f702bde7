import Abfall.Mark
/-!
# A full marking phase computes a closure

`do_mark_roots` followed by `do_mark_work_full`, seen as the worklist search of `Abfall.Worklist` over
the stored pointers: the seen objects are those that are not White, the pending ones wait in the
tracer or in the shared queue. `Marked` is what one phase shades, from **any** colors and any queue it
finds: everything on a White path from a queued object or from a White root. A phase that starts with
White objects and an empty queue shades exactly the reachable objects (`marked_iff_reachable`).
-/
namespace Abfall
open Chain Worklist

/-- Objects that have been shaded. -/
def seen (m : Mem) : Set Addr := {x | m.color x ≠ .white}

/-- The state of a marking phase over the memory `m₀` it started in, as a worklist search from the
seen objects `S₀` and the pending ones `P₀`. -/
def MarkInv (m₀ : Mem) (S₀ P₀ : Set Addr) (m : Mem) (W : Set Addr) : Prop :=
  m₀.SameObjects m ∧ Worklist.Inv m₀.Edge S₀ P₀ (seen m) W

theorem seen_setColor (m : Mem) (a : Addr) {c : Color} (hc : c ≠ .white) :
    seen (m.setColor a c) = insert a (seen m) := by
  ext x
  simp only [seen, Mem.setColor_color, Set.mem_ofPred_eq, Set.mem_insert_iff]
  by_cases h : x = a <;> simp [h, hc]

variable {m₀ m : Mem} {S₀ P₀ V W : Set Addr}

/-- Shading a successor of a waiting object. -/
theorem MarkInv.mark {a p : Addr} {t : Tracer} (h : MarkInv m₀ S₀ P₀ m (V ∪ {x | x ∈ t})) (ha : a ∈ V)
    (he : m₀.Edge a p) :
    MarkInv m₀ S₀ P₀ (m.mark t p).1 (V ∪ {x | x ∈ (m.mark t p).2}) := by
  obtain ⟨hs, hi⟩ := h
  refine ⟨hs.trans (m.mark_same t p), ?_⟩
  rcases m.mark_cases t p with ⟨hn, e⟩ | ⟨hw, e⟩ | ⟨_, e⟩ <;> rw [e]
  · -- blackened at once: a `NO_TRACE` object has no successors, so it need not wait
    rw [seen_setColor _ _ (by decide)]
    show Worklist.Inv _ _ _ (insert p (seen m)) _
    by_cases hp : p ∈ seen m
    · rw [Set.insert_eq_of_mem hp]; exact hi
    · have hd := hi.discover (.inl ha) he hp
      refine hd.finish (Set.subset_insert p _) fun z hz hz' => ?_
      have hzp : z = p := hz.resolve_right hz'
      subst hzp
      refine ⟨Set.mem_insert z _, fun y hy => absurd hy ?_⟩
      rw [← hs.edge]
      exact Mem.not_edge_of_noTrace hn
  · rw [seen_setColor _ _ (by decide)]
    have hd := hi.discover (.inl ha) he (by simp [seen, hw])
    have hset : V ∪ {x | x ∈ p :: t} = insert p (V ∪ {x | x ∈ t}) := by
      ext x; simp only [Set.mem_union, Set.mem_ofPred_eq, List.mem_cons, Set.mem_insert_iff]; tauto
    rw [hset]
    exact hd
  · exact hi

/-- Processing a waiting object is a few discoveries and then its end. -/
theorem markInv_process (m₀ : Mem) (S₀ P₀ : Set Addr) : ProcessKeeps (MarkInv m₀ S₀ P₀) := by
  intro m t q a h
  have hm := h.1
  -- invariant of the trace: `a` and the queue wait, and so does what the tracer has collected
  have htr : MarkInv m₀ S₀ P₀ ((m.touch a).trace t a).1
      (insert a {x | x ∈ q} ∪ {x | x ∈ ((m.touch a).trace t a).2}) := by
    have h0 : MarkInv m₀ S₀ P₀ (m.touch a) (insert a {x | x ∈ q} ∪ {x | x ∈ t}) := by
      refine ⟨hm.trans (m.touch_same a), ?_⟩
      have : insert a {x | x ∈ q} ∪ {x | x ∈ t} = insert a (waiting t q) := by
        ext x; simp only [waiting, Set.mem_union, Set.mem_insert_iff, Set.mem_ofPred_eq]; tauto
      rw [this]
      exact h.2
    unfold Mem.trace
    split
    · exact h0
    · refine Mem.markAll_rule (K := fun m' t' => MarkInv m₀ S₀ P₀ m' (insert a {x | x ∈ q} ∪ {x | x ∈ t'}))
        (fun m' t' p hp hk => hk.mark (Set.mem_insert a _) ?_) h0
      rw [← hm.edge]
      exact hp
  have hsucc : ∀ y, m₀.Edge a y → y ∈ seen ((m.touch a).trace t a).1 := fun y hy => by
    rw [← hm.edge] at hy
    exact Mem.trace_nonwhite (m := m.touch a) hy
  refine ⟨htr.1.trans (Mem.setColor_same _ a _), ?_⟩
  show Worklist.Inv _ _ _ (seen (Mem.setColor _ a .black)) _
  rw [seen_setColor _ _ (by decide)]
  refine (htr.2.see (.inl (Set.mem_insert a _))).finish ?_ ?_
  · rintro x (hx | hx)
    · exact .inr hx
    · exact .inl (.inr hx)
  · intro z hz hz'
    have hza : z = a := by
      rcases hz with (hz | hz) | hz
      · exact hz
      · exact absurd (.inr hz) hz'
      · exact absurd (.inl hz) hz'
    subst hza
    exact ⟨Set.mem_insert z _, fun y hy => .inr (hsucc y hy)⟩


/-! ## The root scan -/

/-- The scan over the list of objects it walks. -/
def scanRoots : List Addr → Mem → Tracer → Mem × Tracer
  | [], m, t => (m, t)
  | a :: l, m, t => scanRoots l (m.scanRoot t a).1 (m.scanRoot t a).2

/-- The pointer walk visits exactly the list from `head`, and ends. -/
theorem markRootsLoop_eq : ∀ (l : List Addr) (fuel : Nat) (m : Mem) (t : Tracer) (p : Option Addr),
    Seg m.next p l none →
    markRootsLoop fuel m t p = if l.length ≤ fuel then some (scanRoots l m t) else none
  | [], fuel, m, t, p, h => by
    obtain rfl : p = none := h
    simp [markRootsLoop, scanRoots]
  | a :: l, 0, m, t, p, h => by
    obtain rfl : p = some a := h.1
    simp [markRootsLoop]
  | a :: l, fuel + 1, m, t, p, h => by
    obtain ⟨rfl, h⟩ := h
    have hn := (m.scanRoot_same t a).next
    have ih := markRootsLoop_eq l fuel (m.scanRoot t a).1 (m.scanRoot t a).2 (m.next a) (by rw [hn]; exact h)
    simp only [markRootsLoop, scanRoots, List.length_cons, Nat.add_le_add_iff_right]
    rw [hn]
    exact ih

/-- **`do_mark_roots`** scans the list from `head` and merges what it pushed. -/
theorem St.doMarkRoots_eq {s : St} {l : List Addr} (hl : Seg s.mem.next s.heap.head l none) (fuel : Nat)
    (t : Tracer) : s.doMarkRoots fuel t = if l.length ≤ fuel then
      some ⟨(scanRoots l s.mem t).1, s.heap.withQueue ((scanRoots l s.mem t).2 ++ s.heap.grayQueue)⟩
    else none := by
  simp only [St.doMarkRoots, markRootsLoop_eq l fuel s.mem t s.heap.head hl]
  split <;> rfl

theorem St.doMarkRoots_some {s s' : St} {l : List Addr} {fuel : Nat} {t : Tracer}
    (hl : Seg s.mem.next s.heap.head l none) (h : s.doMarkRoots fuel t = some s') :
    s' = ⟨(scanRoots l s.mem t).1, s.heap.withQueue ((scanRoots l s.mem t).2 ++ s.heap.grayQueue)⟩ := by
  rw [St.doMarkRoots_eq hl] at h
  split at h
  · exact (Option.some.inj h).symm
  · cases h

theorem scanRoots_same : ∀ (l : List Addr) (m : Mem) (t : Tracer), m.SameObjects (scanRoots l m t).1
  | [], m, _ => .refl m
  | a :: l, m, t => (m.scanRoot_same t a).trans (scanRoots_same l _ _)

/-- Roots the scan would push: rooted and still White. -/
def whiteRoots (m : Mem) (l : List Addr) : Set Addr := {x | x ∈ l ∧ 0 < m.rootCount x ∧ m.color x = .white}

theorem Mem.scanRoot_cases (m : Mem) (t : Tracer) (a : Addr) :
    (0 < m.rootCount a ∧ m.color a = .white ∧ m.scanRoot t a = ((m.touch a).setColor a .gray, a :: t)) ∨
    (¬ (0 < m.rootCount a ∧ m.color a = .white) ∧ m.scanRoot t a = (m.touch a, t)) := by
  unfold Mem.scanRoot Mem.isRoot Mem.markHeader
  by_cases hr : 0 < m.rootCount a <;> by_cases hw : m.color a = .white <;> simp [hr, hw]

/-- What the scan makes Gray is in the tracer. -/
theorem Mem.scanRoot_gray (m : Mem) (t : Tracer) (a : Addr) {x : Addr} (h : (m.scanRoot t a).1.color x = .gray) :
    m.color x = .gray ∨ x ∈ (m.scanRoot t a).2 := by
  rcases m.scanRoot_cases t a with ⟨_, _, e⟩ | ⟨_, e⟩ <;> rw [e] at h ⊢
  · rw [setColor_color] at h
    split at h
    · rename_i hx
      exact .inr (by simp [hx])
    · exact .inl h
  · exact .inl h

theorem Mem.scanRoot_mono (m : Mem) (t : Tracer) (a : Addr) {x : Addr} (h : m.color x ≠ .white) :
    (m.scanRoot t a).1.color x ≠ .white := by
  rcases m.scanRoot_cases t a with ⟨_, _, e⟩ | ⟨_, e⟩ <;> rw [e]
  · rw [setColor_color]
    split
    · decide
    · exact h
  · exact h

theorem Mem.scanRoot_tracer (m : Mem) (t : Tracer) (a : Addr) {x : Addr} (h : x ∈ t) : x ∈ (m.scanRoot t a).2 := by
  rcases m.scanRoot_cases t a with ⟨_, _, e⟩ | ⟨_, e⟩ <;> rw [e]
  · exact List.mem_cons_of_mem a h
  · exact h

/-- One object of the scan: a White root moves from the list into the tracer. -/
theorem MarkInv.scanRoot {t : Tracer} {a : Addr} {l : List Addr}
    (h : MarkInv m₀ S₀ P₀ m (V ∪ {x | x ∈ t} ∪ whiteRoots m (a :: l))) :
    MarkInv m₀ S₀ P₀ (m.scanRoot t a).1 (V ∪ {x | x ∈ (m.scanRoot t a).2} ∪ whiteRoots (m.scanRoot t a).1 l) := by
  rcases m.scanRoot_cases t a with ⟨hr, hw, e⟩ | ⟨hn, e⟩ <;> rw [e]
  · refine ⟨h.1.trans ((m.touch_same a).trans (Mem.setColor_same _ a _)), ?_⟩
    rw [seen_setColor _ _ (by decide)]
    have ha : a ∈ V ∪ {x | x ∈ t} ∪ whiteRoots m (a :: l) := .inr ⟨by simp, hr, hw⟩
    refine (h.2.see ha).finish ?_ ?_
    · rintro x ((hx | hx) | ⟨hx, hxr, hxw⟩)
      · exact .inl (.inl hx)
      · rcases List.mem_cons.1 hx with rfl | hx
        · exact ha
        · exact .inl (.inr hx)
      · simp only [Mem.setColor_color] at hxw
        split at hxw
        · cases hxw
        · exact .inr ⟨by simp [hx], hxr, hxw⟩
    · rintro x ((hx | hx) | ⟨hx, hxr, hxw⟩) hx'
      · exact absurd (.inl (.inl hx)) hx'
      · exact absurd (.inl (.inr (List.mem_cons_of_mem a hx))) hx'
      · refine absurd ?_ hx'
        by_cases hxa : x = a
        · exact .inl (.inr (by simp [hxa]))
        · exact .inr ⟨(List.mem_cons.1 hx).resolve_left hxa, hxr, by simp [hxa, hxw]⟩
  · have e' : whiteRoots (m.touch a) l = whiteRoots m (a :: l) := by
      ext x
      simp only [whiteRoots, Set.mem_ofPred_eq, Mem.touch_color, List.mem_cons]
      constructor
      · rintro ⟨hx, h2⟩; exact ⟨.inr hx, h2⟩
      · rintro ⟨rfl | hx, h2⟩
        · exact absurd h2 hn
        · exact ⟨hx, h2⟩
    rw [e']
    exact ⟨h.1.trans (m.touch_same a), h.2⟩

theorem scanRoots_markInv (l : List Addr) {t : Tracer} (h : MarkInv m₀ S₀ P₀ m (V ∪ {x | x ∈ t} ∪ whiteRoots m l)) :
    MarkInv m₀ S₀ P₀ (scanRoots l m t).1 (V ∪ {x | x ∈ (scanRoots l m t).2}) := by
  induction l generalizing m t with
  | nil =>
    have e : V ∪ {x | x ∈ t} ∪ whiteRoots m [] = V ∪ {x | x ∈ t} := by ext x; simp [whiteRoots]
    rw [e] at h
    exact h
  | cons a l ih => exact ih h.scanRoot

/-! ## The whole phase -/

/-- Where a marking phase starts from: the queue it finds and the White roots. -/
def sources (m : Mem) (q l : List Addr) : Set Addr := waiting [] q ∪ whiteRoots m l

/-- What a marking phase leaves shaded. -/
def Marked (m : Mem) (q l : List Addr) (x : Addr) : Prop :=
  m.color x ≠ .white ∨ Found m.Edge (seen m) (sources m q l) x

theorem doMarkWorkFull_rule {J : Mem → Set Addr → Prop} (hJ : ProcessKeeps J) :
    ∀ (fuel : Nat) (s s' : St) (t : Tracer), doMarkWorkFull fuel s t = some s' →
      0 < s.heap.options.incrementalWorkBudget → J s.mem (waiting t s.heap.grayQueue) →
      J s'.mem ∅ ∧ s'.heap = s.heap.withQueue []
  | 0, _, _, _, h, _, _ => by cases h
  | fuel + 1, s, s', t, h, hb, hj => by
    have hr := s.doMarkWithTracer_rule hJ s.heap.options.incrementalWorkBudget hj
    have hh := s.doMarkWithTracer_heap t s.heap.options.incrementalWorkBudget
    simp only [doMarkWorkFull] at h
    split at h
    · obtain ⟨h1, h2⟩ := doMarkWorkFull_rule hJ fuel _ s' _ h (by rw [hh]; exact hb)
        (by rw [s.doMarkWithTracer_tracer]; exact hr)
      exact ⟨h1, by rw [h2, hh]; rfl⟩
    · rename_i hz
      simp only [Option.some.injEq] at h
      obtain ⟨_, hq, he⟩ := St.doMarkWithTracer_zero (s := s) (t := t) hb (by omega)
      rw [he] at h hr
      subst h
      rw [hq] at hr
      have hemp : waiting [] [] = (∅ : Set Addr) := by ext x; simp [waiting]
      rw [hemp] at hr
      exact ⟨hr, by rw [← hq]; rfl⟩

/-- **One full marking phase**, from any colors and any queue: the objects it leaves shaded are those
that were shaded before and those on a White path from the sources. -/
theorem marked_of_phase {fuel fuel' : Nat} {s s₁ s' : St} {l : List Addr}
    (hl : Seg s.mem.next s.heap.head l none) (h₁ : s.doMarkRoots fuel [] = some s₁)
    (h : doMarkWorkFull fuel' s₁ [] = some s') (hb : 0 < s.heap.options.incrementalWorkBudget) :
    s.mem.SameObjects s'.mem ∧ (∀ x, s'.mem.color x ≠ .white ↔ Marked s.mem s.heap.grayQueue l x) ∧
      s'.heap = s.heap.withQueue [] := by
  obtain rfl := St.doMarkRoots_some hl h₁
  have hstart : MarkInv s.mem (seen s.mem) (sources s.mem s.heap.grayQueue l) s.mem
      ({x | x ∈ s.heap.grayQueue} ∪ {x | x ∈ ([] : Tracer)} ∪ whiteRoots s.mem l) := by
    have e : {x | x ∈ s.heap.grayQueue} ∪ {x | x ∈ ([] : Tracer)} ∪ whiteRoots s.mem l =
        sources s.mem s.heap.grayQueue l := by ext x; simp [sources, waiting]
    rw [e]
    exact ⟨.refl _, .refl⟩
  have hscan := scanRoots_markInv l hstart
  have hw : {x | x ∈ s.heap.grayQueue} ∪ {x | x ∈ (scanRoots l s.mem []).2} =
      waiting [] ((scanRoots l s.mem []).2 ++ s.heap.grayQueue) := by ext x; simp [waiting, or_comm]
  rw [hw] at hscan
  obtain ⟨⟨hs, hi⟩, hh⟩ := doMarkWorkFull_rule (markInv_process _ _ _) fuel' _ s' [] h hb hscan
  refine ⟨hs, fun x => ?_, hh⟩
  exact hi.seen_iff x

/-- From White objects and an empty queue, the sources are the roots and the paths are all paths. -/
theorem marked_iff_reachable {m : Mem} {l : List Addr} (hl : ∀ a, a ∈ l ↔ m.alive a = true)
    (hw : ∀ a, m.color a = .white) (x : Addr) : Marked m [] l x ↔ m.Reachable x := by
  have hseen : seen m = ∅ := by ext y; simp [seen, hw]
  have hsrc : ∀ y, y ∈ sources m [] l ↔ m.Rooted y := by
    intro y
    simp [sources, waiting, whiteRoots, hw, hl, Mem.Rooted]
  simp only [Marked, hw, ne_eq, not_true_eq_false, false_or, hseen, found_empty_iff, hsrc, Mem.Reachable]

/-! ## No dangling dereference -/

/-- Everything that waits is allocated, and so is everything an allocated object points to. -/
structure Sane (m : Mem) (W : Set Addr) : Prop where
  noFault : m.fault = false
  waits : ∀ x ∈ W, m.alive x = true
  closed : ∀ a b, m.alive a = true → m.Edge a b → m.alive b = true

theorem touch_fault {m : Mem} {a : Addr} (hf : m.fault = false) (ha : m.alive a = true) :
    (m.touch a).fault = false := by simp [Mem.touch, hf, ha]

theorem sane_of_same {m m' : Mem} {W W' : Set Addr} (h : Sane m W) (hs : m.SameObjects m')
    (hf : m'.fault = false) (hw : ∀ x ∈ W', m.alive x = true) : Sane m' W' := by
  refine ⟨hf, fun x hx => by rw [hs.alive]; exact hw x hx, fun a b ha he => ?_⟩
  rw [hs.alive] at ha ⊢
  rw [hs.edge] at he
  exact h.closed a b ha he

theorem Sane.mark {m : Mem} {t : Tracer} {p : Addr} (h : Sane m (V ∪ {x | x ∈ t})) (hp : m.alive p = true) :
    Sane (m.mark t p).1 (V ∪ {x | x ∈ (m.mark t p).2}) := by
  have hf := touch_fault h.noFault hp
  refine sane_of_same h (m.mark_same t p) ?_ ?_
  · rcases m.mark_cases t p with ⟨_, e⟩ | ⟨_, e⟩ | ⟨_, e⟩ <;> rw [e] <;> exact hf
  · rintro x (hx | hx)
    · exact h.waits x (.inl hx)
    · rcases m.mark_cases t p with ⟨_, e⟩ | ⟨_, e⟩ | ⟨_, e⟩ <;> rw [e] at hx
      · exact h.waits x (.inr hx)
      · rcases List.mem_cons.1 hx with rfl | hx
        · exact hp
        · exact h.waits x (.inr hx)
      · exact h.waits x (.inr hx)

theorem Sane.markAll {m : Mem} {t : Tracer} {ps : List Addr} (h : Sane m (V ∪ {x | x ∈ t}))
    (hp : ∀ p ∈ ps, m.alive p = true) : Sane (Mem.markAll ps m t).1 (V ∪ {x | x ∈ (Mem.markAll ps m t).2}) := by
  refine (Mem.markAll_rule (K := fun m' t' => m.SameObjects m' ∧ Sane m' (V ∪ {x | x ∈ t'})) ?_ ⟨.refl _, h⟩).2
  intro m' t' p hps hk
  refine ⟨hk.1.trans (m'.mark_same t' p), hk.2.mark ?_⟩
  rw [hk.1.alive]
  exact hp p hps

theorem sane_process : ProcessKeeps Sane := by
  intro m t q a h
  have ha : m.alive a = true := h.waits a (Set.mem_insert a _)
  have h0 : Sane (m.touch a) ({x | x ∈ q} ∪ {x | x ∈ t}) := by
    refine sane_of_same h (m.touch_same a) (touch_fault h.noFault ha) ?_
    rintro x (hx | hx)
    · exact h.waits x (.inr (.inr hx))
    · exact h.waits x (.inr (.inl hx))
  have htr : Sane ((m.touch a).trace t a).1 ({x | x ∈ q} ∪ {x | x ∈ ((m.touch a).trace t a).2}) := by
    unfold Mem.trace
    split
    · exact h0
    · -- every traced pointer is stored in the allocated object `a`
      exact h0.markAll fun p hp => h.closed a p ha hp
  refine sane_of_same htr (Mem.setColor_same _ a _) htr.noFault ?_
  rintro x (hx | hx)
  · exact htr.waits x (.inr hx)
  · exact htr.waits x (.inl hx)

theorem scanRoots_sane {q : List Addr} : ∀ (l : List Addr) (m : Mem) (t : Tracer),
    (∀ a ∈ l, m.alive a = true) → Sane m (waiting t q) →
    Sane (scanRoots l m t).1 (waiting (scanRoots l m t).2 q)
  | [], _, _, _, h => h
  | a :: l, m, t, hl, h => by
    have ha := hl a (by simp)
    have hf := touch_fault h.noFault ha
    simp only [scanRoots]
    refine scanRoots_sane l _ _ (fun b hb => by rw [(m.scanRoot_same t a).alive]; exact hl b (by simp [hb])) ?_
    rcases m.scanRoot_cases t a with ⟨_, _, e⟩ | ⟨_, e⟩
    · refine sane_of_same h (m.scanRoot_same t a) (by rw [e]; exact hf) ?_
      rw [e]
      rintro x (hx | hx)
      · rcases List.mem_cons.1 hx with rfl | hx
        · exact ha
        · exact h.waits x (.inl hx)
      · exact h.waits x (.inr hx)
    · refine sane_of_same h (m.scanRoot_same t a) (by rw [e]; exact hf) ?_
      rw [e]
      exact h.waits

/-- A marking phase on such a heap dereferences allocated objects only. -/
theorem fault_of_phase {fuel fuel' : Nat} {s s₁ s' : St} {l : List Addr}
    (hl : Seg s.mem.next s.heap.head l none) (hla : ∀ a ∈ l, s.mem.alive a = true)
    (h₁ : s.doMarkRoots fuel [] = some s₁) (h : doMarkWorkFull fuel' s₁ [] = some s')
    (hb : 0 < s.heap.options.incrementalWorkBudget) (hsane : Sane s.mem (waiting [] s.heap.grayQueue)) :
    s'.mem.fault = false := by
  obtain rfl := St.doMarkRoots_some hl h₁
  have hscan := scanRoots_sane l s.mem [] hla hsane
  have hw : waiting (scanRoots l s.mem []).2 s.heap.grayQueue =
      waiting [] ((scanRoots l s.mem []).2 ++ s.heap.grayQueue) := by ext x; simp [waiting]
  rw [hw] at hscan
  exact (doMarkWorkFull_rule sane_process fuel' _ s' [] h hb hscan).1.noFault

/-! ## Termination -/

/-- White objects among the objects `F`. -/
def whites (F : Finset Addr) (m : Mem) : Nat := (F.filter fun x => m.color x = .white).card

theorem whites_setColor_lt {F : Finset Addr} {m : Mem} {p : Addr} {c : Color} (hp : p ∈ F)
    (hw : m.color p = .white) (hc : c ≠ .white) : whites F (m.setColor p c) < whites F m := by
  apply Finset.card_lt_card
  rw [Finset.ssubset_iff_of_subset]
  · exact ⟨p, by simp [hp, hw], by simp [hc]⟩
  · intro x hx
    simp only [Finset.mem_filter, Mem.setColor_color] at hx ⊢
    refine ⟨hx.1, ?_⟩
    by_cases h : x = p
    · simp [h, hw]
    · simpa [h] using hx.2

theorem whites_setColor_le {F : Finset Addr} {m : Mem} {p : Addr} {c : Color} (hc : c ≠ .white) :
    whites F (m.setColor p c) ≤ whites F m := by
  apply Finset.card_le_card
  intro x hx
  simp only [Finset.mem_filter, Mem.setColor_color] at hx ⊢
  refine ⟨hx.1, ?_⟩
  by_cases h : x = p
  · exact absurd hx.2 (by simp [h, hc])
  · simpa [h] using hx.2

/-- A push onto the tracer is paid for by a White object that stops being White. -/
theorem mark_measure {F : Finset Addr} (m : Mem) (t : Tracer) {p : Addr} (hp : p ∈ F) :
    whites F (m.mark t p).1 + (m.mark t p).2.length ≤ whites F m + t.length := by
  rcases m.mark_cases t p with ⟨_, e⟩ | ⟨hw, e⟩ | ⟨_, e⟩ <;> rw [e]
  · have := whites_setColor_le (F := F) (m := m.touch p) (p := p) (c := .black) (by decide)
    exact Nat.add_le_add_right this _
  · have := whites_setColor_lt (m := m.touch p) (c := .gray) hp hw (by decide)
    have e2 : whites F (m.touch p) = whites F m := rfl
    simp only [List.length_cons]
    omega
  · exact Nat.le_refl _

theorem processObject_measure {F : Finset Addr} {m : Mem} {t : Tracer} {a : Addr}
    (hF : ∀ b, m.Edge a b → b ∈ F) :
    whites F (m.processObject t a).1 + (m.processObject t a).2.length ≤ whites F m + t.length := by
  have htr : whites F ((m.touch a).trace t a).1 + ((m.touch a).trace t a).2.length ≤ whites F m + t.length := by
    unfold Mem.trace
    split
    · exact Nat.le_refl _
    · exact Mem.markAll_rule (K := fun m' t' => whites F m' + t'.length ≤ whites F m + t.length)
        (fun m' t' p hp hk => Nat.le_trans (mark_measure m' t' (hF p hp)) hk) (Nat.le_refl _)
  exact Nat.le_trans (Nat.add_le_add_right (whites_setColor_le (by decide)) _) htr

/-- Objects a search over `F` can meet: what waits is in `F`, and `F` is closed under pointers. -/
structure Within (F : Finset Addr) (m : Mem) (W : Set Addr) : Prop where
  waits : ∀ x ∈ W, x ∈ F
  closed : ∀ a b, a ∈ F → m.Edge a b → b ∈ F

theorem within_process (F : Finset Addr) : ProcessKeeps (Within F) := by
  intro m t q a h
  have ha : a ∈ F := h.waits a (Set.mem_insert a _)
  have hs := m.processObject_same t a
  refine ⟨?_, fun x y hx he => h.closed x y hx (by rw [hs.edge] at he; exact he)⟩
  have hin : ∀ x ∈ (m.processObject t a).2, x ∈ F := by
    show ∀ x ∈ ((m.touch a).trace t a).2, x ∈ F
    unfold Mem.trace
    have ht : ∀ x ∈ t, x ∈ F := fun x hx => h.waits x (.inr (.inl hx))
    split
    · exact ht
    · refine Mem.markAll_rule (K := fun _ t' => ∀ x ∈ t', x ∈ F) (fun m' t' p hp hk => ?_) ht
      rcases m'.mark_cases t' p with ⟨_, e⟩ | ⟨_, e⟩ | ⟨_, e⟩ <;> rw [e]
      · exact hk
      · intro x hx
        rcases List.mem_cons.1 hx with rfl | hx
        · exact h.closed a x ha hp
        · exact hk x hx
      · exact hk
  rintro x (hx | hx)
  · exact hin x hx
  · exact h.waits x (.inr (.inr hx))

/-- Each unit of work uses up one White or waiting object. -/
theorem doMarkLoop_measure (F : Finset Addr) : ∀ (b : Nat) (s : St) (t : Tracer) (n : Nat),
    Within F s.mem (waiting t s.heap.grayQueue) →
    whites F (doMarkLoop b s t n).1.mem + (doMarkLoop b s t n).2.1.length +
      (doMarkLoop b s t n).1.heap.grayQueue.length + (doMarkLoop b s t n).2.2 ≤
    whites F s.mem + t.length + s.heap.grayQueue.length + n
  | 0, _, _, _, _ => Nat.le_refl _
  | b + 1, s, t, n, h => by
    simp only [doMarkLoop]
    cases hw : s.nextWork t with
    | none => exact Nat.le_refl _
    | some r =>
      obtain ⟨p, s', t'⟩ := r
      obtain ⟨hm, _, hperm⟩ := St.nextWork_some hw
      have hlen := hperm.length_eq
      rw [waiting_of_perm hperm, ← hm] at h
      have ih := doMarkLoop_measure F b ⟨(s'.mem.processObject t' p).1, s'.heap⟩
        (s'.mem.processObject t' p).2 (n + 1) (within_process F _ _ _ _ h)
      have hp := processObject_measure (F := F) (m := s'.mem) (t := t') (a := p)
        (fun b hb => h.closed p b (h.waits p (Set.mem_insert p _)) hb)
      simp only [List.length_cons, List.length_append] at hlen
      rw [hm] at hp
      simp only at ih ⊢
      rw [hm] at ih ⊢
      omega

/-- **`do_mark_work_full` ends** when no assist or barrier is running and the budget is positive. -/
theorem doMarkWorkFull_total {F : Finset Addr} : ∀ (fuel : Nat) (s : St) (t : Tracer),
    Within F s.mem (waiting t s.heap.grayQueue) → s.heap.nBusyMarking = 0 →
    0 < s.heap.options.incrementalWorkBudget →
    whites F s.mem + t.length + s.heap.grayQueue.length < fuel →
    ∃ s', doMarkWorkFull fuel s t = some s'
  | 0, _, _, _, _, _, hlt => by omega
  | fuel + 1, s, t, h, hbusy, hb, hlt => by
    have hh := s.doMarkWithTracer_heap t s.heap.options.incrementalWorkBudget
    have hb0 : (s.doMarkWithTracer t s.heap.options.incrementalWorkBudget).1.heap.nBusyMarking = 0 := by
      rw [hh]; exact hbusy
    have hm := doMarkLoop_measure F s.heap.options.incrementalWorkBudget s t 0 h
    simp only [doMarkWorkFull, hb0, Nat.lt_irrefl, or_false]
    split
    · rename_i hpos
      refine doMarkWorkFull_total (F := F) fuel _ _ ?_ hb0 (by rw [hh]; exact hb) ?_
      · rw [s.doMarkWithTracer_tracer]
        exact s.doMarkWithTracer_rule (within_process F) _ h
      · rw [s.doMarkWithTracer_work] at hpos
        rw [s.doMarkWithTracer_tracer, s.doMarkWithTracer_mem, s.doMarkWithTracer_queue, List.length_append]
        simp only [List.length_nil]
        omega
    · exact ⟨_, rfl⟩

end Abfall
