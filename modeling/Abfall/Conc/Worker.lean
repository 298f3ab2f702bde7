import Abfall.Closure
import Abfall.Transition
/-!
# One marking worker, step by step

`do_mark_with_tracer` (`heap.rs:439-472`) as a machine whose steps other threads can come between:
stealing a batch under the queue lock, popping, shading one traced pointer, blackening the traced
object, merging under the lock. Its memory is shared with the other workers; its tracer is its own.

| here | there |
| --- | --- |
| `Worker.tracer`, `workBudget`, `workDone` | `tracer`, `work_budget`, `work_done` |
| `WorkerPc.trace p ps` | inside `vtable.trace` of the object `p`, with the pointers `ps` still to mark |
| `Step.spent`, `Step.noWork` | the loop is left: `work_done == work_budget`, or `steal_work` returned false |

`run_doMark`: without interference, the steps are exactly one call of `St.doMarkWithTracer`.
-/
namespace Abfall
open Transition Worklist

/-- What the workers share. -/
structure Shared where
  mem : Mem
  queue : List Addr

inductive WorkerPc
  | loop
  | trace (p : Addr) (ps : List Addr)
  | merge
  | ret
deriving DecidableEq, Repr

structure Worker where
  tracer : Tracer
  workBudget : Nat
  workDone : Nat
  pc : WorkerPc
deriving DecidableEq, Repr

namespace Worker

/-- A call of `do_mark_with_tracer`. -/
def call (t : Tracer) (workBudget : Nat) : Worker := ⟨t, workBudget, 0, .loop⟩

inductive Step : Shared → Worker → Shared → Worker → Prop
  | pop {sh : Shared} {p : Addr} {t : Tracer} {b n : Nat} : n < b →
      Step sh ⟨p :: t, b, n, .loop⟩ ⟨sh.mem.touch p, sh.queue⟩
        ⟨t, b, n, .trace p (if (sh.mem.data p).noTrace then [] else sh.mem.ptrs p)⟩
  | steal {sh : Shared} {q : List Addr} {t : Tracer} {b n : Nat} : n < b → stealFrom [] 8 sh.queue = some (q, t) →
      Step sh ⟨[], b, n, .loop⟩ ⟨sh.mem, q⟩ ⟨t, b, n, .loop⟩
  | noWork {sh : Shared} {b n : Nat} : n < b → stealFrom [] 8 sh.queue = none →
      Step sh ⟨[], b, n, .loop⟩ sh ⟨[], b, n, .ret⟩
  | spent {sh : Shared} {t : Tracer} {b n : Nat} : ¬ n < b →
      Step sh ⟨t, b, n, .loop⟩ sh ⟨t, b, n, if t = [] then .ret else .merge⟩
  | mark {sh : Shared} {t : Tracer} {b n : Nat} {p y : Addr} {ps : List Addr} :
      Step sh ⟨t, b, n, .trace p (y :: ps)⟩ ⟨(sh.mem.mark t y).1, sh.queue⟩ ⟨(sh.mem.mark t y).2, b, n, .trace p ps⟩
  | blacken {sh : Shared} {t : Tracer} {b n : Nat} {p : Addr} :
      Step sh ⟨t, b, n, .trace p []⟩ ⟨sh.mem.setColor p .black, sh.queue⟩ ⟨t, b, n + 1, .loop⟩
  | merge {sh : Shared} {t : Tracer} {b n : Nat} :
      Step sh ⟨t, b, n, .merge⟩ ⟨sh.mem, t ++ sh.queue⟩ ⟨[], b, n, .ret⟩

/-- The objects a worker holds: its tracer, and the one it is processing. -/
def held (w : Worker) : List Addr :=
  match w.pc with
  | .trace p _ => p :: w.tracer
  | _ => w.tracer

/-- The objects waiting in the queue or held by the worker. -/
def pend (q : List Addr) (w : Worker) : Set Addr := {x | x ∈ q ∨ x ∈ w.held}

/-- A worker that has returned, or is about to, holds nothing. -/
def Settled (w : Worker) : Prop := w.pc = .ret → w.tracer = []

variable {sh sh' : Shared} {w w' : Worker}

theorem stealFrom_some {q q' : List Addr} {t : Tracer} (h : stealFrom [] 8 q = some (q', t)) (x : Addr) :
    (x ∈ q' ∨ x ∈ t) ↔ x ∈ q := by
  unfold stealFrom at h
  split at h
  · cases h
  · simp only [Option.some.injEq] at h
    have hp := (moveItems_perm 8 q []).mem_iff (a := x)
    rw [h] at hp
    simp only [List.mem_append, List.nil_append] at hp
    rw [or_comm]
    exact hp

theorem Step.settled (h : Step sh w sh' w') : w'.Settled := by
  cases h with
  | spent hb =>
    intro hr
    by_contra ht
    simp [ht] at hr
  | noWork _ _ => intro _; rfl
  | merge => intro _; rfl
  | _ => intro hr; cases hr

theorem Step.same (h : Step sh w sh' w') : sh.mem.SameObjects sh'.mem := by
  cases h with
  | pop _ => exact sh.mem.touch_same _
  | mark => exact sh.mem.mark_same _ _
  | blacken => exact sh.mem.setColor_same _ _
  | _ => exact .refl _

/-- Colors only move away from White. -/
theorem Step.mono (h : Step sh w sh' w') {x : Addr} (hx : sh.mem.color x ≠ .white) : sh'.mem.color x ≠ .white := by
  cases h with
  | mark => exact Mem.mark_mono _ _ _ hx
  | blacken =>
    simp only [Mem.setColor_color]
    split
    · decide
    · exact hx
  | _ => exact hx

/-- A step loses no waiting object but the one it blackens. -/
theorem Step.pend_keep (h : Step sh w sh' w') {x : Addr} (hx : x ∈ pend sh.queue w) :
    x ∈ pend sh'.queue w' ∨ ∃ ps, w.pc = .trace x ps ∧ sh'.mem.color x = .black ∧ ps = [] := by
  cases h with
  | pop _ => exact .inl hx
  | steal _ hst =>
    left
    rcases hx with hx | hx
    · exact (stealFrom_some hst x).2 hx
    · cases hx
  | noWork _ _ => exact .inl hx
  | @spent t b n _ =>
    left
    rcases hx with hx | hx
    · exact .inl hx
    · refine .inr ?_
      by_cases ht : t = []
      · rw [if_pos ht]; exact hx
      · rw [if_neg ht]; exact hx
  | @mark t b n p y ps =>
    left
    rcases hx with hx | hx
    · exact .inl hx
    · refine .inr ?_
      rcases List.mem_cons.1 hx with rfl | hx
      · exact List.mem_cons_self
      · exact List.mem_cons_of_mem p (sh.mem.mark_tracer t y hx)
  | @blacken t b n p =>
    rcases hx with hx | hx
    · exact .inl (.inl hx)
    · rcases List.mem_cons.1 hx with rfl | hx
      · exact .inr ⟨[], rfl, by simp, rfl⟩
      · exact .inl (.inr hx)
  | merge =>
    left
    rcases hx with hx | hx
    · exact .inl (List.mem_append_right _ hx)
    · exact .inl (List.mem_append_left _ hx)

/-- An object that a step makes Gray is held by the worker. -/
theorem Step.gray_new (h : Step sh w sh' w') {x : Addr} (hg : sh'.mem.color x = .gray) :
    sh.mem.color x = .gray ∨ x ∈ pend sh'.queue w' := by
  cases h with
  | @mark t b n p y ps =>
    exact (sh.mem.mark_gray t y hg).imp id fun hx => .inr (List.mem_cons_of_mem p hx)
  | blacken =>
    simp only [Mem.setColor_color] at hg
    split at hg
    · cases hg
    · exact .inl hg
  | _ => exact .inl hg

/-- After a step, a Gray object waits in the queue or with the worker, or it was Gray before and
neither had it. -/
theorem Step.gray (h : Step sh w sh' w') {x : Addr} (hg : sh'.mem.color x = .gray) :
    x ∈ pend sh'.queue w' ∨ (sh.mem.color x = .gray ∧ x ∉ pend sh.queue w) := by
  by_cases hx : x ∈ pend sh.queue w
  · rcases h.pend_keep hx with hx | ⟨_, _, hb, _⟩
    · exact .inl hx
    · rw [hb] at hg; cases hg
  · rcases h.gray_new hg with hg | hx'
    · exact .inr ⟨hg, hx⟩
    · exact .inl hx'

/-! ## A worker's part in the search -/

/-- The pointers still to mark are stored in the object being processed, and its others are seen. -/
def Tracing (E : Addr → Addr → Prop) (S : Set Addr) (w : Worker) : Prop :=
  ∀ p ps, w.pc = .trace p ps → (∀ y ∈ ps, E p y) ∧ ∀ y, E p y → y ∈ ps ∨ y ∈ S

theorem Tracing.mono {E : Addr → Addr → Prop} {S S' : Set Addr} (h : Tracing E S w) (hs : S ⊆ S') : Tracing E S' w := by
  intro p ps hpc
  obtain ⟨h1, h2⟩ := h p ps hpc
  exact ⟨h1, fun y hy => (h2 y hy).imp id fun hx => hs hx⟩

theorem tracing_of_ne {E : Addr → Addr → Prop} {S : Set Addr} (h : ∀ p ps, w.pc ≠ .trace p ps) : Tracing E S w :=
  fun p ps hpc => absurd hpc (h p ps)

variable {m₀ : Mem} {S₀ P₀ V : Set Addr}

/-- Shading one pointer of the object being processed: everything but the tracer waits aside. -/
theorem search_mark {t : Tracer} {b n : Nat} {p y : Addr} {ps : List Addr}
    (hi : MarkInv m₀ S₀ P₀ sh.mem (V ∪ pend sh.queue ⟨t, b, n, .trace p (y :: ps)⟩))
    (ht : Tracing m₀.Edge (seen sh.mem) ⟨t, b, n, .trace p (y :: ps)⟩) :
    MarkInv m₀ S₀ P₀ (sh.mem.mark t y).1 (V ∪ pend sh.queue ⟨(sh.mem.mark t y).2, b, n, .trace p ps⟩) ∧
    Tracing m₀.Edge (seen (sh.mem.mark t y).1) ⟨(sh.mem.mark t y).2, b, n, .trace p ps⟩ := by
  obtain ⟨hps, hdone⟩ := ht p (y :: ps) rfl
  have hset : ∀ (ps : List Addr) (t : Tracer), V ∪ pend sh.queue ⟨t, b, n, .trace p ps⟩ =
      (V ∪ insert p {x | x ∈ sh.queue}) ∪ {x | x ∈ t} := by
    intro ps t
    ext x
    simp only [pend, held, Set.mem_union, Set.mem_ofPred_eq, Set.mem_insert_iff, List.mem_cons]
    tauto
  rw [hset] at hi ⊢
  refine ⟨hi.mark (.inr (Set.mem_insert p _)) (hps y List.mem_cons_self), ?_⟩
  rintro p' ps' ⟨rfl, rfl⟩
  refine ⟨fun z hz => hps z (List.mem_cons_of_mem y hz), fun z hz => ?_⟩
  rcases hdone z hz with hz | hz
  · rcases List.mem_cons.1 hz with rfl | hz
    · exact .inr (sh.mem.mark_nonwhite t z)
    · exact .inl hz
  · exact .inr (sh.mem.mark_mono t y hz)

/-- Blackening the object being processed: only it stops waiting, and all it points to is seen. -/
theorem search_blacken {t : Tracer} {b n : Nat} {p : Addr}
    (hi : MarkInv m₀ S₀ P₀ sh.mem (V ∪ pend sh.queue ⟨t, b, n, .trace p []⟩))
    (ht : Tracing m₀.Edge (seen sh.mem) ⟨t, b, n, .trace p []⟩) :
    MarkInv m₀ S₀ P₀ (sh.mem.setColor p .black) (V ∪ pend sh.queue ⟨t, b, n + 1, .loop⟩) := by
  obtain ⟨hsame, hinv⟩ := hi
  obtain ⟨_, hdone⟩ := ht p [] rfl
  refine ⟨hsame.trans (sh.mem.setColor_same p .black), ?_⟩
  rw [seen_setColor _ _ (by decide)]
  have hp : p ∈ V ∪ pend sh.queue ⟨t, b, n, .trace p []⟩ := .inr (.inr List.mem_cons_self)
  refine (hinv.see hp).finish ?_ ?_
  · rintro x (hx | hx | hx)
    · exact .inl hx
    · exact .inr (.inl hx)
    · exact .inr (.inr (List.mem_cons_of_mem p hx))
  · rintro z hz hz'
    have hzp : z = p := by
      rcases hz with hz | hz | hz
      · exact absurd (.inl hz) hz'
      · exact absurd (.inr (.inl hz)) hz'
      · rcases List.mem_cons.1 hz with rfl | hz
        · rfl
        · exact absurd (.inr (.inr hz)) hz'
    subst hzp
    exact ⟨Set.mem_insert z _, fun y hy => .inr ((hdone y hy).resolve_left (by simp))⟩

/-- **A worker's step in the search**, whatever else (`V`) is waiting. -/
theorem Step.search (h : Step sh w sh' w') (hi : MarkInv m₀ S₀ P₀ sh.mem (V ∪ pend sh.queue w))
    (ht : Tracing m₀.Edge (seen sh.mem) w) :
    MarkInv m₀ S₀ P₀ sh'.mem (V ∪ pend sh'.queue w') ∧ Tracing m₀.Edge (seen sh'.mem) w' := by
  obtain ⟨hsame, hinv⟩ := hi
  cases h with
  | @pop p t b n _ =>
    refine ⟨⟨hsame.trans (sh.mem.touch_same p), hinv⟩, ?_⟩
    rintro p' ps ⟨rfl, rfl⟩
    have hptrs : ∀ y, m₀.Edge p y ↔ y ∈ sh.mem.ptrs p := fun y => by rw [← hsame.edge]; rfl
    split
    · rename_i hn
      refine ⟨fun y hy => (by cases hy), fun y hy => absurd ((hptrs y).1 hy) ?_⟩
      exact Mem.not_edge_of_noTrace hn
    · exact ⟨fun y hy => (hptrs y).2 hy, fun y hy => .inl ((hptrs y).1 hy)⟩
  | @steal q t b n _ hst =>
    refine ⟨⟨hsame, ?_⟩, tracing_of_ne (by simp)⟩
    have e : pend q ⟨t, b, n, .loop⟩ = pend sh.queue ⟨[], b, n, .loop⟩ := by
      ext x
      have := stealFrom_some hst x
      simp only [pend, held, Set.mem_ofPred_eq, List.not_mem_nil, or_false]
      exact this
    rw [e]
    exact hinv
  | noWork _ _ => exact ⟨⟨hsame, hinv⟩, tracing_of_ne (by simp)⟩
  | @spent t b n _ =>
    by_cases htr : t = []
    · rw [if_pos htr]; exact ⟨⟨hsame, hinv⟩, tracing_of_ne (by simp)⟩
    · rw [if_neg htr]; exact ⟨⟨hsame, hinv⟩, tracing_of_ne (by simp)⟩
  | mark => exact search_mark ⟨hsame, hinv⟩ ht
  | blacken => exact ⟨search_blacken ⟨hsame, hinv⟩ ht, tracing_of_ne (by simp)⟩
  | @merge t b n =>
    refine ⟨⟨hsame, ?_⟩, tracing_of_ne (by simp)⟩
    have e : pend (t ++ sh.queue) ⟨[], b, n, .ret⟩ = pend sh.queue ⟨t, b, n, .merge⟩ := by
      ext x
      simp only [pend, held, Set.mem_ofPred_eq, List.mem_append, List.not_mem_nil, or_false]
      exact or_comm
    rw [e]
    exact hinv

/-- A White object that a step shades waits with the worker, or all it points to is seen. -/
theorem Step.shaded (h : Step sh w sh' w') (hsame : m₀.SameObjects sh.mem) (ht : Tracing m₀.Edge (seen sh.mem) w)
    {z : Addr} (hw : sh.mem.color z = .white) (hn : sh'.mem.color z ≠ .white) :
    z ∈ pend sh'.queue w' ∨ ∀ y, m₀.Edge z y → y ∈ seen sh'.mem := by
  cases h with
  | @mark t b n p y ps =>
    change (sh.mem.mark t y).1.color z ≠ .white at hn
    have hzy : z = y := by
      by_contra hne
      rw [Mem.mark_color, if_neg hne] at hn
      exact hn hw
    subst hzy
    rcases sh.mem.mark_cases t z with ⟨hnt, _⟩ | ⟨_, e⟩ | ⟨hc, _⟩
    · right
      intro x hx
      rw [← hsame.edge] at hx
      exact absurd hx (Mem.not_edge_of_noTrace hnt)
    · left
      refine .inr (List.mem_cons_of_mem p ?_)
      show z ∈ (sh.mem.mark t z).2
      rw [e]
      exact List.mem_cons_self
    · exact absurd hw hc
  | @blacken t b n p =>
    have hzp : z = p := by
      by_contra hne
      simp only [Mem.setColor_color, hne, if_false] at hn
      exact hn hw
    subst hzp
    right
    intro y hy
    have := ((ht z [] rfl).2 y hy).resolve_left (by simp)
    rw [seen_setColor _ _ (by decide)]
    exact .inr this
  | _ => exact absurd hw hn

/-! ## Without interference: one call of `do_mark_with_tracer` -/

/-- Steps of one worker, with nobody else between them. -/
def Steps : Shared × Worker → Shared × Worker → Prop :=
  Relation.ReflTransGen fun a b => Step a.1 a.2 b.1 b.2

theorem Step.run (h : Step sh w sh' w') : Steps (sh, w) (sh', w') := .single h

theorem run_trace (b n : Nat) (p : Addr) (q ps : List Addr) (m : Mem) (t : Tracer) :
    Steps (⟨m, q⟩, ⟨t, b, n, .trace p ps⟩)
      (⟨(Mem.markAll ps m t).1, q⟩, ⟨(Mem.markAll ps m t).2, b, n, .trace p []⟩) := by
  induction ps generalizing m t with
  | nil => exact .refl
  | cons y ps ih =>
    have hmark : Step ⟨m, q⟩ ⟨t, b, n, .trace p (y :: ps)⟩ _ _ := .mark
    exact hmark.run.trans (ih _ _)

theorem run_process {b n : Nat} (hb : n < b) (p : Addr) (q : List Addr) (m : Mem) (t : Tracer) :
    Steps (⟨m, q⟩, ⟨p :: t, b, n, .loop⟩)
      (⟨(m.processObject t p).1, q⟩, ⟨(m.processObject t p).2, b, n + 1, .loop⟩) := by
  have hpop : Step ⟨m, q⟩ ⟨p :: t, b, n, .loop⟩ _ _ := .pop hb
  refine hpop.run.trans ?_
  have htr := run_trace b n p q (if (m.data p).noTrace then [] else m.ptrs p) (m.touch p) t
  have e : Mem.markAll (if (m.data p).noTrace then [] else m.ptrs p) (m.touch p) t = (m.touch p).trace t p := by
    unfold Mem.trace
    by_cases hn : (m.data p).noTrace = true
    · have hn' : ((m.touch p).data p).noTrace = true := hn
      rw [if_pos hn, if_pos hn']
      rfl
    · have hn' : ¬ ((m.touch p).data p).noTrace = true := hn
      rw [if_neg hn, if_neg hn']
      rfl
  rw [e] at htr
  have hblack : Step ⟨((m.touch p).trace t p).1, q⟩ ⟨((m.touch p).trace t p).2, b, n, .trace p []⟩ _ _ := .blacken
  exact htr.trans hblack.run

/-- Getting the next object: a pop, after a steal if the tracer is empty. -/
theorem run_nextWork {s s' : St} {t t' : Tracer} {p : Addr} {b n : Nat} (hb : n < b)
    (h : s.nextWork t = some (p, s', t')) :
    Steps (⟨s.mem, s.heap.grayQueue⟩, ⟨t, b, n, .loop⟩) (⟨s'.mem, s'.heap.grayQueue⟩, ⟨p :: t', b, n, .loop⟩) := by
  cases t with
  | cons x t =>
    simp only [St.nextWork, Option.some.injEq, Prod.mk.injEq] at h
    obtain ⟨rfl, rfl, rfl⟩ := h
    exact .refl
  | nil =>
    simp only [St.nextWork, St.stealWork] at h
    cases hst : stealFrom [] 8 s.heap.grayQueue with
    | none => simp [hst] at h
    | some r =>
      obtain ⟨q, t⟩ := r
      simp only [hst, Option.map_some] at h
      cases t with
      | nil => simp at h
      | cons y t =>
        simp only [Option.some.injEq, Prod.mk.injEq] at h
        obtain ⟨rfl, rfl, rfl⟩ := h
        have hsteal : Step ⟨s.mem, s.heap.grayQueue⟩ ⟨[], b, n, .loop⟩ _ _ := .steal hb hst
        exact hsteal.run

theorem run_loop (k : Nat) (s : St) (t : Tracer) (n : Nat) :
    Steps (⟨s.mem, s.heap.grayQueue⟩, ⟨t, n + k, n, .loop⟩)
      (⟨(doMarkLoop k s t n).1.mem, (doMarkLoop k s t n).1.heap.grayQueue⟩,
        ⟨(doMarkLoop k s t n).2.1, n + k, (doMarkLoop k s t n).2.2, .loop⟩) := by
  induction k generalizing s t n with
  | zero => exact .refl
  | succ k ih =>
    simp only [doMarkLoop]
    cases hw : s.nextWork t with
    | none => exact .refl
    | some r =>
      obtain ⟨p, s', t'⟩ := r
      have hstep := (run_nextWork (b := n + (k + 1)) (n := n) (by omega) hw).trans
        (run_process (by omega) p s'.heap.grayQueue s'.mem t')
      have e : n + (k + 1) = n + 1 + k := by omega
      rw [e] at hstep ⊢
      exact hstep.trans (ih ⟨(s'.mem.processObject t' p).1, s'.heap⟩ _ (n + 1))

/-- **A worker that nobody interrupts does what `do_mark_with_tracer` does.** -/
theorem run_doMark (s : St) (t : Tracer) (b : Nat) :
    Steps (⟨s.mem, s.heap.grayQueue⟩, call t b)
      (⟨(s.doMarkWithTracer t b).1.mem, (s.doMarkWithTracer t b).1.heap.grayQueue⟩,
        ⟨[], b, (s.doMarkWithTracer t b).2.2, .ret⟩) := by
  have hloop := run_loop b s t 0
  have hdone := doMarkLoop_done b s t 0
  rw [Nat.zero_add] at hloop hdone
  rw [St.doMarkWithTracer_mem, St.doMarkWithTracer_work, St.doMarkWithTracer_queue]
  refine hloop.trans ?_
  generalize hr : doMarkLoop b s t 0 = r at hdone ⊢
  obtain ⟨s', t', n⟩ := r
  by_cases hn : n < b
  · obtain ⟨ht, hq⟩ := hdone.resolve_left (by simp only; omega)
    simp only at ht hq
    subst ht
    have hno : Step ⟨s'.mem, s'.heap.grayQueue⟩ ⟨[], b, n, .loop⟩ _ _ := .noWork hn (by rw [hq]; rfl)
    exact hno.run
  · have hsp : Step ⟨s'.mem, s'.heap.grayQueue⟩ ⟨t', b, n, .loop⟩ _ _ := .spent hn
    by_cases ht : t' = []
    · rw [if_pos ht] at hsp
      subst ht
      exact hsp.run
    · rw [if_neg ht] at hsp
      have hmerge : Step ⟨s'.mem, s'.heap.grayQueue⟩ ⟨t', b, n, .merge⟩ _ _ := .merge
      exact hsp.run.trans hmerge.run

end Worker
end Abfall
