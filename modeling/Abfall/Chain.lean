import Mathlib.Logic.Function.Basic
import Mathlib.Data.List.Nodup
/-!
# Linked lists in a `next` map

`Seg next p l q`: following `next` from the pointer `p` visits exactly the nodes `l`, in order, and
then stands at `q` (`none` is the null pointer). `Seg next p l none` says that `l` is the
null-terminated list from `p`; such an `l` is unique (`seg_unique`) and free of repetitions
(`seg_nodup`). The remaining lemmas say what the list is after one pointer was overwritten.
-/
namespace Chain

variable {α : Type*}

def Seg (next : α → Option α) : Option α → List α → Option α → Prop
  | p, [], q => p = q
  | p, a :: l, q => p = some a ∧ Seg next (next a) l q

variable {next next' : α → Option α} {p q : Option α} {a b : α} {l l₁ l₂ : List α}

theorem seg_append : ∀ {p : Option α} {l₁ : List α},
    Seg next p (l₁ ++ l₂) q ↔ ∃ m, Seg next p l₁ m ∧ Seg next m l₂ q
  | p, [] => by simp [Seg]
  | p, a :: l₁ => by
    simp only [List.cons_append, Seg, seg_append (p := next a)]
    constructor
    · rintro ⟨hp, m, h1, h2⟩; exact ⟨m, ⟨hp, h1⟩, h2⟩
    · rintro ⟨m, ⟨hp, h1⟩, h2⟩; exact ⟨hp, m, h1, h2⟩

/-- A list only depends on the `next` of its own nodes. -/
theorem seg_congr : ∀ {p : Option α} {l : List α}, (∀ a ∈ l, next' a = next a) →
    Seg next p l q → Seg next' p l q
  | _, [], _, h => h
  | _, a :: l, he, ⟨hp, h⟩ => by
    refine ⟨hp, ?_⟩
    rw [he a (by simp)]
    exact seg_congr (fun b hb => he b (by simp [hb])) h

/-- The null-terminated list from a pointer is unique. -/
theorem seg_unique : ∀ {p : Option α} {l l' : List α}, Seg next p l none → Seg next p l' none → l = l'
  | _, [], [], _, _ => rfl
  | _, [], _ :: _, h, h' => by
    have e : (none : Option α) = some _ := h.symm.trans h'.1
    cases e
  | _, _ :: _, [], h, h' => by
    have e : (none : Option α) = some _ := h'.symm.trans h.1
    cases e
  | _, a :: l, b :: l', h, h' => by
    have e : some a = some b := h.1.symm.trans h'.1
    cases e
    rw [seg_unique h.2 h'.2]

theorem seg_start : ∀ {l : List α}, Seg next p l none → p = l.head?
  | [], h => h
  | _ :: _, h => h.1

/-- The node a list starts with. -/
theorem seg_head (h : Seg next (some a) l none) : ∃ r, l = a :: r ∧ Seg next (next a) r none := by
  cases l with
  | nil => cases h
  | cons b r =>
    obtain ⟨hb, hr⟩ := h
    cases hb
    exact ⟨r, rfl, hr⟩

/-- The nodes of a null-terminated list point to nodes of the list. -/
theorem seg_closed : ∀ {p : Option α} {l : List α}, Seg next p l none → ∀ a ∈ l, ∀ b, next a = some b → b ∈ l
  | _, [], _, a, ha, _, _ => by cases ha
  | _, x :: l, h, a, ha, b, hb => by
    rcases List.mem_cons.1 ha with rfl | ha
    · have hrest : Seg next (some b) l none := hb ▸ h.2
      obtain ⟨r, rfl, _⟩ := seg_head hrest
      simp
    · exact List.mem_cons_of_mem x (seg_closed h.2 a ha b hb)

/-- A null-terminated list never visits a node twice: the list from a repeated node would have to be
both a proper suffix of itself and itself. -/
theorem seg_nodup : ∀ {p : Option α} {l : List α}, Seg next p l none → l.Nodup
  | _, [], _ => List.nodup_nil
  | _, a :: l, ⟨hp, h⟩ => by
    refine List.nodup_cons.2 ⟨fun ha => ?_, seg_nodup h⟩
    obtain ⟨l₁, l₂, rfl⟩ := List.append_of_mem ha
    obtain ⟨m, _, hm, h2⟩ := seg_append.1 h
    have e := seg_unique h h2
    have := congrArg List.length e
    simp at this
    omega

/-- A node of a null-terminated list is nowhere else on it, and no node is on both sides of it. -/
theorem seg_middle (h : Seg next p (l₁ ++ a :: l₂) none) : a ∉ l₁ ++ l₂ ∧ ∀ x ∈ l₁, x ∉ l₂ := by
  have hnd := seg_nodup h
  rw [List.nodup_middle, List.nodup_cons] at hnd
  exact ⟨hnd.1, fun x hx hx' => (List.nodup_append.1 hnd.2).2.2 x hx x hx' rfl⟩

section Update
variable [DecidableEq α]

theorem seg_update_of_notMem {v : Option α} (ha : a ∉ l) :
    Seg (Function.update next a v) p l q ↔ Seg next p l q := by
  have he : ∀ b ∈ l, Function.update next a v b = next b := fun b hb => by
    rw [Function.update_of_ne]; rintro rfl; exact ha hb
  exact ⟨seg_congr fun b hb => (he b hb).symm, seg_congr he⟩

/-- Pushing a node that is not yet on the list. -/
theorem seg_push (ha : a ∉ l) (h : Seg next p l none) :
    Seg (Function.update next a p) (some a) (a :: l) none :=
  ⟨rfl, by rw [Function.update_self]; exact (seg_update_of_notMem ha).2 h⟩

/-- Unlinking `a` by a store to its predecessor `b`'s `next`; the list behind `a` stays as it is. -/
theorem seg_unlink (h : Seg next p (l₁ ++ [b] ++ a :: l₂) none) :
    Seg (Function.update next b (next a)) p (l₁ ++ [b] ++ l₂) none ∧
      Seg (Function.update next b (next a)) (next a) l₂ none := by
  have hb2 : b ∉ l₂ := (seg_middle h).2 b (by simp)
  rw [List.append_assoc, List.singleton_append] at h ⊢
  have hb1 : b ∉ l₁ := fun hb => (seg_middle h).1 (by simp [hb])
  obtain ⟨m, h1, hm, _, h2⟩ := seg_append.1 h
  have hrest : Seg (Function.update next b (next a)) (next a) l₂ none := (seg_update_of_notMem hb2).2 h2
  refine ⟨seg_append.2 ⟨m, (seg_update_of_notMem hb1).2 h1, hm, ?_⟩, hrest⟩
  rw [Function.update_self]
  exact hrest

end Update

end Chain
