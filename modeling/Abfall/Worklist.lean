import Mathlib.Logic.Relation
import Mathlib.Data.Set.Insert
/-!
# Worklist closure

Marking over a fixed edge relation `E`, seen as sets: `seen` holds the discovered nodes, `pending` the
nodes whose successors have not all been looked at. `Inv E S₀ P₀ S P` relates a state `(S, P)` to the
state `(S₀, P₀)` the search started in; it is kept by discovering a successor of a pending node
(`Inv.discover`) and by finishing a node (`Inv.finish`), in any order. Once nothing is pending, the
new nodes are exactly those on a path from `P₀` through nodes that were unseen at the start
(`Inv.seen_iff`): the order of the work does not matter.
-/
namespace Worklist

variable {α : Type*}

/-- One step of a path that enters only nodes outside `S₀`. -/
def Fresh (E : α → α → Prop) (S₀ : Set α) (x y : α) : Prop := E x y ∧ y ∉ S₀

/-- Nodes on a path from `P₀` that enters only nodes outside `S₀`. -/
def Found (E : α → α → Prop) (S₀ P₀ : Set α) (y : α) : Prop :=
  ∃ x ∈ P₀, Relation.ReflTransGen (Fresh E S₀) x y

structure Inv (E : α → α → Prop) (S₀ P₀ S P : Set α) : Prop where
  old : S₀ ⊆ S
  sound : ∀ y ∈ S, y ∈ S₀ ∨ Found E S₀ P₀ y
  work : ∀ y ∈ P, Found E S₀ P₀ y
  closed : ∀ x, (x ∈ P₀ ∨ (x ∈ S ∧ x ∉ S₀)) → x ∈ P ∨ (x ∈ S ∧ ∀ y, E x y → y ∈ S)

variable {E : α → α → Prop} {S₀ P₀ S P : Set α} {x y : α}

theorem Found.start (h : x ∈ P₀) : Found E S₀ P₀ x := ⟨x, h, .refl⟩

theorem Found.next (h : Found E S₀ P₀ x) (he : E x y) (hy : y ∉ S₀) : Found E S₀ P₀ y := by
  obtain ⟨z, hz, hp⟩ := h
  exact ⟨z, hz, hp.tail ⟨he, hy⟩⟩

theorem Inv.refl : Inv E S₀ P₀ S₀ P₀ where
  old := fun _ h => h
  sound := fun _ h => .inl h
  work := fun _ h => .start h
  closed := by
    rintro x (h | ⟨h, hn⟩)
    · exact .inl h
    · exact absurd h hn

/-- Discovering a successor of a pending node that was not seen yet: it becomes seen and pending. -/
theorem Inv.discover (h : Inv E S₀ P₀ S P) (hx : x ∈ P) (he : E x y) (hy : y ∉ S) :
    Inv E S₀ P₀ (insert y S) (insert y P) := by
  have hf : Found E S₀ P₀ y := (h.work x hx).next he fun h0 => hy (h.old h0)
  refine ⟨fun z hz => .inr (h.old hz), ?_, ?_, fun z hz => ?_⟩
  · rintro z (rfl | hz)
    · exact .inr hf
    · exact h.sound z hz
  · rintro z (rfl | hz)
    · exact hf
    · exact h.work z hz
  · by_cases hzy : z = y
    · exact .inl (.inl hzy)
    have hz' : z ∈ P₀ ∨ (z ∈ S ∧ z ∉ S₀) := hz.imp id fun ⟨hs, h0⟩ => ⟨hs.resolve_left hzy, h0⟩
    rcases h.closed z hz' with hp | ⟨hs, hc⟩
    · exact .inl (.inr hp)
    · exact .inr ⟨.inr hs, fun w hw => .inr (hc w hw)⟩

/-- A pending node may be marked as seen at any time. -/
theorem Inv.see (h : Inv E S₀ P₀ S P) (hx : x ∈ P) : Inv E S₀ P₀ (insert x S) P := by
  refine ⟨fun z hz => .inr (h.old hz), ?_, h.work, fun z hz => ?_⟩
  · rintro z (rfl | hz)
    · exact .inr (h.work z hx)
    · exact h.sound z hz
  · by_cases hzx : z = x
    · exact .inl (hzx ▸ hx)
    have hz' : z ∈ P₀ ∨ (z ∈ S ∧ z ∉ S₀) := hz.imp id fun ⟨hs, h0⟩ => ⟨hs.resolve_left hzx, h0⟩
    rcases h.closed z hz' with hp | ⟨hs, hc⟩
    · exact .inl hp
    · exact .inr ⟨.inr hs, fun w hw => .inr (hc w hw)⟩

/-- Work may be dropped from `pending` where the node is seen and all its successors are. -/
theorem Inv.finish {P' : Set α} (h : Inv E S₀ P₀ S P) (hsub : P' ⊆ P)
    (hdone : ∀ z ∈ P, z ∉ P' → z ∈ S ∧ ∀ y, E z y → y ∈ S) : Inv E S₀ P₀ S P' := by
  refine ⟨h.old, h.sound, fun z hz => h.work z (hsub hz), fun z hz => ?_⟩
  by_cases hz' : z ∈ P'
  · exact .inl hz'
  rcases h.closed z hz with hp | hc
  · exact .inr (hdone z hp hz')
  · exact .inr hc

/-- **Worklist closure.** With nothing pending, the seen nodes are the old ones and those found. -/
theorem Inv.seen_iff (h : Inv E S₀ P₀ S ∅) (y : α) : y ∈ S ↔ y ∈ S₀ ∨ Found E S₀ P₀ y := by
  refine ⟨h.sound y, ?_⟩
  rintro (h0 | ⟨x, hx, hp⟩)
  · exact h.old h0
  · -- along the path: a node is closed, so the next one is seen
    have key : y ∈ S ∧ (y ∈ P₀ ∨ y ∉ S₀) := by
      induction hp with
      | refl => exact ⟨((h.closed x (.inl hx)).resolve_left (Set.notMem_empty x)).1, .inl hx⟩
      | @tail u v _ hv ih =>
        have hu : u ∈ P₀ ∨ (u ∈ S ∧ u ∉ S₀) := ih.2.imp id fun h0 => ⟨ih.1, h0⟩
        have hc := ((h.closed u hu).resolve_left (Set.notMem_empty u)).2
        exact ⟨hc v hv.1, .inr hv.2⟩
    exact key.1

/-- From an unseen graph, what is found is what is reachable. -/
theorem found_empty_iff : Found E ∅ P₀ y ↔ ∃ x ∈ P₀, Relation.ReflTransGen E x y := by
  have he : Fresh E (∅ : Set α) = E := by
    funext u v
    simp [Fresh]
  simp only [Found, he]

end Worklist
