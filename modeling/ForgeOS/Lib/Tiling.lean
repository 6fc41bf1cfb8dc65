import Mathlib.Algebra.Order.Monoid.Canonical.Defs
import Mathlib.Data.UInt

/-!
# Tilings of an interval

`Tiles lo l hi` says that the pieces of `l`, each given by its start and its length, follow one
another without a gap from `lo` to `hi`.
-/

variable {α : Type*}

section AddMonoid

variable [AddMonoid α] {lo mid hi b n k : α} {l l₁ l₂ : List (α × α)}

def Tiles : α → List (α × α) → α → Prop
  | lo, [], hi => lo = hi
  | lo, (b, n) :: l, hi => b = lo ∧ Tiles (lo + n) l hi

@[simp] theorem tiles_nil : Tiles lo [] hi ↔ lo = hi := Iff.rfl

theorem tiles_cons : Tiles lo ((b, n) :: l) hi ↔ b = lo ∧ Tiles (lo + n) l hi := Iff.rfl

theorem tiles_append : Tiles lo (l₁ ++ l₂) hi ↔ ∃ mid, Tiles lo l₁ mid ∧ Tiles mid l₂ hi := by
  induction l₁ generalizing lo with
  | nil => simp
  | cons p l₁ ih =>
    obtain ⟨b, n⟩ := p
    simp [tiles_cons, ih, and_assoc]

theorem tiles_singleton : Tiles lo [(b, n)] hi ↔ b = lo ∧ lo + n = hi := Iff.rfl

theorem tiles_cut : Tiles lo [(b, n), (b + n, k)] hi ↔ Tiles lo [(b, n + k)] hi := by
  simp only [tiles_cons, tiles_nil, ← add_assoc]
  constructor
  · rintro ⟨rfl, -, h⟩
    exact ⟨rfl, h⟩
  · rintro ⟨rfl, h⟩
    exact ⟨rfl, rfl, h⟩

end AddMonoid

section Order

variable [AddMonoid α] [PartialOrder α] [CanonicallyOrderedAdd α] {lo hi : α} {l : List (α × α)}

theorem Tiles.le (h : Tiles lo l hi) : lo ≤ hi := by
  induction l generalizing lo with
  | nil => exact h.le
  | cons p l ih => exact le_self_add.trans (ih h.2)

theorem Tiles.bounds (h : Tiles lo l hi) : ∀ p ∈ l, lo ≤ p.1 ∧ p.1 + p.2 ≤ hi := by
  induction l generalizing lo with
  | nil => simp
  | cons p l ih =>
    obtain ⟨rfl, h⟩ := h
    intro q hq
    rcases List.mem_cons.mp hq with rfl | hq
    · exact ⟨le_rfl, h.le⟩
    · obtain ⟨hlo, hhi⟩ := ih h q hq
      exact ⟨le_self_add.trans hlo, hhi⟩

end Order
