import Mathlib.Data.Set.Card
import ForgeOS.Lib.Segment

/-!
# Machine words

On a 32-bit machine a pointer is a `UInt32`, and a size a natural number that increments and
decrements keep below `wordSize`, wrapping around there.
-/

universe u

/-- A pointer; `0` is the null pointer. -/
abbrev Ptr := UInt32

def wordSize : ℕ := 2 ^ 32

def wordInc (n : ℕ) : ℕ := (n + 1) % wordSize

def wordDec (n : ℕ) : ℕ := (n + (wordSize - 1)) % wordSize

variable {n : ℕ}

theorem wordInc_of_lt (h : n + 1 < wordSize) : wordInc n = n + 1 :=
  Nat.mod_eq_of_lt h

theorem wordDec_of_pos (h : 0 < n) (hn : n < wordSize) : wordDec n = n - 1 := by
  have hstep : n + (wordSize - 1) = n - 1 + wordSize := by omega
  rw [wordDec, hstep, Nat.add_mod_right, Nat.mod_eq_of_lt (by omega)]

theorem wordDec_wordInc (h : n < wordSize) : wordDec (wordInc n) = n := by
  have hpos : 0 < wordSize := Nat.zero_lt_of_lt h
  have hstep : n + 1 + (wordSize - 1) = n + wordSize := by omega
  rw [wordDec, wordInc, Nat.mod_add_mod, hstep, Nat.add_mod_right, Nat.mod_eq_of_lt h]

theorem wordInc_wordDec (h : n < wordSize) : wordInc (wordDec n) = n := by
  have hpos : 0 < wordSize := Nat.zero_lt_of_lt h
  have hstep : n + (wordSize - 1) + 1 = n + wordSize := by omega
  rw [wordInc, wordDec, Nat.mod_add_mod, hstep, Nat.add_mod_right, Nat.mod_eq_of_lt h]

theorem Ptr.toFin_injective : Function.Injective fun a : Ptr ↦ a.toFin :=
  fun _ _ h ↦ UInt32.toFin_inj.mp h

instance Ptr.finite : Finite Ptr := Finite.of_injective _ Ptr.toFin_injective

theorem length_lt_wordSize {l : List Ptr} (hnd : l.Nodup) (h0 : (0 : Ptr) ∉ l) :
    l.length < wordSize := by
  have hcons : (((0 : Ptr) :: l).map fun a ↦ a.toFin).Nodup :=
    (List.nodup_cons.mpr ⟨h0, hnd⟩).map Ptr.toFin_injective
  have hcard := hcons.length_le_card
  simpa [wordSize, Nat.succ_le_iff] using hcard

theorem ncard_lt_wordSize {S : Set Ptr} (h0 : (0 : Ptr) ∉ S) : S.ncard < wordSize := by
  have hfin : S.Finite := Set.toFinite S
  have hlt := length_lt_wordSize hfin.toFinset.nodup_toList (by simpa using h0)
  rwa [Finset.length_toList, ← Set.ncard_eq_toFinset_card S hfin] at hlt

theorem Seg.length_lt {α : Type u} {nx : α → Ptr} {h : Heap Ptr α} {a : Ptr} {l : List Ptr}
    (hs : Seg nx h a l 0) : l.length < wordSize :=
  length_lt_wordSize hs.nodup fun h0 ↦ hs.ne_zero h0 rfl
