import ForgeOS.Lib.Fuel
import ForgeOS.Vmem.Made
import ForgeOS.Vmem.V2p

/-!
# Is memory mapped?

The counter of the loop of `AcpiOsReadable` counts bytes, but is multiplied by the size of a page
once more, so after the first page it looks at pages 16 MB apart.  Nor does it look at the page that
an unaligned start makes it reach at the end, and behind 0xFFFFF000 the counter wraps.

The main result is `answers_iff`: for any page tables it says for which memory the answer is right.
-/

namespace ForgeOS.Acpi

open Paging Vmem Option UInt32 Nat

def readableFrom (s : Vmem) (memory length : UInt32) : ℕ → UInt32 → Option Bool
  | 0, _ => none
  | fuel + 1, i =>
    if i < length then
      (s.archVmemIsmapped (memory + i * 0x1000)).bind fun mapped ↦
        if mapped then readableFrom s memory length fuel (i + 0x1000) else some false
    else some true

def acpiOsReadable (s : Vmem) (memory length : UInt32) (fuel : ℕ) : Option Bool :=
  readableFrom s memory length fuel 0

def Readable (s : Vmem) (memory length : UInt32) : Prop :=
  ∀ k < length.toNat, s.Mapped (memory + .ofNat k)

/-- `AcpiOsReadable` returns, and what it returns is right. -/
def Answers (s : Vmem) (memory length : UInt32) : Prop :=
  ∃ b, Returns (acpiOsReadable s memory length) b ∧ (b = true ↔ Readable s memory length)

variable {s : Vmem} {memory length i : UInt32} {b : Bool}

theorem readableFrom_succ (h : WF s) (memory length : UInt32) (fuel : ℕ) (i : UInt32) :
    readableFrom s memory length (fuel + 1) i =
      if i < length then
        if s.Mapped (memory + i * 0x1000) then readableFrom s memory length fuel (i + 0x1000)
        else some false
      else some true := by
  rw [readableFrom, h.archVmemIsmapped, bind_some]
  simp only [h.mapped_iff]

/-- Every page that the loop looks at before its counter reaches the end is mapped.  These pages are
16 MB apart. -/
def Strides (s : Vmem) (memory length : UInt32) : Prop :=
  ∀ k, k * 0x1000 < length.toNat → s.Mapped (memory + .ofNat (k * 0x1000000))

theorem stride_eq (memory : UInt32) (k : ℕ) :
    memory + ofNat (k * 0x1000) * 0x1000 = memory + .ofNat (k * 0x1000000) := by
  rw [show k * 0x1000000 = k * 0x1000 * 0x1000 by omega, ofNat_mul (k * 0x1000)]
  rfl

/-- A turn of the loop, when its counter is at `k * PAGE_SIZE`. -/
theorem readableFrom_turn (h : WF s) {k : ℕ} (hk : k * 0x1000 < length.toNat) (fuel : ℕ) :
    readableFrom s memory length (fuel + 1) (.ofNat (k * 0x1000)) =
      if s.Mapped (memory + .ofNat (k * 0x1000000)) then
        readableFrom s memory length fuel (.ofNat ((k + 1) * 0x1000))
      else some false := by
  have hlt : ofNat (k * 0x1000) < length := by
    have hsize := length.toNat_lt
    rw [lt_iff_toNat_lt, UInt32.toNat_ofNat', mod_eq_of_lt (by omega)]
    exact hk
  rw [readableFrom_succ h, if_pos hlt, stride_eq, add_mul, ofNat_add]
  rfl

/-- The first `k` turns, if all their pages are mapped. -/
theorem readableFrom_turns (h : WF s) (k : ℕ) (hlook : ∀ j < k, j * 0x1000 < length.toNat ∧
    s.Mapped (memory + .ofNat (j * 0x1000000))) (fuel : ℕ) :
    acpiOsReadable s memory length (fuel + k) =
      readableFrom s memory length fuel (.ofNat (k * 0x1000)) := by
  induction k generalizing fuel with
  | zero => rw [acpiOsReadable, Nat.zero_mul]; rfl
  | succ k ih =>
    obtain ⟨hk, hmapped⟩ := hlook k (lt_succ_self k)
    rw [← add_assoc, add_right_comm, ih (fun j hj ↦ hlook j (lt_succ_of_lt hj)),
      readableFrom_turn h hk, if_pos hmapped]

theorem returns_false (h : WF s) (hstrides : ¬ Strides s memory length) :
    Returns (acpiOsReadable s memory length) false := by
  classical
  have hex : ∃ k, k * 0x1000 < length.toNat ∧ ¬ s.Mapped (memory + .ofNat (k * 0x1000000)) := by
    rw [Strides] at hstrides
    push Not at hstrides
    exact hstrides
  -- The loop stops at the first of these pages.
  obtain ⟨hk, hnot⟩ := Nat.find_spec hex
  have hlook : ∀ j < Nat.find hex, j * 0x1000 < length.toNat ∧
      s.Mapped (memory + .ofNat (j * 0x1000000)) := by
    intro j hj
    have hjk : j * 0x1000 < length.toNat :=
      lt_trans (Nat.mul_lt_mul_of_pos_right hj (by decide)) hk
    exact ⟨hjk, by_contra fun hj' ↦ Nat.find_min hex hj ⟨hjk, hj'⟩⟩
  refine ⟨Nat.find hex + 1, fun fuel hfuel ↦ ?_⟩
  obtain ⟨n, rfl⟩ : ∃ n, fuel = n + 1 + Nat.find hex := ⟨fuel - 1 - Nat.find hex, by omega⟩
  rw [readableFrom_turns h _ hlook, readableFrom_turn h hk, if_neg hnot]

theorem returns_true (h : WF s) (hstrides : Strides s memory length)
    (hlen : length.toNat ≤ 0xFFFFF000) : Returns (acpiOsReadable s memory length) true := by
  obtain ⟨n, hn, hturn⟩ : ∃ n, length.toNat ≤ n * 0x1000 ∧ n * 0x1000 < length.toNat + 0x1000 :=
    ⟨(length.toNat + 0xFFF) / 0x1000, by omega⟩
  have hlook : ∀ j < n, j * 0x1000 < length.toNat ∧
      s.Mapped (memory + .ofNat (j * 0x1000000)) := by
    intro j hj
    have hjn : j * 0x1000 < length.toNat := by
      have hle := mul_le_mul_right 0x1000 (succ_le_of_lt hj)
      rw [succ_mul] at hle
      exact Nat.lt_of_add_lt_add_right (lt_of_le_of_lt hle hturn)
    exact ⟨hjn, hstrides j hjn⟩
  have hdone : ¬ ofNat (n * 0x1000) < length := by
    rw [lt_iff_toNat_lt, UInt32.toNat_ofNat', mod_eq_of_lt (by omega)]
    omega
  refine ⟨n + 1, fun fuel hfuel ↦ ?_⟩
  obtain ⟨m, rfl⟩ : ∃ m, fuel = m + 1 + n := ⟨fuel - 1 - n, by omega⟩
  rw [readableFrom_turns h n hlook, readableFrom_succ h, if_neg hdone]

/-- The counter wraps before it reaches the end, and the loop begins anew. -/
theorem readableFrom_none (h : WF s) (hstrides : Strides s memory length)
    (hlen : 0xFFFFF000 < length.toNat) (fuel k : ℕ) :
    readableFrom s memory length fuel (.ofNat (k * 0x1000)) = none := by
  induction fuel generalizing k with
  | zero => rfl
  | succ fuel ih =>
    have hwrap : ofNat (k * 0x1000) = .ofNat (k % 0x100000 * 0x1000) := by
      refine UInt32.toNat_inj.mp ?_
      rw [UInt32.toNat_ofNat', UInt32.toNat_ofNat']
      omega
    have hk : k % 0x100000 * 0x1000 < length.toNat := by omega
    rw [hwrap, readableFrom_turn h hk, if_pos (hstrides _ hk), ih]

theorem toNat_memory (hend : memory.toNat + length.toNat ≤ 2 ^ 32) {k : ℕ} (hk : k < length.toNat) :
    (memory + .ofNat k).toNat = memory.toNat + k := by
  rw [UInt32.toNat_add, UInt32.toNat_ofNat']
  omega

/-- **When `AcpiOsReadable` is right**: if the memory is mapped, the pages 16 MB apart have to be
mapped too, and the counter must not wrap; if it is not, one of these pages has to be missing. -/
theorem answers_iff (h : WF s) (memory length : UInt32) : Answers s memory length ↔
    (Readable s memory length ∧ Strides s memory length ∧ length.toNat ≤ 0xFFFFF000) ∨
      (¬ Readable s memory length ∧ ¬ Strides s memory length) := by
  by_cases hstrides : Strides s memory length
  · have hwrap : 0xFFFFF000 < length.toNat → ∀ b, ¬ Returns (acpiOsReadable s memory length) b := by
      rintro hlen b ⟨N, hN⟩
      have hnone := readableFrom_none h hstrides hlen N 0
      exact absurd ((hN N le_rfl).symm.trans hnone) (some_ne_none b)
    constructor
    · rintro ⟨b, hret, hb⟩
      have hlen : length.toNat ≤ 0xFFFFF000 := not_lt.mp fun hlen ↦ hwrap hlen b hret
      exact .inl ⟨hb.mp (hret.unique (returns_true h hstrides hlen)), hstrides, hlen⟩
    · rintro (⟨hread, -, hlen⟩ | ⟨-, hnot⟩)
      · exact ⟨true, returns_true h hstrides hlen, iff_of_true rfl hread⟩
      · exact absurd hstrides hnot
  · have hfalse := returns_false h hstrides
    constructor
    · rintro ⟨b, hret, hb⟩
      refine .inr ⟨fun hread ↦ ?_, hstrides⟩
      cases (hret.unique hfalse).symm.trans (hb.mpr hread)
    · rintro (⟨-, hyes, -⟩ | ⟨hread, -⟩)
      · exact absurd hyes hstrides
      · exact ⟨false, hfalse, iff_of_false Bool.false_ne_true hread⟩

def fourMegabytes : Vmem := made (fun d ↦ decide (d = 896)) fun _ ↦ true

theorem mapped_fourMegabytes {v : UInt32} (hv : v < 0xFFC00000) :
    fourMegabytes.Mapped v ↔ dirIndex v = 896 := by
  rw [fourMegabytes, (wf_made _ _).mapped_iff, lookup_made,
    if_neg (show (page v).1 ≠ 1023 from dirIndex_ne hv), decide_eq_true_iff, and_iff_left rfl]
  exact Iff.rfl

/-- Within the four megabytes, a range is mapped. -/
theorem readable_fourMegabytes (hstart : 0xE0000000 ≤ memory.toNat)
    (hend : memory.toNat + length.toNat ≤ 0xE0400000) : Readable fourMegabytes memory length := by
  intro k hk
  have haddr : (memory + ofNat k).toNat = memory.toNat + k := toNat_memory (by omega) hk
  have hlow : memory + ofNat k < 0xFFC00000 := by
    refine lt_iff_toNat_lt.mpr ?_
    rw [haddr]
    show _ < 0xFFC00000
    omega
  rw [mapped_fourMegabytes hlow]
  refine Fin.ext ?_
  show (memory + ofNat k).toNat / 2 ^ 22 = 896
  omega

/-- A range that is mapped, on one page, and one that is not, although it is longer. -/
theorem answers_fourMegabytes :
    WF fourMegabytes ∧ Answers fourMegabytes 0xE0001234 0x100 ∧
      Answers fourMegabytes 0xE0400000 0x2000 := by
  have hwf : WF fourMegabytes := wf_made _ _
  refine ⟨hwf, (answers_iff hwf _ _).mpr (.inl ⟨?_, fun k hk ↦ ?_, by decide⟩),
    (answers_iff hwf _ _).mpr (.inr ⟨fun hread ↦ ?_, fun hstrides ↦ ?_⟩)⟩
  · exact readable_fourMegabytes (by decide) (by decide)
  · obtain rfl : k = 0 := by
      have hk' : k * 0x1000 < 0x100 := hk
      omega
    rw [mapped_fourMegabytes (by decide)]
    decide
  · have hfirst := hread 0 (by decide)
    rw [mapped_fourMegabytes (by decide)] at hfirst
    exact absurd hfirst (by decide)
  · have hfirst := hstrides 0 (by decide)
    rw [mapped_fourMegabytes (by decide)] at hfirst
    exact absurd hfirst (by decide)

/-- Of the first two pages the answer is no, of bytes beyond the last one it is yes. -/
theorem not_answers_fourMegabytes :
    (Readable fourMegabytes 0xE0000000 0x2000 ∧
      Returns (acpiOsReadable fourMegabytes 0xE0000000 0x2000) false ∧
      ¬ Answers fourMegabytes 0xE0000000 0x2000) ∧
    ¬ Readable fourMegabytes 0xE03FFFF0 0x20 ∧
      Returns (acpiOsReadable fourMegabytes 0xE03FFFF0 0x20) true ∧
      ¬ Answers fourMegabytes 0xE03FFFF0 0x20 := by
  have hwf : WF fourMegabytes := wf_made _ _
  have hread : Readable fourMegabytes 0xE0000000 0x2000 :=
    readable_fourMegabytes (by decide) (by decide)
  have hno : Returns (acpiOsReadable fourMegabytes 0xE0000000 0x2000) false := by
    refine returns_false hwf fun hstrides ↦ ?_
    have hsecond := hstrides 1 (by decide)
    rw [mapped_fourMegabytes (by decide)] at hsecond
    exact absurd hsecond (by decide)
  have hnot : ¬ Readable fourMegabytes 0xE03FFFF0 0x20 := by
    intro hread
    have hnext := hread 0x10 (by decide)
    rw [mapped_fourMegabytes (by decide)] at hnext
    exact absurd hnext (by decide)
  have hyes : Returns (acpiOsReadable fourMegabytes 0xE03FFFF0 0x20) true := by
    refine returns_true hwf (fun k hk ↦ ?_) (by decide)
    obtain rfl : k = 0 := by
      have hk' : k * 0x1000 < 0x20 := hk
      omega
    rw [mapped_fourMegabytes (by decide)]
    decide
  refine ⟨⟨hread, hno, ?_⟩, hnot, hyes, ?_⟩
  · rintro ⟨b, hret, hb⟩
    rw [hret.unique hno] at hb
    cases hb.mpr hread
  · rintro ⟨b, hret, hb⟩
    exact hnot (hb.mp (hret.unique hyes))

end ForgeOS.Acpi
