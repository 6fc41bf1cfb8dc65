import ForgeOS.Apic.Model
import ForgeOS.Lib.Bits

/-!
# What `init_apic` leaves

The I/O APICs get consecutive blocks of vectors from `IOAPIC_INT_BASE` on, and each pin the vector
of its place in the block.  No pin has a handler yet.
-/

namespace ForgeOS.Apic

open Bits Function List Option

variable {F P : Type} {a : Ioapic F P}

theorem toNat_redirLow {i : ℕ} (hi : i < 120) : (redirLow i).toNat = 16 + 2 * i := by
  rw [redirLow, UInt8.toNat_add, UInt8.toNat_ofNat']
  show (16 + i * 2 % 2 ^ 8) % 2 ^ 8 = _
  omega

theorem toNat_redirHigh {i : ℕ} (hi : i < 120) : (redirHigh i).toNat = 17 + 2 * i := by
  rw [redirHigh, UInt8.toNat_add, UInt8.toNat_ofNat']
  show (16 + (i * 2 + 1) % 2 ^ 8) % 2 ^ 8 = _
  omega

theorem redirLow_inj {i j : ℕ} (hi : i < 120) (hj : j < 120) : redirLow i = redirLow j ↔ i = j := by
  rw [← UInt8.toNat_inj, toNat_redirLow hi, toNat_redirLow hj]
  omega

theorem redirLow_ne_redirHigh {i j : ℕ} (hi : i < 120) (hj : j < 120) :
    redirLow i ≠ redirHigh j := by
  rw [Ne, ← UInt8.toNat_inj, toNat_redirLow hi, toNat_redirHigh hj]
  omega

def Ioapic.vector (a : Ioapic F P) (pin : ℕ) : ℕ := (a.reg (redirLow pin) &&& 0xFF).toNat

theorem redirect_lowByte (oride : Option Override) (leveltrig x : UInt32) :
    redirect oride leveltrig x &&& 0xFF = x &&& 0xFF := by
  cases oride with
  | none =>
    show ((x &&& (~~~0x18000 : UInt32)) ||| ((leveltrig &&& 1) <<< 15)) &&& 0xFF = _
    rw [field_set (shiftLeft_lowByte (by decide) (by decide)), field_clear (by decide)]
  | some o =>
    show (((x &&& (~~~0x18000 : UInt32)) &&& (~~~0x2000 : UInt32)) ||| (o.polarity.toUInt32 <<< 13) |||
      (o.trigger.toUInt32 <<< 15)) &&& 0xFF = _
    rw [field_set (shiftLeft_lowByte (by decide) (by decide)),
      field_set (shiftLeft_lowByte (by decide) (by decide)), field_clear (by decide),
      field_clear (by decide)]

theorem programPin_vector (bspId : UInt8) {irq : ℕ} (hirq : irq < 120)
    (hv : a.intbase + irq < 256) : (programPin bspId a irq).vector irq = a.intbase + irq := by
  have hlow : (programPin bspId a irq).reg (redirLow irq) =
      ((((a.reg (redirLow irq) &&& ~~~0xFF) |||
      (UInt32.ofNat (a.intbase + irq) &&& 0xFF)) &&& ~~~0x700) &&& ~~~0x800) &&& ~~~0x10000 := by
    show update (update _ _ _) _ _ _ = _
    rw [update_of_ne (redirLow_ne_redirHigh hirq hirq), update_self]
  have hold : (a.reg (redirLow irq) &&& ~~~0xFF) &&& 0xFF = 0 := by
    rw [UInt32.and_assoc]
    exact UInt32.and_zero
  rw [Ioapic.vector, hlow, field_clear (by decide), field_clear (by decide),
    field_clear (by decide),
    UInt32.and_or_distrib_right, hold, UInt32.zero_or, UInt32.and_assoc, UInt32.and_self,
    toNat_lowByte,
    UInt32.toNat_ofNat']
  omega

theorem programPin_vector_of_ne (bspId : UInt8) {i irq : ℕ} (hi : i < 120) (hirq : irq < 120)
    (hne : i ≠ irq) : (programPin bspId a irq).vector i = a.vector i := by
  have hlow : (programPin bspId a irq).reg (redirLow i) = a.reg (redirLow i) := by
    show update (update _ _ _) _ _ _ = _
    rw [update_of_ne (redirLow_ne_redirHigh hi hirq),
      update_of_ne fun h ↦ hne ((redirLow_inj hi hirq).mp h)]
  rw [Ioapic.vector, hlow, Ioapic.vector]

structure SameRanges (a b : Ioapic F P) : Prop where
  irqbase : b.irqbase = a.irqbase
  intbase : b.intbase = a.intbase
  intcount : b.intcount = a.intcount

theorem sameRanges_programPins (bspId : UInt8) (l : List ℕ) :
    SameRanges a (l.foldl (programPin bspId) a) := by
  induction l generalizing a with
  | nil => exact ⟨rfl, rfl, rfl⟩
  | cons irq l ih =>
    have h : SameRanges (programPin bspId a irq) (l.foldl (programPin bspId) _) := ih
    exact ⟨h.irqbase, h.intbase, h.intcount⟩

theorem vector_programPins (bspId : UInt8) {k : ℕ} (hk : k ≤ 120) (hv : a.intbase + k ≤ 256) :
    ∀ i < k, ((List.range k).foldl (programPin bspId) a).vector i = a.intbase + i := by
  induction k with
  | zero =>
    intro i hi
    omega
  | succ k ih =>
    intro i hi
    have hbase := (sameRanges_programPins (a := a) bspId (range k)).intbase
    rw [range_succ, foldl_append, foldl_cons, foldl_nil]
    rcases Nat.lt_succ_iff_lt_or_eq.mp hi with hlt | rfl
    · rw [programPin_vector_of_ne bspId (by omega) (by omega) (by omega),
        ih (by omega) (by omega) i hlt]
    · rw [programPin_vector bspId (by omega) (by omega), hbase]

/-- The I/O APICs have consecutive blocks of vectors from `intnum` on, and their pins raise them. -/
def Layout : ℕ → List (Ioapic F P) → Prop
  | _, [] => True
  | intnum, a :: rest => a.intbase = intnum ∧ (∀ i < a.intcount, a.vector i = a.intbase + i) ∧
      Layout (intnum + a.intcount) rest

structure Vacant (a : Ioapic F P) : Prop where
  length : a.handlers.length = a.intcount
  handler : ∀ h ∈ a.handlers, h.handler = none

variable {l : List (Ioapic F P)} {intnum : ℕ}

theorem Layout.intbase_le (h : Layout intnum l) :
    ∀ a ∈ l, intnum ≤ a.intbase ∧ ∀ i < a.intcount, a.vector i = a.intbase + i := by
  induction l generalizing intnum with
  | nil => simp
  | cons b rest ih =>
    intro a ha
    rcases mem_cons.mp ha with rfl | ha
    · exact ⟨h.1.ge, h.2.1⟩
    · obtain ⟨hle, hvec⟩ := ih h.2.2 a ha
      exact ⟨by omega, hvec⟩

section

variable [Zero P]

def Ioapic.pins (a : Ioapic F P) : ℕ := ((a.reg 1 >>> 16) &&& 0xFF).toNat + 1

theorem initIoapic_intcount (bspId : UInt8) (intnum : ℕ) :
    (initIoapic bspId intnum a).intcount = a.pins :=
  (sameRanges_programPins bspId _).intcount

theorem initIoapic_intbase (bspId : UInt8) (intnum : ℕ) :
    (initIoapic bspId intnum a).intbase = intnum :=
  (sameRanges_programPins bspId _).intbase

theorem vacant_initIoapic (bspId : UInt8) (intnum : ℕ) : Vacant (initIoapic bspId intnum a) := by
  refine ⟨length_replicate, ?_⟩
  intro h hh
  rw [eq_of_mem_replicate hh]

theorem vector_initIoapic (bspId : UInt8) (hk : a.pins ≤ 120) (hv : intnum + a.pins ≤ 256) :
    ∀ i < a.pins, (initIoapic bspId intnum a).vector i = intnum + i :=
  vector_programPins (a := { a with intcount := a.pins, intbase := intnum }) bspId hk hv

theorem layout_initIoapics (bspId : UInt8) (hk : ∀ a ∈ initIoapics bspId intnum l, a.intcount ≤ 120)
    (hv : intnum + ((initIoapics bspId intnum l).map Ioapic.intcount).sum ≤ 256) :
    Layout intnum (initIoapics bspId intnum l) := by
  induction l generalizing intnum with
  | nil => trivial
  | cons a l ih =>
    simp only [initIoapics, map_cons, sum_cons, initIoapic_intcount] at hk hv ⊢
    have hpins : a.pins ≤ 120 := by
      rw [← initIoapic_intcount bspId intnum]
      exact hk _ (mem_cons_self ..)
    refine ⟨initIoapic_intbase bspId intnum, ?_, ?_⟩
    · intro i hi
      rw [initIoapic_intcount] at hi
      rw [initIoapic_intbase, vector_initIoapic bspId hpins (by omega) i hi]
    · rw [initIoapic_intcount]
      exact ih (fun b hb ↦ hk b (mem_cons_of_mem _ hb)) (by omega)

theorem vacant_initIoapics (bspId : UInt8) : ∀ a ∈ initIoapics bspId intnum l, Vacant a := by
  induction l generalizing intnum with
  | nil =>
    intro a ha
    exact absurd ha not_mem_nil
  | cons b l ih =>
    intro a ha
    rcases mem_cons.mp ha with rfl | ha
    · exact vacant_initIoapic bspId intnum
    · exact ih a ha

theorem initApic_eq_some {apicid : UInt8} {devices : UInt32 → UInt8 → UInt32} {madt : List Subtable}
    {s : Apic F P} (h : initApic apicid devices madt = some s)
    (hk : ∀ a ∈ s.ioapicList, a.intcount ≤ 120)
    (hv : ioapicIntBase + (s.ioapicList.map Ioapic.intcount).sum ≤ 256) :
    Layout ioapicIntBase s.ioapicList ∧ ∀ a ∈ s.ioapicList, Vacant a := by
  rw [initApic] at h
  split at h
  · cases h
  · obtain rfl := some.inj h
    exact ⟨layout_initIoapics _ hk hv, vacant_initIoapics _⟩

end

end ForgeOS.Apic
