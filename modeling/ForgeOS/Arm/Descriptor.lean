import ForgeOS.Arm.Model

/-!
# The descriptor of a page on ARMv7

`AP1_KERNEL` has the bit set that lets user code in, the type of memory that `VMEM_DEVICE` asks for
is written over by that of cached memory, and of the physical address 32 bits are left.

The main result is `encodes_iff`.
-/

namespace ForgeOS.ArmVmem

open ArmMmu BitField List SecondLevel

theorem level2_type : Level2.type = type := rfl
theorem level2_b : Level2.b = b := rfl
theorem level2_c : Level2.c = c := rfl
theorem level2_apLow : Level2.apLow = ap1 := rfl
theorem level2_tex : Level2.tex = tex := rfl
theorem level2_apHigh : Level2.apHigh = ap2 := rfl
theorem level2_nG : Level2.nG = nG := rfl

variable {paddr f : UInt32}

theorem get_smallPage :
    type.get (smallPage paddr f) = (if f &&& vmemExec ≠ 0 then 2 else 3) ∧
      ap1.get (smallPage paddr f) = (if f &&& vmemUsermode ≠ 0 then 2 else 3) ∧
      ap2.get (smallPage paddr f) = (if f &&& vmemReadwrite ≠ 0 then 0 else 1) ∧
      nG.get (smallPage paddr f) =
        (if f &&& vmemGlobal = 0 then 1 else nG.get paddr) ∧
      tex.get (smallPage paddr f) = 6 ∧ c.get (smallPage paddr f) = 0 ∧
      b.get (smallPage paddr f) = 1 ∧
      Level2.smallBase.get (smallPage paddr f) = Level2.smallBase.get paddr := by
  have htype : (if f &&& vmemExec ≠ 0 then seclevelSmall else seclevelSmallnx) % 4 =
      if f &&& vmemExec ≠ 0 then 2 else 3 := by
    split <;> rfl
  have hap1 : ap1Flags f % 4 = if f &&& vmemUsermode ≠ 0 then 2 else 3 := by
    rw [ap1Flags]
    split <;> rfl
  have hap2 : ap2Flags f % 2 = if f &&& vmemReadwrite ≠ 0 then 0 else 1 := by
    rw [ap2Flags]
    split <;> rfl
  rw [smallPage, assignAll, assignments]
  by_cases hglobal : f &&& vmemGlobal = 0 <;> by_cases hdevice : f &&& vmemDevice = 0
  all_goals
    simp (disch := decide) only [hglobal, hdevice, if_true, if_false, ne_eq, not_true_eq_false,
      not_false_eq_true, foldl_append, foldl_cons, foldl_nil, get_set_of_apart,
      get_set]
    exact ⟨htype, hap1, hap2, by trivial, rfl, rfl, rfl, trivial⟩

def described (paddr f : UInt32) : SmallPage where
  base := Level2.smallBase.get paddr * 2 ^ 12
  executeNever := f &&& vmemExec = 0
  notGlobal := f &&& vmemGlobal = 0 ∨ nG.get paddr = 1
  apHigh := if f &&& vmemReadwrite ≠ 0 then 0 else 1
  apLow := if f &&& vmemUsermode ≠ 0 then 2 else 3
  memory := .normal .writeThrough .writeBackAllocate

theorem decode_smallPage : decode₂ (smallPage paddr f) = .small (described paddr f) := by
  obtain ⟨htype, hap1, hap2, hnG, htex, hc, hb, hbase⟩ := @get_smallPage paddr f
  have hxn : Level2.xn.get (smallPage paddr f) = if f &&& vmemExec = 0 then 1 else 0 := by
    rw [get_of_within (g := type) (by decide), htype]
    split
    all_goals simp_all [Level2.xn, type]
  have htype' : 2 ≤ type.get (smallPage paddr f) := by
    rw [htype]
    split <;> decide
  rw [decode₂, level2_type, level2_nG, level2_apHigh, level2_apLow, level2_tex, level2_c, level2_b]
  split
  next h0 => omega
  next h1 => omega
  next =>
    rw [hxn, hnG, hap1, hap2, htex, hc, hb, hbase, described]
    congr 2
    · by_cases h : f &&& vmemExec = 0 <;> simp [h]
    · by_cases h : f &&& vmemGlobal = 0 <;> simp [h]

/-- The word says of a page what was asked for: its frame, and that it may be executed, is global or
may be written to exactly if the flag is there, that user code may do nothing with it if it is not
for user code, and that it is a device if it is one. -/
def Encodes (accessFlag : Bool) (p : UInt64) (f w : UInt32) : Prop :=
  ∃ page, decode₂ w = .small page ∧ page.base = p.toNat ∧
    (page.executeNever = true ↔ f &&& vmemExec = 0) ∧
    (page.notGlobal = true ↔ f &&& vmemGlobal = 0) ∧
    ((page.access accessFlag).1 = .readWrite ↔ f &&& vmemReadwrite ≠ 0) ∧
    (f &&& vmemUsermode = 0 → (page.access accessFlag).2 = .none) ∧
    (f &&& vmemDevice ≠ 0 → page.memory = .device)

theorem toNat_paddr (p : UInt64) : (p &&& 0xFFFFFFFF).toUInt32.toNat = p.toNat % 2 ^ 32 := by
  have hmask : (0xFFFFFFFF : UInt64).toNat = 2 ^ 32 - 1 := rfl
  rw [UInt64.toNat_toUInt32, UInt64.toNat_and, hmask, Nat.and_two_pow_sub_one_eq_mod, Nat.mod_mod]

theorem base_described (p : UInt64) (f : UInt32) :
    (described (p &&& 0xFFFFFFFF).toUInt32 f).base = p.toNat % 2 ^ 32 / 0x1000 * 0x1000 := by
  simp only [described, BitField.get, toNat_paddr, Level2.smallBase]
  omega

/-- **What becomes of the flags.**  The descriptor is right exactly if the page lies below 4 GB, is
for user code, and is not a device. -/
theorem encodes_iff (accessFlag : Bool) {p : UInt64} (hp : p.toNat % 0x1000 = 0) (f : UInt32) :
    Encodes accessFlag p f (smallPage (p &&& 0xFFFFFFFF).toUInt32 f) ↔
      p.toNat < 2 ^ 32 ∧ f &&& vmemUsermode ≠ 0 ∧ f &&& vmemDevice = 0 := by
  have hbase : (described (p &&& 0xFFFFFFFF).toUInt32 f).base = p.toNat % 2 ^ 32 := by
    rw [base_described]
    omega
  have hnG : nG.get (p &&& 0xFFFFFFFF).toUInt32 = 0 := by
    simp only [BitField.get, toNat_paddr, nG]
    omega
  -- Whether a page is for user code or not, bit 1 of the access permissions is set.
  have hbit : 2 ≤ (described (p &&& 0xFFFFFFFF).toUInt32 f).apLow := by
    show 2 ≤ if f &&& vmemUsermode ≠ 0 then 2 else 3
    split <;> decide
  obtain ⟨huser, hwrite⟩ := SmallPage.access_of_bit_one hbit accessFlag
  constructor
  · rintro ⟨page, hpage, hframe, -, -, -, hnouser, hdevice⟩
    rw [decode_smallPage, Second.small.injEq] at hpage
    subst hpage
    refine ⟨?_, fun h ↦ huser (hnouser h), ?_⟩
    · have hframe' := hbase.symm.trans hframe
      omega
    · by_contra h
      cases hdevice h
  · rintro ⟨hframe, hmode, hdevice⟩
    refine ⟨_, decode_smallPage, hbase.trans (Nat.mod_eq_of_lt hframe), decide_eq_true_iff, ?_, ?_,
      fun h ↦ absurd h hmode, fun h ↦ absurd hdevice h⟩
    · rw [described, decide_eq_true_iff, hnG]
      exact or_iff_left zero_ne_one
    · rw [hwrite, described]
      simp

theorem encodes_userPage :
    Encodes true 0x90000000 0x3 (smallPage ((0x90000000 : UInt64) &&& 0xFFFFFFFF).toUInt32 0x3) :=
  (encodes_iff true (by decide) 0x3).mpr (by decide)

/-- **A device of the kernel** is cached, and user code may write to it. -/
theorem not_encodes_device :
    ∃ page, decode₂ (smallPage 0x49020000 0x301) = .small page ∧
      (page.access true).2 = .readWrite ∧
      page.memory = .normal .writeThrough .writeBackAllocate ∧
      ¬ Encodes true 0x49020000 0x301 (smallPage 0x49020000 0x301) := by
  refine ⟨_, decode_smallPage, rfl, rfl, ?_⟩
  rintro ⟨page, hpage, -, -, -, -, -, hdevice⟩
  rw [decode_smallPage, Second.small.injEq] at hpage
  subst hpage
  exact absurd (hdevice (by decide)) nofun

end ForgeOS.ArmVmem
