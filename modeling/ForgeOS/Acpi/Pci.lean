import ForgeOS.Lib.Bits
import ForgeOS.Lib.Memory

/-!
# The PCI configuration space

`AcpiOsReadPciConfiguration` and `AcpiOsWritePciConfiguration` do not use the width: a field of less
than 32 bits is read and written along with its neighbours.

The main result is `exact_iff`.
-/

namespace ForgeOS.Pci

open Memory UInt32

structure PciId where
  segment : UInt16
  bus : UInt16
  device : UInt16
  function : UInt16

structure Host where
  configAddress : UInt32
  space : Memory

namespace Host

/-- Is the data port connected to a configuration space? -/
def Enabled (h : Host) : Prop := 0x80000000 ≤ h.configAddress

instance (h : Host) : Decidable h.Enabled := inferInstanceAs (Decidable (_ ≤ _))

def selected (h : Host) : UInt32 := h.configAddress &&& 0xFFFFFC

def outl (h : Host) (port : UInt16) (x : UInt32) : Host :=
  if port = 0xCF8 then { h with configAddress := x }
  else if port = 0xCFC ∧ h.Enabled then { h with space := h.space.store h.selected x }
  else h

def inl (h : Host) (port : UInt16) : UInt32 :=
  if port = 0xCFC ∧ h.Enabled then h.space.load h.selected else 0xFFFFFFFF

end Host

def configAddr (id : PciId) (register : UInt32) : UInt32 :=
  (id.bus.toUInt32 <<< 16) ||| (id.device.toUInt32 <<< 11) ||| (id.function.toUInt32 <<< 8) |||
    (register &&& 0xFC) ||| 0x80000000

/-- `AcpiOsReadPciConfiguration`: the value read, and the bridge. -/
def acpiOsReadPciConfiguration (h : Host) (id : PciId) (register _width : UInt32) : UInt64 × Host :=
  let h := h.outl 0xCF8 (configAddr id register)
  ((h.inl 0xCFC).toUInt64, h)

def acpiOsWritePciConfiguration (h : Host) (id : PciId) (register : UInt32) (value : UInt64)
    (_width : UInt32) : Host :=
  let h := h.outl 0xCF8 (configAddr id register)
  h.outl 0xCFC value.toUInt32

/-- A field of the configuration space of a function: the numbers are those of a function, and the
register is aligned to the width. -/
structure IsField (id : PciId) (register width : UInt32) : Prop where
  bus_lt : id.bus < 256
  device_lt : id.device < 32
  function_lt : id.function < 8
  register_lt : register < 256
  width_mem : width = 8 ∨ width = 16 ∨ width = 32
  aligned : register.toNat % (width.toNat / 8) = 0

def base (id : PciId) : UInt32 :=
  ofNat (id.bus.toNat * 0x10000 + id.device.toNat * 0x800 + id.function.toNat * 0x100)

def field (id : PciId) (register width : UInt32) : Set UInt32 :=
  bytes (base id + register) (width.toNat / 8)

def value (h : Host) (id : PciId) (register width : UInt32) : ℕ :=
  h.space.number (base id + register) (width.toNat / 8)

/-- **Reads return the field and writes change the field**, whatever the space holds and whatever is
written. -/
structure Exact (id : PciId) (register width : UInt32) : Prop where
  read : ∀ h, (acpiOsReadPciConfiguration h id register width).1.toNat = value h id register width
  read_space : ∀ h, (acpiOsReadPciConfiguration h id register width).2.space = h.space
  write : ∀ h x, value (acpiOsWritePciConfiguration h id register x width) id register width =
    x.toNat % 2 ^ width.toNat
  frame : ∀ h x, Set.EqOn (acpiOsWritePciConfiguration h id register x width).space h.space
    (field id register width)ᶜ
  read_write : ∀ h x,
    (acpiOsReadPciConfiguration (acpiOsWritePciConfiguration h id register x width) id register
      width).1.toNat = x.toNat % 2 ^ width.toNat

variable {id : PciId} {register width : UInt32} {h : Host}

theorem IsField.bounds (hf : IsField id register width) :
    id.bus.toNat < 256 ∧ id.device.toNat < 32 ∧ id.function.toNat < 8 ∧ register.toNat < 256 :=
  ⟨UInt16.lt_iff_toNat_lt.mp hf.bus_lt, UInt16.lt_iff_toNat_lt.mp hf.device_lt,
    UInt16.lt_iff_toNat_lt.mp hf.function_lt, lt_iff_toNat_lt.mp hf.register_lt⟩

theorem toNat_shifted (x : UInt16) {k : UInt32} (hk : k.toNat ≤ 16) :
    (x.toUInt32 <<< k).toNat = 2 ^ k.toNat * x.toNat := by
  have hfits : 2 ^ k.toNat * x.toNat < 2 ^ 32 :=
    calc 2 ^ k.toNat * x.toNat < 2 ^ k.toNat * 2 ^ 16 :=
          Nat.mul_lt_mul_of_pos_left x.toNat_lt (Nat.two_pow_pos _)
      _ ≤ 2 ^ 16 * 2 ^ 16 := Nat.mul_le_mul_right _ (Nat.pow_le_pow_right (by decide) hk)
  have hmod : k.toNat % 32 = k.toNat := Nat.mod_eq_of_lt (by omega)
  rw [UInt32.toNat_shiftLeft, UInt16.toNat_toUInt32, hmod, Nat.shiftLeft_eq, Nat.mul_comm,
    Nat.mod_eq_of_lt hfits]

theorem toNat_configAddr (hf : IsField id register width) :
    (configAddr id register).toNat =
      0x80000000 + (id.bus.toNat * 0x10000 + id.device.toNat * 0x800 + id.function.toNat * 0x100 +
        register.toNat / 4 * 4) := by
  obtain ⟨hbus, hdev, hfn, hreg⟩ := hf.bounds
  have hmask : (0xFC : UInt32).toNat = (2 ^ 6 - 1) <<< 2 := by decide
  rw [configAddr]
  simp only [UInt32.toNat_or, UInt32.toNat_and, hmask, Bits.and_mask_shiftLeft,
    toNat_shifted _ (show (16 : UInt32).toNat ≤ 16 by decide),
    toNat_shifted _ (show (11 : UInt32).toNat ≤ 16 by decide),
    toNat_shifted _ (show (8 : UInt32).toNat ≤ 16 by decide), reduceToNat]
  -- the parts have no bits in common, so that they are added
  have h16 : 2 ^ 16 * id.bus.toNat ||| 2 ^ 11 * id.device.toNat =
      2 ^ 11 * (32 * id.bus.toNat + id.device.toNat) := by
    rw [← Nat.two_pow_add_eq_or_of_lt (by omega)]
    omega
  have h11 : 2 ^ 11 * (32 * id.bus.toNat + id.device.toNat) ||| 2 ^ 8 * id.function.toNat =
      2 ^ 8 * (256 * id.bus.toNat + 8 * id.device.toNat + id.function.toNat) := by
    rw [← Nat.two_pow_add_eq_or_of_lt (by omega)]
    omega
  have h8 := Nat.two_pow_add_eq_or_of_lt (i := 8) (b := register.toNat / 2 ^ 2 % 2 ^ 6 * 2 ^ 2)
    (by omega) (256 * id.bus.toNat + 8 * id.device.toNat + id.function.toNat)
  have h31 := Nat.two_pow_add_eq_or_of_lt (i := 31)
    (b := 2 ^ 8 * (256 * id.bus.toNat + 8 * id.device.toNat + id.function.toNat) +
      register.toNat / 2 ^ 2 % 2 ^ 6 * 2 ^ 2) (by omega) 1
  rw [h16, h11, ← h8, Nat.or_comm, show 2147483648 = 2 ^ 31 * 1 from rfl, ← h31]
  omega

theorem toNat_selected (hf : IsField id register width)
    (hsel : h.configAddress = configAddr id register) :
    h.selected.toNat = id.bus.toNat * 0x10000 + id.device.toNat * 0x800 +
      id.function.toNat * 0x100 + register.toNat / 4 * 4 := by
  obtain ⟨hbus, hdev, hfn, hreg⟩ := hf.bounds
  have hmask : (0xFFFFFC : UInt32).toNat = (2 ^ 22 - 1) <<< 2 := by decide
  rw [Host.selected, hsel, UInt32.toNat_and, hmask, Bits.and_mask_shiftLeft, toNat_configAddr hf]
  omega

def word (id : PciId) (register : UInt32) : UInt32 :=
  base id + ofNat (register.toNat / 4 * 4)

theorem selected_eq (hf : IsField id register width)
    (hsel : h.configAddress = configAddr id register) : h.selected = word id register := by
  obtain ⟨hbus, hdev, hfn, hreg⟩ := hf.bounds
  rw [← UInt32.toNat_inj, toNat_selected hf hsel, word, base, UInt32.toNat_add, toNat_ofNat',
    toNat_ofNat']
  omega

theorem enabled_of_configAddr (hf : IsField id register width)
    (hsel : h.configAddress = configAddr id register) : h.Enabled := by
  rw [Host.Enabled, le_iff_toNat_le, hsel, toNat_configAddr hf]
  exact Nat.le_add_right _ _

theorem read_eq (hf : IsField id register width) (h : Host) :
    acpiOsReadPciConfiguration h id register width =
      ((h.space.load (word id register)).toUInt64, ⟨configAddr id register, h.space⟩) := by
  let selecting : Host := ⟨configAddr id register, h.space⟩
  have henabled : selecting.Enabled := enabled_of_configAddr hf rfl
  have hselected : selecting.selected = word id register := selected_eq hf rfl
  show ((selecting.inl 0xCFC).toUInt64, selecting) = _
  rw [Host.inl, if_pos ⟨rfl, henabled⟩, hselected]

theorem write_eq (hf : IsField id register width) (h : Host) (x : UInt64) :
    acpiOsWritePciConfiguration h id register x width =
      ⟨configAddr id register, h.space.store (word id register) x.toUInt32⟩ := by
  let selecting : Host := ⟨configAddr id register, h.space⟩
  have henabled : selecting.Enabled := enabled_of_configAddr hf rfl
  have hselected : selecting.selected = word id register := selected_eq hf rfl
  show selecting.outl 0xCFC x.toUInt32 = _
  rw [Host.outl, if_neg (by decide), if_pos ⟨rfl, henabled⟩, hselected]

theorem exact_of_word (hf : IsField id register 32) : Exact id register 32 := by
  have haligned : register.toNat % 4 = 0 := hf.aligned
  have hreg : base id + register = word id register := by
    rw [word, ← UInt32.toNat_inj, UInt32.toNat_add, UInt32.toNat_add, toNat_ofNat']
    have hlt := register.toNat_lt
    rw [Nat.div_mul_cancel (Nat.dvd_of_mod_eq_zero haligned), Nat.mod_eq_of_lt hlt]
  have hvalue : ∀ h, value h id register 32 = (h.space.load (word id register)).toNat := by
    intro h
    rw [toNat_load, ← hreg]
    rfl
  have hmod : ∀ x : UInt64, x.toUInt32.toNat = x.toNat % 2 ^ 32 := fun x ↦ UInt64.toNat_toUInt32 x
  refine ⟨fun h ↦ ?_, fun h ↦ ?_, fun h x ↦ ?_, fun h x ↦ ?_, fun h x ↦ ?_⟩
  · rw [read_eq hf, hvalue, toNat_toUInt64]
  · rw [read_eq hf]
  · rw [hvalue, write_eq hf, load_store_self, hmod]
    rfl
  · rw [write_eq hf, field, hreg]
    exact store_eqOn _ _ _
  · rw [read_eq hf, write_eq hf, load_store_self, toNat_toUInt64, hmod]
    rfl

theorem exists_neighbour (hf : IsField id register width) (hwidth : width ≠ 32) :
    ∃ b ∈ bytes (word id register) 4, b ∉ field id register width := by
  have hreg : register.toNat < 256 := lt_iff_toNat_lt.mp hf.register_lt
  have haligned := hf.aligned
  have hsmall : width.toNat / 8 = 1 ∨ width.toNat / 8 = 2 := by
    rcases hf.width_mem with rfl | rfl | rfl
    · exact .inl (by decide)
    · exact .inr (by decide)
    · exact absurd rfl hwidth
  have hb := (base id).toNat_lt
  by_cases hfirst : register.toNat % 4 = 0
  · -- the field is the first in the word, and the last byte is not in it
    refine ⟨word id register + 3, ?_, ?_⟩
    · rw [mem_bytes, add_comm, UInt32.add_sub_cancel]
      decide
    · rw [field, mem_bytes]
      simp only [word, UInt32.toNat_sub, UInt32.toNat_add, toNat_ofNat', toNat_ofNat]
      omega
  · refine ⟨word id register, self_mem_bytes (by decide), ?_⟩
    rw [field, mem_bytes]
    simp only [word, UInt32.toNat_sub, UInt32.toNat_add, toNat_ofNat']
    omega

def single (b : UInt32) : Host := ⟨0, fun a ↦ if a = b then 1 else 0⟩

/-- **The functions are right for fields of 32 bits, and for no others.** -/
theorem exact_iff (hf : IsField id register width) : Exact id register width ↔ width = 32 := by
  constructor
  · intro hexact
    by_contra hwidth
    obtain ⟨b, hword, hfield⟩ := exists_neighbour hf hwidth
    -- the field is 0, and the word is not
    have hzero : value (single b) id register width = 0 := by
      have hwidth := width.toNat_lt
      refine (number_eq_zero_iff (by omega)).mpr fun a ha ↦ if_neg ?_
      rintro rfl
      exact hfield ha
    have hread := hexact.read (single b)
    rw [hzero, read_eq hf, toNat_toUInt64, toNat_load,
      number_eq_zero_iff (by decide)] at hread
    have hone : (single b).space b = 1 := if_pos rfl
    exact absurd (hone.symm.trans (hread b hword)) (by decide)
  · rintro rfl
    exact exact_of_word hf

def display : PciId := ⟨0, 0, 2, 0⟩

theorem exact_baseAddress : IsField display 0x10 32 ∧ Exact display 0x10 32 := by
  have hf : IsField display 0x10 32 :=
    ⟨by decide, by decide, by decide, by decide, by decide, by decide⟩
  exact ⟨hf, (exact_iff hf).mpr rfl⟩

def twoIds : Host :=
  ⟨0, fun a ↦ if a = 0x1000 then 0x86 else if a = 0x1001 then 0x80 else if a = 0x1002 then 0x34
    else if a = 0x1003 then 0x12 else 0⟩

/-- **The vendor is read with the device above it**, and a write to the vendor clears the device. -/
theorem not_exact_vendor :
    IsField display 0 16 ∧ value twoIds display 0 16 = 0x8086 ∧
      (acpiOsReadPciConfiguration twoIds display 0 16).1 = 0x12348086 ∧
      value twoIds display 2 16 = 0x1234 ∧
      value (acpiOsWritePciConfiguration twoIds display 0 0xFFFF 16) display 2 16 = 0 ∧
      ¬ Exact display 0 16 := by
  have hf : IsField display 0 16 :=
    ⟨by decide, by decide, by decide, by decide, by decide, by decide⟩
  have hread : (acpiOsReadPciConfiguration twoIds display 0 16).1 = 0x12348086 := by decide
  refine ⟨hf, by decide, hread, by decide, by decide, fun hexact ↦ ?_⟩
  have hvendor := hexact.read twoIds
  rw [hread] at hvendor
  exact absurd hvendor (by decide)

end ForgeOS.Pci
