import ForgeOS.Apic.Model
import ForgeOS.Lib.Fuel
import ForgeOS.Lib.Memory

/-!
# Reading the MADT

`init_apic` goes through the subtables of the MADT with a pointer and the number of bytes left, and
trusts their lengths.

The main result is `handles_iff`.
-/

namespace ForgeOS.Apic

open UInt32 Memory List

/-- `enum AcpiMadtType`, as far as the loop tells them apart. -/
inductive MadtType
  | localApic
  | ioApic
  | interruptOverride
  | other
  deriving DecidableEq

namespace MadtType

def ofByte (b : UInt8) : MadtType :=
  if b = 0 then localApic else if b = 1 then ioApic else if b = 2 then interruptOverride else other

def size : MadtType → ℕ
  | localApic => 8
  | ioApic => 12
  | interruptOverride => 10
  | other => 2

def offsets : MadtType → List UInt32
  | localApic => [0, 1, 2, 3, 4, 5, 6, 7]
  | ioApic => [0, 1, 2, 4, 5, 6, 7, 8, 9, 10, 11]
  | interruptOverride => [0, 1, 3, 4, 5, 6, 7, 8, 9]
  | other => [0, 1]

end MadtType

structure Platform where
  memory : Memory
  apicid : UInt8
  devices : UInt32 → UInt8 → UInt32
  /-- What is in the memory that `malloc` returns for the subtable at an address. -/
  junk : UInt32 → UInt8 × UInt8

def Platform.subtable (w : Platform) (base : UInt32) : Subtable :=
  match MadtType.ofByte (w.memory base) with
  | .localApic =>
    .localApic (w.memory (base + 3)) (w.memory (base + 2)) (w.memory.load (base + 4))
  | .ioApic => .ioApic (w.memory.load (base + 4)) (w.memory.load (base + 8)).toNat
  | .interruptOverride =>
    .interruptOverride (w.memory (base + 3)) (w.memory.load (base + 4)).toNat
      (.ofNat (w.memory.number (base + 8) 2)) (w.junk base)
  | .other => .other

def Platform.fields (w : Platform) (base : UInt32) : List UInt32 :=
  (MadtType.ofByte (w.memory base)).offsets.map (base + ·)

def Platform.length (w : Platform) (base : UInt32) : UInt8 := w.memory (base + 1)

def Platform.tableLength (w : Platform) (madt : UInt32) : UInt32 := w.memory.load (madt + 4)

structure Scan (F P : Type) where
  base : UInt32
  sz : UInt32
  apic : Apic F P
  seen : List UInt32
  reads : List UInt32

namespace Scan

variable {F P : Type} [Zero P]

def start (w : Platform) (madt : UInt32) : Scan F P where
  base := madt + 44
  sz := w.tableLength madt - 44
  apic := ⟨[], [], fun _ ↦ none⟩
  seen := []
  reads := []

def turn (w : Platform) (s : Scan F P) : Scan F P where
  base := s.base + (w.length s.base).toUInt32
  sz :=
    if (w.length s.base).toUInt32 > s.sz then 0
    else s.sz - (w.length s.base).toUInt32
  apic := parse w.apicid w.devices s.apic (w.subtable s.base)
  seen := s.seen ++ [s.base]
  reads := s.reads ++ w.fields s.base

def loop (w : Platform) : ℕ → Scan F P → Option (Scan F P)
  | 0, _ => none
  | fuel + 1, s => if s.sz = 0 then some s else loop w fuel (s.turn w)

end Scan

/-- The subtables from an address on have the lengths `ns`, and each of them has room for its
structure. -/
def Subtables (w : Platform) : UInt32 → List ℕ → Prop
  | _, [] => True
  | base, n :: ns =>
    (w.length base).toNat = n ∧ (MadtType.ofByte (w.memory base)).size ≤ n ∧
      Subtables w (base + .ofNat n) ns

instance Subtables.decidable (w : Platform) :
    ∀ (base : UInt32) (ns : List ℕ), Decidable (Subtables w base ns)
  | _, [] => .isTrue trivial
  | base, n :: ns =>
    have := Subtables.decidable w (base + ofNat n) ns
    inferInstanceAs (Decidable (_ ∧ _ ∧ Subtables w (base + ofNat n) ns))

def starts : UInt32 → List ℕ → List UInt32
  | _, [] => []
  | base, n :: ns => base :: starts (base + .ofNat n) ns

def WellFormed (w : Platform) (madt : UInt32) (ns : List ℕ) : Prop :=
  44 + ns.sum = (w.tableLength madt).toNat ∧ Subtables w (madt + 44) ns

instance (w : Platform) (madt : UInt32) (ns : List ℕ) : Decidable (WellFormed w madt ns) :=
  inferInstanceAs (Decidable (_ ∧ _))

/-- The `n` bytes from an address on can be cut up, at the addresses `bs`.  No subtable has the
length 0, and the fields of each lie in the table at `madt`. -/
inductive Cut (w : Platform) (madt : UInt32) : UInt32 → ℕ → List UInt32 → Prop
  | nil (base : UInt32) : Cut w madt base 0 []
  | cons {base : UInt32} {n : ℕ} {bs : List UInt32} (hn : 0 < n)
    (hfields : ∀ a ∈ w.fields base, a ∈ bytes madt (w.tableLength madt).toNat)
    (hlength : 0 < (w.length base).toNat)
    (hrest : Cut w madt (base + (w.length base).toUInt32) (n - (w.length base).toNat) bs) :
    Cut w madt base n (base :: bs)

def parseAt {F P : Type} [Zero P] (w : Platform) (s : Apic F P) (bs : List UInt32) : Apic F P :=
  (bs.map w.subtable).foldl (parse w.apicid w.devices) s

/-- The loop ends and stays in the table, and if the table is as it should be, then all of its
subtables have been processed, each once and in order. -/
def Handles (F P : Type) [Zero P] (w : Platform) (madt : UInt32) : Prop :=
  ∃ t : Scan F P, Returns (fun fuel ↦ (Scan.start w madt).loop w fuel) t ∧
    (∀ a ∈ t.reads, a ∈ bytes madt (w.tableLength madt).toNat) ∧
    ∀ ns, WellFormed w madt ns →
      t.seen = starts (madt + 44) ns ∧
        t.apic = parseAt w ⟨[], [], fun _ ↦ none⟩ (starts (madt + 44) ns)

variable {F P : Type} [Zero P] {w : Platform} {s t : Scan F P} {madt base : UInt32} {n : ℕ}
  {bs : List UInt32}

theorem Scan.toNat_sz_turn (w : Platform) (s : Scan F P) :
    (s.turn w).sz.toNat = s.sz.toNat - (w.length s.base).toNat := by
  have hlength : (w.length s.base).toUInt32.toNat = (w.length s.base).toNat :=
    UInt8.toNat_toUInt32 _
  rw [turn]
  dsimp only
  split
  · next hlt =>
    have hlt' := lt_iff_toNat_lt.mp hlt
    rw [UInt32.toNat_zero]
    omega
  · next hge =>
    rw [UInt32.toNat_sub_of_le _ _ (UInt32.not_lt.mp hge), hlength]

theorem Scan.loop_succ (w : Platform) (fuel : ℕ) (s : Scan F P) :
    s.loop w (fuel + 1) = if s.sz = 0 then some s else (s.turn w).loop w fuel := by
  rw [loop]

theorem Scan.loop_eq_none (hsz : s.sz ≠ 0) (hlength : w.length s.base = 0) (fuel : ℕ) :
    s.loop w fuel = none := by
  induction fuel generalizing s with
  | zero => rfl
  | succ fuel ih =>
    have hzero : (w.length s.base).toUInt32 = 0 := by
      rw [hlength]
      rfl
    have hbase : (s.turn w).base = s.base := by
      rw [turn, hzero]
      exact add_zero _
    have hsame : (s.turn w).sz = s.sz := by
      refine UInt32.toNat_inj.mp ?_
      rw [toNat_sz_turn, hlength]
      rfl
    rw [loop_succ, if_neg hsz]
    exact ih (by rwa [hsame]) (by rwa [hbase])

variable {fuel : ℕ}

theorem Scan.reads_subset (h : s.loop w fuel = some t) : s.reads ⊆ t.reads := by
  induction fuel generalizing s with
  | zero => cases h
  | succ fuel ih =>
    rw [loop_succ] at h
    split at h
    · rw [Option.some.inj h]
      exact Subset.refl _
    · exact fun a ha ↦ ih h (mem_append_left _ ha)

theorem self_mem_fields (w : Platform) (base : UInt32) : base ∈ w.fields base := by
  have hzero : ∀ k : MadtType, 0 ∈ k.offsets := by
    intro k
    cases k <;> decide
  exact mem_map.mpr ⟨0, hzero _, add_zero base⟩

variable {m : Memory}

theorem Cut.returns (h : Cut w madt base n bs) (hbase : s.base = base) (hsz : s.sz.toNat = n) :
    ∃ t, Returns (fun fuel ↦ s.loop w fuel) t ∧ t.seen = s.seen ++ bs ∧
      t.apic = parseAt w s.apic bs ∧
      ∀ a ∈ t.reads, a ∈ s.reads ∨ a ∈ bytes madt (w.tableLength madt).toNat := by
  induction h generalizing s with
  | nil base =>
    have hzero : s.sz = 0 := UInt32.toNat_inj.mp hsz
    have hdone : Returns (fun _ ↦ some s) s := Returns.of_eq rfl
    refine ⟨s, hdone.turn fun fuel ↦ ?_, (append_nil _).symm, rfl, fun a ha ↦ .inl ha⟩
    rw [Scan.loop_succ, if_pos hzero]
  | @cons base n bs hn hfields hlength hrest ih =>
    subst hbase
    have hne : s.sz ≠ 0 := by
      rintro hzero
      rw [hzero, UInt32.toNat_zero] at hsz
      omega
    obtain ⟨t, ht, hseen, hapic, hreads⟩ := @ih (s.turn w) rfl (by rw [s.toNat_sz_turn w, hsz])
    refine ⟨t, ht.turn fun fuel ↦ ?_, ?_, hapic, fun a ha ↦ ?_⟩
    · rw [Scan.loop_succ, if_neg hne]
    · rw [hseen, Scan.turn, append_assoc, singleton_append]
    · rcases hreads a ha with hturn | hin
      · exact (mem_append.mp hturn).imp_right (hfields a)
      · exact .inr hin

theorem exists_cut (h : s.loop w fuel = some t)
    (hreads : ∀ a ∈ t.reads, a ∈ bytes madt (w.tableLength madt).toNat) :
    ∃ bs, Cut w madt s.base s.sz.toNat bs := by
  induction fuel generalizing s with
  | zero => cases h
  | succ fuel ih =>
    by_cases hzero : s.sz = 0
    · rw [hzero]
      exact ⟨[], .nil s.base⟩
    by_cases hlength : w.length s.base = 0
    · rw [Scan.loop_eq_none hzero hlength] at h
      cases h
    rw [Scan.loop_succ, if_neg hzero] at h
    have hfields : ∀ a ∈ w.fields s.base, a ∈ bytes madt (w.tableLength madt).toNat :=
      fun a ha ↦ hreads a (Scan.reads_subset h (mem_append_right _ ha))
    have hpos : 0 < s.sz.toNat := Nat.pos_of_ne_zero fun h0 ↦ hzero (UInt32.toNat_inj.mp h0)
    have hmoves : 0 < (w.length s.base).toNat :=
      Nat.pos_of_ne_zero fun h0 ↦ hlength (UInt8.toNat_inj.mp h0)
    obtain ⟨bs, hrest⟩ := ih h
    rw [s.toNat_sz_turn w] at hrest
    exact ⟨s.base :: bs, .cons hpos hfields hmoves hrest⟩

theorem MadtType.toNat_lt_size (k : MadtType) : ∀ o ∈ k.offsets, o.toNat < k.size := by
  cases k <;> simp [offsets, size]

theorem Subtables.cut {ns : List ℕ} (h : Subtables w base ns)
    (hend : (base - madt).toNat + ns.sum = (w.tableLength madt).toNat) :
    Cut w madt base ns.sum (starts base ns) := by
  induction ns generalizing base with
  | nil => exact .nil base
  | cons n ns ih =>
    obtain ⟨hlength, hsize, hrest⟩ := h
    have hlt := (w.tableLength madt).toNat_lt
    have hstep := base.toNat_lt
    have hmadt := madt.toNat_lt
    have hpos : 0 < n := by
      refine lt_of_lt_of_le ?_ hsize
      cases MadtType.ofByte (w.memory base) <;> decide
    have hn : (w.length base).toUInt32 = ofNat n := by
      refine UInt32.toNat_inj.mp ?_
      have hbyte := (w.length base).toNat_lt
      rw [UInt8.toNat_toUInt32, hlength, UInt32.toNat_ofNat', Nat.mod_eq_of_lt (by omega)]
    rw [sum_cons] at hend ⊢
    have hnext : (base + ofNat n - madt).toNat = (base - madt).toNat + n := by
      simp only [UInt32.toNat_sub, UInt32.toNat_add, UInt32.toNat_ofNat'] at hend ⊢
      omega
    have hcut := ih hrest (by omega)
    refine .cons (by omega) (fun a ha ↦ ?_) (by omega) ?_
    · obtain ⟨o, ho, rfl⟩ := mem_map.mp ha
      have ho' := MadtType.toNat_lt_size _ o ho
      rw [mem_bytes]
      simp only [UInt32.toNat_sub, UInt32.toNat_add] at hend ⊢
      omega
    · rw [hn, hlength, Nat.add_sub_cancel_left]
      exact hcut

theorem Cut.base_mem (h : Cut w madt base n bs) (hn : n ≠ 0) :
    base ∈ bytes madt (w.tableLength madt).toNat := by
  cases h with
  | nil => exact absurd rfl hn
  | cons _ hfields _ _ => exact hfields base (self_mem_fields w base)

theorem toNat_header (madt : UInt32) : (madt + 44 - madt).toNat = 44 := by
  rw [add_comm, UInt32.add_sub_cancel]
  rfl

theorem WellFormed.cut {ns : List ℕ} (h : WellFormed w madt ns) :
    Cut w madt (madt + 44) ((w.tableLength madt).toNat - 44) (starts (madt + 44) ns) := by
  have hsum : (w.tableLength madt).toNat - 44 = ns.sum := by
    have hlen := h.1
    omega
  rw [hsum]
  exact h.2.cut (by rw [toNat_header]; exact h.1)

/-- **Which tables are handled.**  The header is there, and what follows it can be cut up. -/
theorem handles_iff (F P : Type) [Zero P] (w : Platform) (madt : UInt32) :
    Handles F P w madt ↔ 44 ≤ (w.tableLength madt).toNat ∧
      ∃ bs, Cut w madt (madt + 44) ((w.tableLength madt).toNat - 44) bs := by
  have hle : 44 ≤ (w.tableLength madt).toNat →
      (Scan.start w madt : Scan F P).sz.toNat = (w.tableLength madt).toNat - 44 :=
    fun hheader ↦ UInt32.toNat_sub_of_le _ _ (le_iff_toNat_le.mpr hheader)
  constructor
  · rintro ⟨t, ⟨N, hN⟩, hreads, -⟩
    obtain ⟨bs, hcut⟩ := exists_cut (hN N le_rfl) hreads
    by_cases hheader : 44 ≤ (w.tableLength madt).toNat
    · rw [hle hheader] at hcut
      exact ⟨hheader, bs, hcut⟩
    · have hwrap : (Scan.start w madt : Scan F P).sz.toNat ≠ 0 := by
        have hsub : (Scan.start w madt : Scan F P).sz.toNat =
            (2 ^ 32 - 44 + (w.tableLength madt).toNat) % 2 ^ 32 := UInt32.toNat_sub ..
        omega
      have hbase : madt + 44 ∈ bytes madt (w.tableLength madt).toNat := hcut.base_mem hwrap
      rw [mem_bytes, toNat_header] at hbase
      exact absurd hbase.le hheader
  · rintro ⟨hheader, bs, hcut⟩
    obtain ⟨t, ht, -, -, hreads⟩ := @Cut.returns F P _ w (Scan.start w madt) _ _ _ _ hcut rfl
      (hle hheader)
    refine ⟨t, ht, fun a ha ↦ (hreads a ha).resolve_left not_mem_nil, fun ns hns ↦ ?_⟩
    obtain ⟨t', ht', hseen, hapic, -⟩ := @Cut.returns F P _ w (Scan.start w madt) _ _ _ _ hns.cut
      rfl (hle hheader)
    rw [ht.unique ht']
    exact ⟨hseen, hapic⟩

def twoSubtables : Platform where
  memory := fun a ↦
    ([64, 0, 0, 0] ++ replicate 36 0 ++ [0, 8, 0, 0, 1, 0, 0, 0] ++
      [1, 12, 1, 0, 0, 0, 0xC0, 0xFE, 0, 0, 0, 0] : List UInt8).getD (a - 0x1004).toNat 0
  apicid := 0
  devices := fun _ _ ↦ 0
  junk := fun _ ↦ (0, 0)

example : WellFormed twoSubtables 0x1000 [8, 12] := by decide

def zeroLength : Platform where
  memory := fun a ↦ if a = 0x1004 then 52 else 0
  apicid := 0
  devices := fun _ _ ↦ 0
  junk := fun _ ↦ (0, 0)

/-- The first subtable has the length 0, and the loop never ends. -/
theorem not_handles_zeroLength :
    (∀ fuel, (Scan.start zeroLength 0x1000 : Scan Unit ℕ).loop zeroLength fuel = none) ∧
      ¬ Handles Unit ℕ zeroLength 0x1000 := by
  have hnone : ∀ fuel,
      (Scan.start zeroLength 0x1000 : Scan Unit ℕ).loop zeroLength fuel = none :=
    Scan.loop_eq_none (by decide) (by decide)
  refine ⟨hnone, ?_⟩
  rintro ⟨t, ⟨N, hN⟩, -⟩
  cases (hnone N).symm.trans (hN N le_rfl)

end ForgeOS.Apic
