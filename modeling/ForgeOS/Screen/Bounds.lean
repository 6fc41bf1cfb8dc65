import ForgeOS.Lib.Run
import ForgeOS.Screen.Model

/-!
# Where the screen functions write

`machine_putc_at` lets the column and the row one past the last through, and
`machine_define_screen_extents` a height the cursor is already below, or no extents at all.

The main result is `ok_of_fits`.
-/

namespace ForgeOS.Screen

open UInt8

variable {s : Screen} {c : UInt8} {x y : Int32} {op : Op}

def Inside (r : UInt32 × ℕ) : Prop := r.1.toNat + r.2 ≤ 80 * 25 * 2

instance : DecidablePred Inside := fun _ ↦ inferInstanceAs (Decidable (_ ≤ _))

/-- The extents are not empty and hold the cursor's row, and all writes were inside the buffer. -/
structure Ok (s : Screen) : Prop where
  x_lt : s.screenX.toNat < 80
  y_lt : s.screenY.toNat < s.screenH.toNat
  w_pos : 0 < s.screenW
  w_le : s.screenW.toNat ≤ 80
  h_le : s.screenH.toNat ≤ 25
  inside : ∀ r ∈ s.written, Inside r

/-- The call keeps to the buffer: `machine_putc_at` is given one of its cells, or for a newline one
of its rows, and `machine_define_screen_extents` a width, and a height that holds the cursor. -/
def Fits (s : Screen) : Op → Prop
  | .putc _ => True
  | .putcAt c x y =>
    if c = 10 then (clamp 25 y).toNat < 25
    else (clamp 25 y).toNat * 80 + (clamp 80 x).toNat < 80 * 25
  | .defineExtents x y => 0 < clamp 80 x ∧ s.screenY < clamp 25 y

theorem clamp_le {max : ℕ} (hmax : max < 256) : (clamp max x).toNat ≤ max := by
  rw [clamp, toNat_ofNat', Nat.mod_eq_of_lt (by omega)]
  omega

def draw (s : Screen) (c : UInt8) : Screen :=
  if c = 10 then s
  else
    let offset := (s.screenY.toUInt32 * s.screenW.toUInt32 + s.screenX.toUInt32) * 2
    (s.put offset c).put (offset + 1) 0x07

theorem draw_eq : ∃ m l, s.draw c = { s with vmem := m, written := l } := by
  unfold draw
  split <;> exact ⟨_, _, rfl⟩

@[simp] theorem draw_screenW : (s.draw c).screenW = s.screenW := by
  obtain ⟨m, l, h⟩ := @draw_eq s c
  rw [h]

@[simp] theorem draw_screenH : (s.draw c).screenH = s.screenH := by
  obtain ⟨m, l, h⟩ := @draw_eq s c
  rw [h]

@[simp] theorem draw_screenY : (s.draw c).screenY = s.screenY := by
  obtain ⟨m, l, h⟩ := @draw_eq s c
  rw [h]

theorem advance_eq (hw : 0 < s.screenW) : s.advance c =
    if c = 10 ∨ s.screenX + 1 ≥ s.screenW then
      { s.draw c with screenX := 0, screenY := s.screenY + 1 }
    else { s.draw c with screenX := s.screenX + 1 } := by
  by_cases hc : c = 10
  · simp [advance, draw, hc, UInt8.not_le.mpr hw]
  · simp [advance, draw, hc, put, memset]

theorem toNat_add_one {x y : UInt8} (h : x.toNat < y.toNat) : (x + 1).toNat = x.toNat + 1 := by
  have hlt := y.toNat_lt
  rw [UInt8.toNat_add, toNat_one]
  omega

theorem machinePutc_eq (hw : 0 < s.screenW) (hy : s.screenY.toNat < s.screenH.toNat) :
    s.machinePutc c =
      if c = 10 ∨ s.screenX + 1 ≥ s.screenW then
        if s.screenY.toNat + 1 = s.screenH.toNat then { s.draw c with screenX := 0 }.scroll
        else { s.draw c with screenX := 0, screenY := s.screenY + 1 }
      else { s.draw c with screenX := s.screenX + 1 } := by
  rw [machinePutc, advance_eq hw]
  split
  · simp only [ge_iff_le, le_iff_toNat_le, toNat_add_one hy, draw_screenH]
    refine if_congr (by omega) ?_ rfl
    rw [UInt8.add_sub_cancel, ← @draw_screenY s c]
  · refine if_neg ?_
    rw [ge_iff_le, le_iff_toNat_le, draw_screenH, draw_screenY]
    omega

theorem toNat_offset (s : Screen) :
    ((s.screenY.toUInt32 * s.screenW.toUInt32 + s.screenX.toUInt32) * 2).toNat =
      2 * (s.screenY.toNat * s.screenW.toNat + s.screenX.toNat) := by
  have hx := s.screenX.toNat_lt
  have hrows : s.screenY.toNat * s.screenW.toNat < 2 ^ 8 * 2 ^ 8 :=
    Nat.mul_lt_mul'' s.screenY.toNat_lt s.screenW.toNat_lt
  simp only [UInt32.toNat_mul, UInt32.toNat_add, toNat_toUInt32, UInt32.toNat_ofNat]
  omega

theorem draw_inside (h : ∀ r ∈ s.written, Inside r)
    (hc : c ≠ 10 → s.screenY.toNat * s.screenW.toNat + s.screenX.toNat < 80 * 25) :
    ∀ r ∈ (s.draw c).written, Inside r := by
  unfold draw
  split
  · exact h
  next hne =>
    have hcell := hc hne
    simp only [put, memset, List.forall_mem_cons]
    refine ⟨?_, ?_, h⟩
    · rw [Inside, UInt32.toNat_add, toNat_offset, UInt32.toNat_one]
      omega
    · rw [Inside, toNat_offset]
      omega

theorem scroll_sizes {k w : ℕ} (hk : s.screenH.toNat = k + 1) (hw : s.screenW.toNat = w) :
    (s.screenW.toUInt32 * 2).toNat = 2 * w ∧
      ((s.screenH.toUInt32 - 1) * (s.screenW.toUInt32 * 2)).toNat = 2 * (k * w) := by
  have hH := s.screenH.toNat_lt
  have hW := s.screenW.toNat_lt
  have hh : (s.screenH.toUInt32 - 1).toNat = k := by
    rw [UInt32.toNat_sub, toNat_toUInt32, hk, UInt32.toNat_one]
    omega
  have hlt : k * w < 256 * 256 := Nat.mul_lt_mul'' (by omega) (by omega)
  have hmul : k * (2 * w) = 2 * (k * w) := Nat.mul_left_comm k 2 w
  have hw2 : (s.screenW.toUInt32 * 2).toNat = 2 * w := by
    simp only [UInt32.toNat_mul, toNat_toUInt32, hw, UInt32.toNat_ofNat]
    omega
  refine ⟨hw2, ?_⟩
  rw [UInt32.toNat_mul, hh, hw2, hmul, Nat.mod_eq_of_lt (by omega)]

theorem scroll_inside (h : ∀ r ∈ s.written, Inside r) (hpos : 0 < s.screenH)
    (hsize : s.screenH.toNat * s.screenW.toNat ≤ 80 * 25) : ∀ r ∈ s.scroll.written, Inside r := by
  obtain ⟨k, hk⟩ : ∃ k, s.screenH.toNat = k + 1 :=
    Nat.exists_eq_add_one.mpr (lt_iff_toNat_lt.mp hpos)
  obtain ⟨hw, hlen⟩ := scroll_sizes hk rfl
  rw [hk, Nat.succ_mul] at hsize
  simp only [scroll, memcpy, memset, List.forall_mem_cons]
  refine ⟨?_, ?_, h⟩
  · rw [Inside, UInt32.mul_comm, hlen, hw]
    omega
  · rw [Inside, hlen, UInt32.toNat_zero]
    omega

theorem Ok.machinePutc (h : Ok s) (c : UInt8) : Ok (s.machinePutc c) ∧
    (s.machinePutc c).screenX < (s.machinePutc c).screenW := by
  obtain ⟨hx, hy, hpos, hw, hh, hin⟩ := h
  have hsize : s.screenH.toNat * s.screenW.toNat ≤ 25 * 80 := Nat.mul_le_mul hh hw
  have hrows : s.screenY.toNat * s.screenW.toNat ≤ 24 * 80 := Nat.mul_le_mul (by omega) hw
  have hdraw : ∀ r ∈ (s.draw c).written, Inside r := draw_inside hin fun _ ↦ by omega
  rw [machinePutc_eq hpos hy]
  obtain ⟨m, l, hs⟩ := @draw_eq s c
  rw [hs] at hdraw ⊢
  split
  next hrow =>
    split
    next hlast =>
      refine ⟨⟨Nat.zero_lt_succ _, hy, hpos, hw, hh, scroll_inside hdraw ?_ hsize⟩, hpos⟩
      exact lt_iff_toNat_lt.mpr (Nat.zero_lt_of_lt hy)
    next hlast =>
      refine ⟨⟨Nat.zero_lt_succ _, ?_, hpos, hw, hh, hdraw⟩, hpos⟩
      exact toNat_add_one hy ▸ Nat.lt_of_le_of_ne hy hlast
  next hrow =>
    have hlt := UInt8.not_le.mp (not_or.mp hrow).2
    exact ⟨⟨lt_of_lt_of_le (lt_iff_toNat_lt.mp hlt) hw, hy, hpos, hw, hh, hdraw⟩, hlt⟩

theorem written_machinePutc (hw : 0 < s.screenW) (hy : s.screenY.toNat + 1 < s.screenH.toNat) :
    (s.machinePutc c).written = (s.draw c).written := by
  rw [machinePutc_eq hw (by omega), if_neg hy.ne]
  split <;> rfl

theorem Ok.machinePutcAt (h : Ok s) (hfits : s.Fits (.putcAt c x y)) :
    Ok (s.machinePutcAt c x y) := by
  refine ⟨h.x_lt, h.y_lt, h.w_pos, h.w_le, h.h_le, ?_⟩
  have hy : (clamp 25 y).toNat < 25 := by
    rw [Fits] at hfits
    split at hfits <;> omega
  have hpos : (0 : UInt8) < 80 := by decide
  rw [Screen.machinePutcAt, written_machinePutc hpos (Nat.succ_lt_succ hy)]
  refine draw_inside h.inside fun hc ↦ ?_
  rw [Fits, if_neg hc] at hfits
  exact hfits

theorem Ok.machineDefineScreenExtents (h : Ok s) (hfits : s.Fits (.defineExtents x y)) :
    Ok (s.machineDefineScreenExtents x y) :=
  ⟨h.x_lt, lt_iff_toNat_lt.mp hfits.2, hfits.1, clamp_le (by decide), clamp_le (by decide),
    h.inside⟩

theorem Ok.step {t : Screen} (h : Ok s) (hfits : s.Fits op) (ht : s.step op = some t) : Ok t := by
  cases op with
  | putc c => exact Option.some.inj ht ▸ (h.machinePutc c).1
  | putcAt c x y => exact Option.some.inj ht ▸ h.machinePutcAt hfits
  | defineExtents x y => exact Option.some.inj ht ▸ h.machineDefineScreenExtents hfits

/-- **Every write stays inside the buffer**, as long as the calls keep to it. -/
theorem ok_of_fits (m : Memory) {ops : List Op} {s : Screen}
    (hg : Run.Guarded step Fits { vmem := m } ops) (hs : Run.exec step { vmem := m } ops = some s) :
    (∀ r ∈ s.written, Inside r) ∧
      (∀ c x y, let t := s.machinePutcAt c x y
        t.screenX = s.screenX ∧ t.screenY = s.screenY ∧
          t.screenW = s.screenW ∧ t.screenH = s.screenH) ∧
      ∀ c, let t := s.machinePutc c
        t.screenX < t.screenW ∧ t.screenY < t.screenH := by
  have hstart : Ok { vmem := m } := by constructor <;> simp
  have hok : Ok s := Run.inv_of_guarded (fun _ _ _ h hfits ht ↦ h.step hfits ht) hstart hg hs
  refine ⟨hok.inside, fun c x y ↦ ⟨rfl, rfl, rfl, rfl⟩, fun c ↦ ?_⟩
  obtain ⟨hc, hx⟩ := hok.machinePutc c
  exact ⟨hx, lt_iff_toNat_lt.mpr hc.y_lt⟩

theorem ok_of_fits_corner :
    ∃ s, Run.exec step { vmem := fun _ ↦ 0 } [.putcAt 65 79 24, .putc 65] = some s ∧
      ∀ r ∈ s.written, Inside r := by
  have hfits : Fits { vmem := fun _ ↦ 0 } (.putcAt 65 79 24) := by
    rw [Fits]
    decide
  have hg : Run.Guarded step Fits { vmem := fun _ ↦ 0 } [.putcAt 65 79 24, .putc 65] :=
    ⟨hfits, fun _ _ ↦ ⟨trivial, fun _ _ ↦ trivial⟩⟩
  exact ⟨_, rfl, (ok_of_fits _ hg rfl).1⟩

/-- The row below the last one is accepted. -/
theorem not_inside_putcAt :
    ¬ ∀ r ∈ (machinePutcAt { vmem := fun _ ↦ 0 } 65 0 25).written, Inside r := by
  decide

end ForgeOS.Screen
