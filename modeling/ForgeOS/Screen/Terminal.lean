import ForgeOS.Screen.Bounds

/-!
# The screen as a terminal

`rows` is a text in lines, broken after 80 characters, of which the screen shows the last ones.

The main result is `shows_rows`.
-/

namespace ForgeOS.Screen

open List UInt32

variable {s : Screen} {c : UInt8} {m : Memory} {h : ℕ} {row : List UInt8}
  {above rs : List (List UInt8)}

/-- The rows of a text of which `row` has already been read. -/
def rows (row : List UInt8) : List UInt8 → List (List UInt8)
  | [] => [row]
  | c :: cs =>
    if c = 10 then row :: rows [] cs
    else if row.length + 1 = 80 then (row ++ [c]) :: rows [] cs
    else rows (row ++ [c]) cs

def cell (m : Memory) (k : ℕ) : UInt8 × UInt8 := (m (.ofNat (2 * k)), m (.ofNat (2 * k + 1)))

def glyph : Option UInt8 → UInt8 × UInt8
  | some c => (c, 0x07)
  | none => (0, 0)

def Visible (m : Memory) (h : ℕ) (rs : List (List UInt8)) : Prop :=
  ∀ i < h, ∀ j < 80, cell m (80 * i + j) = glyph ((rs.drop (rs.length - h))[i]?.bind (·[j]?))

structure Shows (h : ℕ) (s : Screen) (above : List (List UInt8)) (row : List UInt8) : Prop where
  width : s.screenW = 80
  height : s.screenH.toNat = h
  column : s.screenX.toNat = row.length
  line : s.screenY.toNat + 1 = min (above.length + 1) h
  visible : Visible s.vmem h (above ++ [row])

theorem fill_ofNat {a n k : ℕ} {v : UInt8} (hn : a + n ≤ 2 ^ 32) (hk : k < 2 ^ 32) :
    m.fill (.ofNat a) n v (.ofNat k) = if a ≤ k ∧ k < a + n then v else m (.ofNat k) := by
  refine if_congr ?_ rfl rfl
  simp only [UInt32.toNat_sub, UInt32.toNat_ofNat']
  omega

theorem cell_draw (hw : s.screenW = 80) (hc : c ≠ 10) {k : ℕ} (hk : k < 2 ^ 31) :
    cell (s.draw c).vmem k =
      if k = 80 * s.screenY.toNat + s.screenX.toNat then (c, 0x07) else cell s.vmem k := by
  have hx := s.screenX.toNat_lt
  have hy := s.screenY.toNat_lt
  obtain ⟨a, ha⟩ : ∃ a, 80 * s.screenY.toNat + s.screenX.toNat = a := ⟨_, rfl⟩
  have hoffset : (s.screenY.toUInt32 * s.screenW.toUInt32 + s.screenX.toUInt32) * 2 =
      ofNat (2 * a) := by
    rw [← UInt32.ofNat_toNat (x := _ * 2), toNat_offset, hw, ← ha, Nat.mul_comm 80]
    rfl
  rw [draw, if_neg hc, hoffset, ha]
  have hnext : ofNat (2 * a) + 1 = ofNat (2 * a + 1) := (ofNat_add _ _).symm
  simp only [cell, put, memset, hnext]
  rw [fill_ofNat (by omega) (by omega), fill_ofNat (by omega) (by omega),
    fill_ofNat (by omega) (by omega), fill_ofNat (by omega) (by omega)]
  by_cases hka : k = a
  · subst hka
    rw [if_neg (by omega), if_pos (by omega), if_pos (by omega), if_pos rfl]
  · rw [if_neg (by omega), if_neg (by omega), if_neg (by omega), if_neg (by omega), if_neg hka]

theorem Visible.draw (hv : Visible s.vmem h (above ++ [row])) (hw : s.screenW = 80) (hc : c ≠ 10)
    (hx : s.screenX.toNat = row.length) (hy : s.screenY.toNat + 1 = min (above.length + 1) h)
    (hrow : row.length < 80) (hh : h ≤ 25) : Visible (s.draw c).vmem h (above ++ [row ++ [c]]) := by
  intro i hi j hj
  rw [cell_draw hw hc (by omega), hv i hi j hj, hx]
  simp only [getElem?_drop, length_append, length_singleton]
  rcases Nat.lt_trichotomy (above.length + 1 - h + i) above.length with hlt | heq | hgt
  · rw [if_neg (by omega), getElem?_append_left hlt, getElem?_append_left hlt]
  · rw [heq, getElem?_concat_length, getElem?_concat_length, Option.bind_some, Option.bind_some]
    split
    next hcell =>
      obtain rfl : j = row.length := by omega
      rw [getElem?_concat_length]
      rfl
    next hcell =>
      rcases Nat.lt_or_gt_of_ne (show j ≠ row.length by omega) with hjlt | hjgt
      · rw [getElem?_append_left hjlt]
      · rw [getElem?_eq_none (by omega), getElem?_eq_none (by simp; omega)]
  · rw [if_neg (by omega), getElem?_eq_none (by simp; omega), getElem?_eq_none (by simp; omega)]

theorem Visible.snoc (hv : Visible m h rs) (hlt : rs.length < h) : Visible m h (rs ++ [[]]) := by
  intro i hi j hj
  rw [hv i hi j hj]
  simp only [getElem?_drop, length_append, length_singleton]
  rw [Nat.sub_eq_zero_of_le hlt.le, Nat.sub_eq_zero_of_le hlt, Nat.zero_add]
  rcases Nat.lt_trichotomy i rs.length with hilt | rfl | higt
  · rw [getElem?_append_left hilt]
  · rw [getElem?_concat_length, getElem?_eq_none le_rfl]
    rfl
  · rw [getElem?_eq_none (by omega), getElem?_eq_none (by simp; omega)]

theorem copyBytes_ofNat {d n k : ℕ} (hn : d + n ≤ 2 ^ 32) (hk : k < 2 ^ 32) :
    copyBytes m 0 (.ofNat d) n (.ofNat k) = m (.ofNat (if k < n then d + k else k)) := by
  induction n generalizing k with
  | zero => rfl
  | succ n ih =>
    -- the byte at `d + n` has not been written to by the first `n` turns
    rw [copyBytes, zero_add, ← ofNat_add, ih (by omega) (by omega), if_neg (by omega),
      fill_ofNat (by omega) hk, ih (by omega) hk]
    rcases Nat.lt_trichotomy k n with hlt | rfl | hgt
    · rw [if_neg (by omega), if_pos hlt, if_pos (by omega)]
    · rw [if_pos (by omega), if_pos (by omega)]
    · rw [if_neg (by omega), if_neg (by omega), if_neg (by omega)]

theorem scroll_ofNat {k b : ℕ} (hw : s.screenW = 80) (hk : s.screenH.toNat = k + 1)
    (hb : b < 160 * (k + 1)) :
    s.scroll.vmem (.ofNat b) = if b < 160 * k then s.vmem (.ofNat (160 + b)) else 0 := by
  have hH := s.screenH.toNat_lt
  obtain ⟨hrow, hlen⟩ := scroll_sizes (w := 80) hk (congrArg UInt8.toNat hw)
  have hd : s.screenW.toUInt32 * 2 = ofNat 160 := hw ▸ rfl
  have ha : s.screenW.toUInt32 * 2 * (s.screenH.toUInt32 - 1) = ofNat (2 * (k * 80)) := by
    rw [← UInt32.ofNat_toNat (x := _ * (_ - _)), mul_comm, hlen]
  simp only [Screen.scroll, memcpy, memset]
  rw [ha, hrow, hlen, hd, fill_ofNat (by omega) (by omega), copyBytes_ofNat (by omega) (by omega)]
  by_cases hlast : b < 160 * k
  · rw [if_neg (by omega), if_pos (by omega), if_pos hlast]
  · rw [if_pos (by omega), if_neg hlast]

theorem cell_scroll {k n : ℕ} (hw : s.screenW = 80) (hk : s.screenH.toNat = k + 1)
    (hn : n < 80 * (k + 1)) :
    cell s.scroll.vmem n = if n < 80 * k then cell s.vmem (n + 80) else (0, 0) := by
  rw [cell, scroll_ofNat hw hk (by omega), scroll_ofNat hw hk (by omega)]
  by_cases hlt : n < 80 * k
  · rw [if_pos (by omega), if_pos (by omega), if_pos hlt, cell,
      show 2 * (n + 80) = 160 + 2 * n by omega, Nat.add_assoc]
  · rw [if_neg (by omega), if_neg (by omega), if_neg hlt]

theorem Visible.scroll (hv : Visible s.vmem h rs) (hw : s.screenW = 80)
    (hh : s.screenH.toNat = h) (hle : h ≤ rs.length) : Visible s.scroll.vmem h (rs ++ [[]]) := by
  intro i hi j hj
  rw [cell_scroll hw (show _ = (h - 1) + 1 by omega) (by omega)]
  simp only [getElem?_drop, length_append, length_singleton]
  split
  next hlast =>
    rw [show 80 * i + j + 80 = 80 * (i + 1) + j by omega, hv (i + 1) (by omega) j hj,
      getElem?_drop, getElem?_append_left (by omega)]
    congr 3
    omega
  next hlast =>
    rw [show rs.length + 1 - h + i = rs.length by omega, getElem?_concat_length]
    rfl

theorem shows_clear (hw : s.screenW = 80) (hpos : 0 < s.screenH) (hx : s.screenX = 0)
    (hy : s.screenY = 0) : Shows s.screenH.toNat s.machineClearScreen [] [] := by
  have hH := s.screenH.toNat_lt
  have hpos := UInt8.lt_iff_toNat_lt.mp hpos
  refine ⟨hw, rfl, congrArg _ hx, ?_, fun i hi j hj ↦ ?_⟩
  · exact (congrArg (·.toNat + 1) hy).trans (Nat.min_eq_left hpos).symm
  · have hblank (b : ℕ) (hb : b < 160 * s.screenH.toNat) :
        s.machineClearScreen.vmem (.ofNat b) = 0 := by
      rw [machineClearScreen, memset, hw]
      change Memory.fill s.vmem (.ofNat 0) (80 * s.screenH.toNat * 2) 0 (.ofNat b) = 0
      rw [fill_ofNat (by omega) (by omega), if_pos (by omega)]
    rw [cell, hblank _ (by omega), hblank _ (by omega), nil_append, length_singleton,
      Nat.sub_eq_zero_of_le (by omega), drop_zero]
    rcases i with _ | i <;> rfl

theorem shows_next (hw : s.screenW = 80) (hh : s.screenH.toNat = h)
    (hy : s.screenY.toNat + 1 = min (above.length + 1) h) (hv : Visible s.vmem h (above ++ [row])) :
    Shows h (if s.screenY.toNat + 1 = s.screenH.toNat then { s with screenX := 0 }.scroll
      else { s with screenX := 0, screenY := s.screenY + 1 }) (above ++ [row]) [] := by
  split
  next hlast =>
    refine ⟨hw, hh, rfl, ?_, ?_⟩
    · rw [length_append, length_singleton]
      exact hlast.trans (by omega)
    · exact hv.scroll hw hh (by simp; omega)
  next hlast =>
    refine ⟨hw, hh, rfl, ?_, hv.snoc (by simp; omega)⟩
    rw [length_append, length_singleton]
    exact (congrArg _ (toNat_add_one (y := s.screenH) (by omega))).trans (by omega)

theorem Shows.machinePutc (hs : Shows h s above row) (hrow : row.length < 80) (hh : h ≤ 25)
    (c : UInt8) :
    if c = 10 then Shows h (s.machinePutc c) (above ++ [row]) []
    else if row.length + 1 = 80 then Shows h (s.machinePutc c) (above ++ [row ++ [c]]) []
    else Shows h (s.machinePutc c) above (row ++ [c]) := by
  obtain ⟨hw, hheight, hx, hy, hv⟩ := hs
  have hX : (s.screenX + 1).toNat = row.length + 1 := hx ▸ toNat_add_one (y := 80) (hx ▸ hrow)
  have hwidth : s.screenX + 1 ≥ s.screenW ↔ 80 ≤ row.length + 1 := by
    rw [ge_iff_le, UInt8.le_iff_toNat_le, hX, hw]
    rfl
  rw [machinePutc_eq (hw ▸ by decide) (by omega)]
  split
  next hc =>
    subst hc
    exact shows_next hw hheight hy hv
  next hc =>
    have hdraw := hv.draw hw hc hx hy hrow hh
    split
    next hend =>
      rw [if_pos (.inr (hwidth.mpr (by omega)))]
      obtain ⟨m, l, hs⟩ := @draw_eq s c
      rw [hs] at hdraw ⊢
      exact shows_next (s := { s with vmem := m, written := l }) hw hheight hy hdraw
    next hend =>
      have hroom : ¬ s.screenX + 1 ≥ s.screenW := fun h ↦ hend (le_antisymm hrow (hwidth.mp h))
      rw [if_neg (not_or.mpr ⟨hc, hroom⟩)]
      obtain ⟨m, l, hs⟩ := @draw_eq s c
      rw [hs] at hdraw ⊢
      refine ⟨hw, hheight, ?_, hy, hdraw⟩
      rw [length_append, length_singleton]
      exact hX

theorem Shows.foldl_machinePutc {cs : List UInt8} (hs : Shows h s above row)
    (hrow : row.length < 80) (hh : h ≤ 25) :
    ∃ above' row', above ++ rows row cs = above' ++ [row'] ∧
      Shows h (cs.foldl Screen.machinePutc s) above' row' := by
  induction cs generalizing s above row with
  | nil => exact ⟨above, row, rfl, hs⟩
  | cons c cs ih =>
    have hstep := hs.machinePutc hrow hh c
    rw [rows, foldl_cons]
    split at hstep
    next hc =>
      rw [if_pos hc, append_cons]
      exact ih hstep (by decide)
    next hc =>
      rw [if_neg hc]
      split at hstep
      next hend =>
        rw [if_pos hend, append_cons]
        exact ih hstep (by decide)
      next hend =>
        rw [if_neg hend]
        exact ih hstep (by simp; omega)

/-- **The screen shows the end of the text that was written**, with the cursor behind it. -/
theorem shows_rows (hw : s.screenW = 80) (hpos : 0 < s.screenH) (hh : s.screenH ≤ 25)
    (hx : s.screenX = 0) (hy : s.screenY = 0) (cs : List UInt8) :
    ∃ above row, rows [] cs = above ++ [row] ∧
      Shows s.screenH.toNat (cs.foldl machinePutc s.machineClearScreen) above row :=
  (shows_clear hw hpos hx hy).foldl_machinePutc (by decide) (UInt8.le_iff_toNat_le.mp hh)

/-- A line of 81 characters and one of a single character, on a screen of two rows: the first line is
broken, and its first row is scrolled away. -/
theorem shows_rows_two :
    Shows 2 (foldl machinePutc (machineClearScreen { screenH := 2, vmem := fun _ ↦ 1 })
      (replicate 81 65 ++ [10, 66])) [replicate 80 65, [65]] [66] := by
  obtain ⟨above, row, hrows, hshows⟩ := shows_rows (s := { screenH := 2, vmem := fun _ ↦ 1 }) rfl
    (by decide) (by decide) rfl rfl (replicate 81 65 ++ [10, 66])
  have htext : rows [] (replicate 81 65 ++ [10, 66]) = [replicate 80 65, [65]] ++ [[66]] := by decide
  obtain ⟨rfl, hrow⟩ := append_inj' (htext.symm.trans hrows) rfl
  cases hrow
  exact hshows

end ForgeOS.Screen
