import ForgeOS.Vmem.Refine

/-!
# Address spaces made to order

Any choice of page tables, and of pages in them, is what some address space has.  All that cannot be
chosen is what is mapped in the window.
-/

namespace ForgeOS.Vmem

open Paging Mmu

def made (has : Fin 1024 → Bool) (pages : Page → Bool) : Vmem where
  mmu := ⟨0x1000, fun f i ↦
    if f = 0x1000 then
      if i = 1023 then 0x1003
      else if has i then frameOf (UInt32.ofNat (0x400000 + 0x1000 * i)) ||| 0x01 ||| 0x02
      else 0
    else if pages (Fin.ofNat 1024 (f.toNat / 0x1000), i) then 0x01 else 0⟩
  gPrimedpage := 0

variable {has : Fin 1024 → Bool} {pages : Page → Bool}

theorem mem_made (f : UInt32) (i : Fin 1024) : (made has pages).mmu.mem f i =
    if f = 0x1000 then
      if i = 1023 then 0x1003
      else if has i then frameOf (UInt32.ofNat (0x400000 + 0x1000 * i)) ||| 0x01 ||| 0x02
      else 0
    else if pages (Fin.ofNat 1024 (f.toNat / 0x1000), i) then 0x01 else 0 := rfl

theorem dir_made (d : Fin 1024) : (made has pages).mmu.dir d =
    if d = 1023 then 0x1003
    else if has d then frameOf (UInt32.ofNat (0x400000 + 0x1000 * d)) ||| 0x01 ||| 0x02
    else 0 := by
  have hframe : frameOf (made has pages).mmu.cr3 = 0x1000 := by
    show frameOf 0x1000 = _
    decide
  rw [dir, hframe, mem_made, if_pos rfl]

theorem toNat_frameOf_dir_made (d : Fin 1024) : (frameOf ((made has pages).mmu.dir d)).toNat =
    if d = 1023 then 0x1000 else if has d then 0x400000 + 0x1000 * d.val else 0 := by
  have hd := d.isLt
  rw [dir_made]
  split
  · decide
  split
  · rw [frameOf_or_flags (by decide), frameOf_or_flags (by decide), frameOf_frameOf, toNat_frameOf,
      UInt32.toNat_ofNat', Nat.mod_eq_of_lt (by omega)]
    omega
  · decide

theorem frameOf_dir_made_ne_zero_iff (d : Fin 1024) :
    frameOf ((made has pages).mmu.dir d) ≠ 0 ↔ d = 1023 ∨ has d = true := by
  have h := @toNat_frameOf_dir_made has pages d
  rw [Ne, ← UInt32.toNat_inj, h, UInt32.toNat_zero]
  split
  · next hd => simp [hd]
  split
  · next hhas => simp [hhas]
  · next hd hhas => simp [hd, hhas]

theorem wf_made (has : Fin 1024 → Bool) (pages : Page → Bool) : WF (made has pages) where
  recursive := by
    refine ⟨?_, ?_⟩
    · rw [dir_made, if_pos rfl]
      exact ⟨by decide, by decide, by decide⟩
    · rw [dir_made, if_pos rfl]
      show frameOf 0x1003 = frameOf 0x1000
      decide
  cr3_ne := by
    show frameOf 0x1000 ≠ 0
    decide
  entry d := by
    rw [dir_made]
    split
    · exact .inr ⟨by decide, by decide, by decide, by decide⟩
    next hd =>
      split
      · next hhas =>
        refine .inr ⟨?_, isTable_new _⟩
        have hne := (@frameOf_dir_made_ne_zero_iff has pages d).mpr (.inr hhas)
        rwa [dir_made, if_neg hd, if_pos hhas] at hne
      · exact .inl (by decide)
  inj d d' hne heq := by
    have hd := @toNat_frameOf_dir_made has pages d
    have hd' := @toNat_frameOf_dir_made has pages d'
    rw [← heq, hd] at hd'
    rw [Ne, ← UInt32.toNat_inj, hd, UInt32.toNat_zero] at hne
    split at hd'
    next h =>
      split at hd'
      next h' => exact h.trans h'.symm
      next => split at hd' <;> omega
    next h =>
      rw [if_neg h] at hne
      split at hd'
      next hhas =>
        split at hd'
        next => omega
        next =>
          split at hd'
          · exact Fin.ext (by omega)
          · omega
      next hhas => exact absurd (if_neg hhas) hne
  primed hne := absurd rfl hne

theorem pte_made {d : Fin 1024} (hd : d ≠ 1023) (hhas : has d = true) (t : Fin 1024) :
    (made has pages).mmu.pte d t = if pages (d, t) then 0x01 else 0 := by
  have hframe := @toNat_frameOf_dir_made has pages d
  rw [if_neg hd, if_pos hhas] at hframe
  have hne : frameOf ((made has pages).mmu.dir d) ≠ 0x1000 := by
    intro heq
    rw [heq] at hframe
    simp only [UInt32.reduceToNat] at hframe
    omega
  have hnumber : Fin.ofNat 1024 ((frameOf ((made has pages).mmu.dir d)).toNat / 0x1000) = d := by
    refine Fin.ext ?_
    rw [hframe, Fin.val_ofNat]
    omega
  rw [pte, mem_made, if_neg hne, hnumber]

theorem lookup_made (pg : Page) : ((made has pages).lookup pg).isSome ↔
    if pg.1 = 1023 then pg.2 = 1023 ∨ has pg.2 = true
    else has pg.1 = true ∧ pages pg = true := by
  rw [lookup_isSome, frameOf_dir_made_ne_zero_iff]
  split
  · next hwindow =>
    rw [hwindow, (wf_made has pages).recursive.pte_last, and_iff_right (.inl rfl), dir_made]
    split
    · next hlast => exact iff_of_true (by decide) (.inl hlast)
    · next hlast =>
      rw [or_iff_right hlast]
      split
      · next hhas => exact iff_of_true (present_or_left (present_or_right (by decide))) hhas
      · next hhas => exact iff_of_false not_present_zero hhas
  · next hne =>
    rw [or_iff_right hne]
    refine and_congr_right fun hhas ↦ ?_
    rw [pte_made hne hhas]
    split
    · next hpage => exact iff_of_true (by decide) hpage
    · next hpage => exact iff_of_false not_present_zero hpage

end ForgeOS.Vmem
