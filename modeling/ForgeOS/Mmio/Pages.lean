import ForgeOS.Mmio.Model

/-!
# Whole pages

A request for `len` bytes at the physical address `tophys` is one for all the pages they lie on.
-/

namespace ForgeOS.MmioPool

open Paging Function List Option UInt32 Vmem

def wholePages (n : ℕ) : ℕ := max 0x1000 ((n + 0xFFF) / 0x1000 * 0x1000)

def extent (len : UInt32) (tophys : UInt64) : ℕ := tophys.toNat % 0x1000 + len.toNat

def Grant.size (g : Grant) : ℕ := wholePages (extent g.len g.tophys)

theorem le_wholePages (n : ℕ) : n ≤ wholePages n := by
  unfold wholePages
  omega

theorem page_le_wholePages (n : ℕ) : 0x1000 ≤ wholePages n := le_max_left ..

theorem wholePages_mod (n : ℕ) : wholePages n % 0x1000 = 0 := by
  unfold wholePages
  omega

variable {len ret : UInt32} {tophys : UInt64}

theorem toNat_and_mask (tophys : UInt64) : (tophys &&& 0xFFF).toNat = tophys.toNat % 0x1000 := by
  rw [UInt64.toNat_and]
  exact Nat.and_two_pow_sub_one_eq_mod tophys.toNat 12

theorem toNat_pageLen_eq_mod (len : UInt32) (tophys : UInt64) :
    (pageLen len tophys).toNat = wholePages (extent len tophys % 2 ^ 32) % 2 ^ 32 := by
  have hmask := toNat_and_mask tophys
  unfold pageLen
  dsimp only
  have hoffset : (if tophys &&& 0xFFF ≠ 0 then len + (tophys &&& 0xFFF).toUInt32 else len).toNat =
      extent len tophys % 2 ^ 32 := by
    unfold extent
    split
    · rw [UInt32.toNat_add, UInt64.toNat_toUInt32, hmask]
      omega
    · next hzero =>
      rw [not_not.mp hzero] at hmask
      have hzero' : tophys.toNat % 0x1000 = 0 := hmask.symm
      have hlen := len.toNat_lt
      omega
  generalize (if tophys &&& 0xFFF ≠ 0 then len + (tophys &&& 0xFFF).toUInt32 else len) =
    n at hoffset ⊢
  rw [← hoffset]
  have hpage : (if n < 0x1000 then 0x1000 else n).toNat = max 0x1000 n.toNat := by
    have hlt : n < 0x1000 ↔ n.toNat < 0x1000 := lt_iff_toNat_lt
    split
    · next hn =>
      rw [max_eq_left (hlt.mp hn).le]
      rfl
    · next hn => rw [max_eq_right (Nat.le_of_not_lt fun hn' ↦ hn (hlt.mpr hn'))]
  have hsame : wholePages n.toNat = (max 0x1000 n.toNat + 0xFFF) / 0x1000 * 0x1000 := by
    unfold wholePages
    omega
  rw [hsame, ← hpage]
  generalize (if n < 0x1000 then 0x1000 else n) = m
  have hm := m.toNat_lt
  have hmod : (m % 0x1000).toNat = m.toNat % 0x1000 := UInt32.toNat_mod ..
  split
  · next hne =>
    have hne' : m.toNat % 0x1000 ≠ 0 := fun hzero ↦ hne (UInt32.toNat_inj.mp (hmod.trans hzero))
    have hadd : (m + 0x1000).toNat = (m.toNat + 0x1000) % 2 ^ 32 := UInt32.toNat_add ..
    show (frameOf (m + 0x1000)).toNat = _
    rw [toNat_frameOf, hadd]
    omega
  · next heq =>
    rw [not_not.mp heq] at hmod
    have hzero : m.toNat % 0x1000 = 0 := hmod.symm
    omega

theorem toNat_pageLen (h : wholePages (extent len tophys) < 2 ^ 32) :
    (pageLen len tophys).toNat = wholePages (extent len tophys) := by
  have hextent := (le_wholePages (extent len tophys)).trans_lt h
  rw [toNat_pageLen_eq_mod, Nat.mod_eq_of_lt hextent, Nat.mod_eq_of_lt h]

theorem toNat_pageLen_le (h : 2 ^ 32 ≤ wholePages (extent len tophys)) :
    (pageLen len tophys).toNat ≤ 0x1000 := by
  have hextent : extent len tophys < 2 ^ 32 + 0xFFF := by
    have hlen := len.toNat_lt
    unfold extent
    omega
  rw [toNat_pageLen_eq_mod]
  unfold wholePages at h ⊢
  omega

theorem toNat_physBase (h : tophys.toNat < 2 ^ 32) :
    (physBase tophys).toNat = tophys.toNat - tophys.toNat % 0x1000 := by
  have hmask := toNat_and_mask tophys
  unfold physBase
  split
  · have hlow : tophys = tophys.toUInt32.toUInt64 := by
      refine UInt64.toNat_inj.mp ?_
      rw [toNat_toUInt64, UInt64.toNat_toUInt32, Nat.mod_eq_of_lt h]
    have hframe : tophys &&& (~~~0xFFF : UInt32).toUInt64 = (frameOf tophys.toUInt32).toUInt64 := by
      rw [frameOf, toUInt64_and, ← hlow]
      rfl
    rw [hframe, toNat_toUInt64, toNat_frameOf, UInt64.toNat_toUInt32, Nat.mod_eq_of_lt h]
    omega
  · next hzero =>
    rw [not_not.mp hzero] at hmask
    have hzero' : tophys.toNat % 0x1000 = 0 := hmask.symm
    omega

def translate (m : Space) (v : ℕ) : Option ℕ :=
  (m.frame (page (ofNat v))).map fun f ↦ f.toNat + v % 0x1000

theorem translate_eq (m : Space) (v : UInt32) {w : ℕ} (hw : w % 2 ^ 32 = v.toNat) :
    translate m w = (m.frame (page v)).map fun f ↦ f.toNat + v.toNat % 0x1000 := by
  have hv : ofNat w = v := by
    refine UInt32.toNat_inj.mp ?_
    rw [UInt32.toNat_ofNat', hw]
  have hoff : w % 0x1000 = v.toNat % 0x1000 := by omega
  rw [translate, hv, hoff]

theorem frame_mapPages_sub (m : Space) {n : ℕ} (hn : n * 0x1000 ≤ 2 ^ 32) (v : UInt32) :
    (mapPages m ret tophys n).frame (page v) =
      if (v - frameOf ret).toNat < n * 0x1000 then
        some (frameOf (tophys + UInt64.ofNat ((v - frameOf ret).toNat / 0x1000 * 0x1000)).toUInt32)
      else m.frame (page v) := by
  have hsub : (v - frameOf ret).toNat =
      (2 ^ 32 - ret.toNat / 0x1000 * 0x1000 + v.toNat) % 2 ^ 32 := by
    rw [UInt32.toNat_sub, toNat_frameOf]
  have hv := v.toNat_lt
  have hr := ret.toNat_lt
  induction n with
  | zero =>
    rw [Nat.zero_mul, if_neg (Nat.not_lt_zero _)]
    rfl
  | succ n ih =>
    specialize ih (le_trans (Nat.mul_le_mul_right _ n.le_succ) hn)
    have hmul : (ofNat n * 0x1000).toNat = n * 0x1000 := by
      rw [UInt32.toNat_mul, UInt32.toNat_ofNat']
      show n % 2 ^ 32 * 0x1000 % 2 ^ 32 = _
      omega
    have hslot : (ret + ofNat n * 0x1000).toNat = (ret.toNat + n * 0x1000) % 2 ^ 32 := by
      rw [UInt32.toNat_add, hmul]
    have hoff : (ofNat n * 0x1000).toUInt64 = UInt64.ofNat (n * 0x1000) := by
      refine UInt64.toNat_inj.mp ?_
      rw [toNat_toUInt64, hmul, UInt64.toNat_ofNat']
      omega
    have hsame : page v = page (ret + ofNat n * 0x1000) ↔
        n * 0x1000 ≤ (v - frameOf ret).toNat ∧ (v - frameOf ret).toNat < (n + 1) * 0x1000 := by
      rw [page_eq_iff, hslot, hsub]
      omega
    have hstep : mapPages m ret tophys (n + 1) = vmemMap (mapPages m ret tophys n)
        (ret + ofNat n * 0x1000) (tophys + UInt64.ofNat (n * 0x1000)) := by
      rw [mapPages, range_succ, foldl_append, foldl_cons, foldl_nil, hoff]
      rfl
    rw [hstep, vmemMap, Space.frame_set]
    by_cases hpage : page v = page (ret + ofNat n * 0x1000)
    · obtain ⟨hlow, hhigh⟩ := hsame.mp hpage
      have hdiv : (v - frameOf ret).toNat / 0x1000 * 0x1000 = n * 0x1000 := by omega
      rw [if_pos hhigh, hdiv, hpage, update_self]
    · rw [update_of_ne hpage, ih]
      refine if_congr ?_ rfl rfl
      rw [hsame] at hpage
      omega

theorem translate_mapPages_add (m : Space) {n d : ℕ} (htop : tophys.toNat % 0x1000 = 0)
    (hn : n * 0x1000 ≤ 2 ^ 32) (hd : ret.toNat % 0x1000 + d < 2 ^ 32) :
    translate (mapPages m ret tophys n) (ret.toNat + d) =
      if ret.toNat % 0x1000 + d < n * 0x1000 then
        some ((tophys.toNat + ret.toNat % 0x1000 + d) % 2 ^ 32)
      else translate m (ret.toNat + d) := by
  have hr := ret.toNat_lt
  have hv : (ret.toNat + d) % 2 ^ 32 = (ofNat (ret.toNat + d)).toNat := by
    rw [UInt32.toNat_ofNat']
  have hsub : (ofNat (ret.toNat + d) - frameOf ret).toNat = ret.toNat % 0x1000 + d := by
    rw [UInt32.toNat_sub, toNat_frameOf, ← hv]
    omega
  rw [translate_eq _ _ hv, translate_eq _ _ hv, frame_mapPages_sub m hn, hsub]
  split
  · rw [map_some, toNat_frameOf, UInt64.toNat_toUInt32, UInt64.toNat_add,
      UInt64.toNat_ofNat', ← hv]
    congr 1
    omega
  · rfl

theorem translate_mapPages (m : Space) {n k : ℕ} (hret : ret.toNat % 0x1000 = 0)
    (hfit : ret.toNat + n * 0x1000 ≤ 2 ^ 32) (hextent : extent len tophys ≤ n * 0x1000)
    (hphys : tophys.toNat + len.toNat ≤ 2 ^ 32) (hk : k < len.toNat) :
    translate (mapPages m ret (physBase tophys) n) (ret.toNat + tophys.toNat % 0x1000 + k) =
      some (tophys.toNat + k) := by
  unfold extent at hextent
  have hbase := @toNat_physBase tophys (by omega)
  rw [Nat.add_assoc, translate_mapPages_add m (by omega) (by omega) (by omega), if_pos (by omega),
    hbase]
  congr 1
  omega

theorem translate_mapPages_of_not (m : Space) {n v : ℕ} (hret : ret.toNat % 0x1000 = 0)
    (hfit : ret.toNat + n * 0x1000 ≤ 2 ^ 32) (hv : v < 2 ^ 32)
    (hout : v < ret.toNat ∨ ret.toNat + n * 0x1000 ≤ v) :
    translate (mapPages m ret tophys n) v = translate m v := by
  have hsub : (ofNat v - frameOf ret).toNat = (2 ^ 32 - ret.toNat + v) % 2 ^ 32 := by
    rw [UInt32.toNat_sub, toNat_frameOf, UInt32.toNat_ofNat', Nat.mod_eq_of_lt hv]
    omega
  rw [translate, frame_mapPages_sub m (by omega), if_neg (by omega), translate]

end ForgeOS.MmioPool
