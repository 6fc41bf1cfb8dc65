import ForgeOS.Lib.Fuel
import ForgeOS.LList.Back
import ForgeOS.Powerman.Model

/-!
# Installing and removing callbacks

`powerman_removecallback` reads the list until it meets the callback, and asks only afterwards
whether the position is one of the list.

The main result is `powermanRemovecallback_iff`.
-/

namespace ForgeOS.Powerman

open Function List Option LList

structure Registry where
  currentState : ℤ
  locked : Bool
  powermanCblist : LList Ptr

/-- `powerman_installcallback`, when `malloc` returns the address `a` and finds the bytes of `junk`
there.  The index −1 is the largest there is. -/
def powermanInstallcallback (s : Registry) (cb a : Ptr) (junk : Node Ptr) : Option Registry :=
  if s.currentState = stateMax then some s
  else if s.locked then none
  else do
    let l ← listInsert s.powermanCblist a junk cb (wordSize - 1)
    some { s with powermanCblist := l }

/-- `while(list_at(powerman_cblist, n) != cb) n++`. -/
def search (l : LList Ptr) (cb : Ptr) : ℕ → ℕ → Option ℕ
  | 0, _ => none
  | fuel + 1, n => do
    let p ← l.listAt n
    if p.getD 0 = cb then some n else search l cb fuel (wordInc n)

/-- `if(n < list_len(powerman_cblist)) list_remove(powerman_cblist, n)`. -/
def removeAt (l : LList Ptr) (n : ℕ) : Option (LList Ptr) :=
  if n < l.len then listRemove l n else some l

def powermanRemovecallback (fuel : ℕ) (s : Registry) (cb : Ptr) : Option Registry :=
  if s.currentState = stateMax then some s
  else if s.locked then none
  else do
    let s := { s with locked := true }
    let n ← search s.powermanCblist cb fuel 0
    let l ← removeAt s.powermanCblist n
    some { s with powermanCblist := l, locked := false }

def Installed (l : LList Ptr) (cbs : List Ptr) : Prop :=
  ∃ es : List (Ptr × Ptr), es.map Prod.snd = cbs ∧ Back l es

variable {l : LList Ptr} {s t : Registry} {cb a : Ptr} {cbs : List Ptr}

theorem Installed.reads (h : Installed l cbs) : Reads l cbs := by
  obtain ⟨es, rfl, hl⟩ := h
  exact hl.front.reads

theorem Installed.length_lt (h : Installed l cbs) : cbs.length < wordSize := by
  obtain ⟨es, rfl, hl⟩ := h
  rw [length_map, ← hl.front.len]
  exact hl.front.lt_wordSize

theorem installed_createList : Installed createList [] :=
  ⟨[], rfl, back_createList⟩

theorem Installed.install (h : Installed s.powermanCblist cbs) (hmax : s.currentState ≠ stateMax)
    (hfree : s.locked = false) (h0 : a ≠ 0) (ha : s.powermanCblist.heap.read a = none)
    (cb : Ptr) (junk : Node Ptr) :
    ∃ t, powermanInstallcallback s cb a junk = some t ∧ t.locked = false ∧
      Installed t.powermanCblist (cbs ++ [cb]) := by
  have hlt := h.length_lt
  obtain ⟨es, rfl, hl⟩ := h
  rw [length_map] at hlt
  obtain ⟨l', hl', hback⟩ := hl.insert h0 ha junk cb (show wordSize - 1 ≠ 0 by decide) (by omega)
  refine ⟨{ s with powermanCblist := l' }, ?_, hfree, es ++ [(a, cb)], ?_, hback⟩
  · rw [powermanInstallcallback, if_neg hmax, hfree, if_neg Bool.false_ne_true, hl']
    rfl
  · rw [map_append, map_singleton]

theorem Installed.remove (h : Installed l cbs) {n : ℕ} (hn : n < cbs.length) :
    ∃ l', listRemove l n = some l' ∧ Installed l' (cbs.eraseIdx n) := by
  obtain ⟨es, rfl, hl⟩ := h
  rw [length_map] at hn
  obtain ⟨l', hl', hback⟩ := hl.remove hn
  exact ⟨l', hl', es.eraseIdx n, (eraseIdx_map ..).symm, hback⟩

theorem getD_ne_of_lt_idxOf {n : ℕ} (hn : n < cbs.idxOf cb) : cbs[n]?.getD 0 ≠ cb := by
  have hlt : n < cbs.length := lt_of_lt_of_le hn idxOf_le_length
  rw [getElem?_eq_getElem hlt, getD_some]
  intro heq
  have hmem : cb ∈ cbs.take (n + 1) := by
    rw [mem_take_iff_getElem]
    exact ⟨n, by omega, heq⟩
  have hle := (mem_take_iff_idxOf_lt (mem_of_mem_take hmem)).mp hmem
  omega

theorem getD_idxOf (h : cb ∈ cbs ∨ cb = 0) : cbs[cbs.idxOf cb]?.getD 0 = cb := by
  by_cases hmem : cb ∈ cbs
  · rw [getElem?_idxOf hmem, getD_some]
  · rw [idxOf_of_notMem hmem, getElem?_eq_none le_rfl, getD_none]
    exact (h.resolve_left hmem).symm

theorem search_succ (h : Reads l cbs) (fuel n : ℕ) :
    search l cb (fuel + 1) n =
      if cbs[n]?.getD 0 = cb then some n else search l cb fuel (wordInc n) := by
  rw [search, h.2, bind_eq_bind, bind_some]

theorem Installed.search (h : Installed l cbs) (hcb : cb ∈ cbs ∨ cb = 0) :
    Returns (fun fuel ↦ search l cb fuel 0) (cbs.idxOf cb) := by
  have hlt := h.length_lt
  have hle : cbs.idxOf cb ≤ cbs.length := idxOf_le_length
  -- the number of turns that are left
  suffices hfrom : ∀ k n, n + k = cbs.idxOf cb →
      Returns (fun fuel ↦ Powerman.search l cb fuel n) (cbs.idxOf cb) from hfrom _ 0 (zero_add _)
  intro k
  induction k with
  | zero =>
    rintro n rfl
    refine (Returns.of_eq rfl).turn fun fuel ↦ ?_
    rw [search_succ h.reads, if_pos (getD_idxOf hcb)]
  | succ k ih =>
    intro n hn
    have hinc : wordInc n = n + 1 := wordInc_of_lt (by omega)
    refine (ih (n + 1) (by omega)).turn fun fuel ↦ ?_
    rw [search_succ h.reads, if_neg (getD_ne_of_lt_idxOf (by omega)), hinc]

theorem search_eq_none (h : Reads l cbs) (hmem : cb ∉ cbs) (h0 : cb ≠ 0) (fuel n : ℕ) :
    search l cb fuel n = none := by
  induction fuel generalizing n with
  | zero => rw [search]
  | succ fuel ih =>
    have hne : cbs[n]?.getD 0 ≠ cb := by
      cases hn : cbs[n]? with
      | none => exact h0.symm
      | some p =>
        rintro rfl
        exact hmem (mem_of_getElem? hn)
    rw [search_succ h, if_neg hne, ih]

theorem Installed.erase (h : Installed l cbs) (cb : Ptr) :
    ∃ l', removeAt l (cbs.idxOf cb) = some l' ∧ Installed l' (cbs.erase cb) := by
  rw [removeAt, h.reads.1]
  by_cases hmem : cb ∈ cbs
  · have hlt := idxOf_lt_length_iff.mpr hmem
    obtain ⟨l', hl', h'⟩ := h.remove hlt
    rw [eraseIdx_idxOf_eq_erase] at h'
    exact ⟨l', by rw [if_pos hlt, hl'], h'⟩
  · have hge : ¬ cbs.idxOf cb < cbs.length := mt idxOf_lt_length_iff.mp hmem
    rw [erase_of_not_mem hmem]
    exact ⟨l, by rw [if_neg hge], h⟩

theorem powermanRemovecallback_eq (hmax : s.currentState ≠ stateMax) (hfree : s.locked = false)
    (fuel : ℕ) :
    powermanRemovecallback fuel s cb =
      (search s.powermanCblist cb fuel 0).bind fun n ↦
        (removeAt s.powermanCblist n).map fun l ↦ { s with powermanCblist := l } := by
  rw [powermanRemovecallback, if_neg hmax, hfree, if_neg Bool.false_ne_true]
  refine bind_congr fun n _ ↦ ?_
  rw [map_eq_bind]
  refine bind_congr fun l _ ↦ ?_
  rw [comp_apply]

theorem Installed.powermanRemovecallback (h : Installed s.powermanCblist cbs)
    (hmax : s.currentState ≠ stateMax) (hfree : s.locked = false) (hcb : cb ∈ cbs ∨ cb = 0) :
    ∃ t, Returns (fun fuel ↦ powermanRemovecallback fuel s cb) t ∧ t.locked = false ∧
      Installed t.powermanCblist (cbs.erase cb) := by
  obtain ⟨l', hl', h'⟩ := h.erase cb
  refine ⟨{ s with powermanCblist := l' }, ?_, hfree, h'⟩
  simp only [powermanRemovecallback_eq hmax hfree]
  refine (h.search hcb).bind (Returns.of_eq ?_)
  rw [hl', map_some]

/-- **Removal works for the installed callbacks and for the null pointer**, or when initialisation
has failed. -/
theorem powermanRemovecallback_iff (h : Installed s.powermanCblist cbs) (hfree : s.locked = false)
    (cb : Ptr) :
    (∃ t, Returns (fun fuel ↦ powermanRemovecallback fuel s cb) t ∧ t.locked = false ∧
        Installed t.powermanCblist (cbs.erase cb)) ↔
      if s.currentState = stateMax then cb ∉ cbs else cb ∈ cbs ∨ cb = 0 := by
  split
  next hmax =>
    have hret : Returns (fun fuel ↦ powermanRemovecallback fuel s cb) s := by
      refine ⟨0, fun fuel _ ↦ ?_⟩
      show powermanRemovecallback fuel s cb = some s
      rw [powermanRemovecallback, if_pos hmax]
    constructor
    · rintro ⟨t, ht, -, ht'⟩ hmem
      rw [← hret.unique ht] at ht'
      have hlen := congrArg length (h.reads.unique ht'.reads)
      have hpos := length_pos_of_mem hmem
      rw [length_erase_of_mem hmem] at hlen
      omega
    · intro hmem
      exact ⟨s, hret, hfree, by rwa [erase_of_not_mem hmem]⟩
  next hmax =>
    constructor
    · rintro ⟨t, ⟨N, hN⟩, -⟩
      by_contra hcon
      obtain ⟨hmem, h0⟩ := not_or.mp hcon
      have hsome : powermanRemovecallback N s cb = some t := hN N le_rfl
      rw [powermanRemovecallback_eq hmax hfree, search_eq_none h.reads hmem h0,
        bind_none] at hsome
      cases hsome
    · exact h.powermanRemovecallback hmax hfree

def oneCallback : Registry :=
  ⟨stateWorking, false, ⟨1, 0x1000, 0x1000, Heap.empty.set 0x1000 ⟨0x100, 7, 7⟩⟩⟩

theorem installed_oneCallback : Installed oneCallback.powermanCblist [0x100] := by
  have hempty : Installed (⟨stateWorking, false, createList⟩ : Registry).powermanCblist [] :=
    installed_createList
  obtain ⟨t, ht, -, h⟩ := hempty.install (by decide) rfl (show (0x1000 : Ptr) ≠ 0 by decide) rfl
    0x100 ⟨0, 7, 7⟩
  have heq : powermanInstallcallback ⟨stateWorking, false, createList⟩ 0x100 0x1000
      ⟨0, 7, 7⟩ = some oneCallback := rfl
  rwa [some.inj (heq.symm.trans ht)]

theorem powermanRemovecallback_oneCallback :
    ∃ t, Returns (fun fuel ↦ powermanRemovecallback fuel oneCallback 0x100) t ∧
      t.locked = false ∧ Installed t.powermanCblist [] :=
  (powermanRemovecallback_iff installed_oneCallback rfl 0x100).mpr (by decide)

/-- **The removal of a callback that is not installed does not return.** -/
theorem not_powermanRemovecallback_oneCallback :
    Installed oneCallback.powermanCblist [0x100] ∧ oneCallback.locked = false ∧
      (0x200 : Ptr) ∉ ([0x100] : List Ptr) ∧
      ¬ ∃ t, Returns (fun fuel ↦ powermanRemovecallback fuel oneCallback 0x200) t := by
  refine ⟨installed_oneCallback, rfl, by decide, ?_⟩
  rintro ⟨t, N, hN⟩
  have hsome : powermanRemovecallback N oneCallback 0x200 = some t := hN N le_rfl
  rw [powermanRemovecallback_eq (by decide) rfl,
    search_eq_none installed_oneCallback.reads (by decide) (by decide), bind_none] at hsome
  cases hsome

end ForgeOS.Powerman
