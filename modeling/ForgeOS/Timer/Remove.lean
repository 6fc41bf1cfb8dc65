import ForgeOS.Timer.Ticked

/-!
# Removing a handler

In the loop of `remove_timer` the index has been advanced when an entry is looked at, and is given
to `list_remove` before it is decremented: what is removed is the entry *after* the one that was
found, or at the end of the list the last one.

The main result is `removes_iff`.
-/

namespace ForgeOS

open List Option Nat

namespace LList

variable {α : Type} {l l' : LList α} {xs : List α}

theorem Linked.listRemove_last (hl : Linked l) (hx : Reads l xs) (hlen : 2 ≤ l.len) {index : ℕ}
    (hidx : l.len ≤ index) :
    ∃ l', LList.listRemove l index = some l' ∧ Linked l' ∧ Reads l' xs.dropLast := by
  obtain ⟨ns, hr⟩ := linked_iff.mp hl
  have hdec : wordDec l.len = l.len - 1 :=
    wordDec_of_pos (by omega) (hr.len ▸ hr.seg.length_lt)
  have hsame : LList.listRemove l index = LList.listRemove l (l.len - 1) := by
    have hne : index ≠ 0 := by omega
    have hne' : l.len - 1 ≠ 0 := by omega
    have hle : wordDec l.len ≤ index := by omega
    simp only [LList.listRemove, unlink, if_neg hne, if_neg hne', if_pos hle, if_pos hdec.le]
  obtain ⟨l', hl', hlinked, hreads⟩ := hl.listRemove hx (show l.len - 1 < l.len by omega)
  refine ⟨l', hsame.trans hl', hlinked, ?_⟩
  rwa [hx.1, eraseIdx_length_sub_one] at hreads

theorem listRemove_only (hl : Linked l) (hlen : l.len = 1) {index : ℕ} (hidx : index ≠ 0)
    (hl' : listRemove l index = some l') : l'.len = 0 ∧ ¬ Linked l' := by
  obtain ⟨ns, hr⟩ := linked_iff.mp hl
  obtain ⟨x, rfl⟩ := length_eq_one_iff.mp (hr.len.symm.trans hlen)
  obtain ⟨-, n, hn, -⟩ := hr.seg
  have hdec : wordDec l.len = 0 := by rw [hlen]; decide
  have hkeep : l'.head = l.head ∧ l'.len = 0 := by
    obtain ⟨⟨b, m⟩, hu, hl'⟩ := bind_eq_some_iff.mp hl'
    obtain ⟨h, -, hl'⟩ := bind_eq_some_iff.mp hl'
    obtain rfl := some.inj hl'
    rw [unlink, if_neg hidx, if_pos (by omega)] at hu
    obtain ⟨t, -, hu⟩ := bind_eq_some_iff.mp hu
    obtain ⟨h', -, hu⟩ := bind_eq_some_iff.mp hu
    obtain ⟨rfl, rfl⟩ := Prod.mk.inj (some.inj hu)
    exact ⟨rfl, hdec⟩
  refine ⟨hkeep.2, fun hlinked ↦ ?_⟩
  obtain ⟨ms, hr'⟩ := linked_iff.mp hlinked
  obtain rfl : ms = [] := eq_nil_of_length_eq_zero (hr'.len.symm.trans hkeep.2)
  have hzero : l'.head = 0 := hr'.seg
  exact Heap.ne_zero_of_read hn (hkeep.1.symm.trans hzero)

end LList

namespace Timers

open Timer

variable {H : Type} {s : Timers H} {th : H} {es ds : List (Ptr × Meta H)} {e : Ptr × Meta H}

variable {fs : List (Ptr × Meta H)}

theorem WellFormed.shrink (h : WellFormed s es) (hsub : fs.Sublist es)
    {l : LList Ptr} (hlinked : l.Linked) (hreads : l.Reads (fs.map Prod.fst)) :
    WellFormed { s with timerList := l } fs :=
  ⟨⟨hreads, fun e he ↦ h.metas e (hsub.subset he), (hsub.map Prod.fst).nodup h.nodup⟩, hlinked,
    fun e he ↦ h.bound e (hsub.subset he)⟩

variable [DecidableEq H]

theorem WellFormed.removeLoop_end (h : WellFormed s es) (fuel : ℕ) :
    removeLoop th (fuel + 1) es.length s = some s := by
  rw [removeLoop, h.reads.2, getElem?_eq_none (by simp)]
  rfl

theorem WellFormed.removeLoop_other (h : WellFormed s (ds ++ e :: es)) (he : e.2.th ≠ th)
    (fuel : ℕ) : removeLoop th (fuel + 1) ds.length s = removeLoop th fuel (ds.length + 1) s := by
  have hread := h.metas e (by simp)
  rw [removeLoop, h.listAt_middle, bind_some]
  show (if e.1 = 0 then _ else _) = _
  rw [if_neg (Heap.ne_zero_of_read hread), hread, bind_some, if_neg he]

theorem WellFormed.removeLoop_match (h : WellFormed s (ds ++ e :: es)) (he : e.2.th = th)
    (fuel : ℕ) : removeLoop th (fuel + 1) ds.length s =
      (s.timerList.listRemove (ds.length + 1)).bind fun l ↦
        removeLoop th fuel ds.length { s with timerList := l } := by
  have hread := h.metas e (by simp)
  rw [removeLoop, h.listAt_middle, bind_some]
  show (if e.1 = 0 then _ else _) = _
  rw [if_neg (Heap.ne_zero_of_read hread), hread, bind_some, if_pos he]

theorem WellFormed.removeLoop_next {f : Ptr × Meta H} (h : WellFormed s (ds ++ e :: f :: es))
    (he : e.2.th = th) : ∃ s', WellFormed s' (ds ++ e :: es) ∧
      ∀ fuel, removeLoop th (fuel + 1) ds.length s = removeLoop th fuel ds.length s' := by
  have hlen := h.reads.1
  simp only [length_map, length_append, length_cons] at hlen
  obtain ⟨l, hl, hlinked, hreads⟩ := h.linked.listRemove h.reads
    (show ds.length + 1 < s.timerList.len by omega)
  have hcut : ((ds ++ e :: f :: es).map Prod.fst).eraseIdx (ds.length + 1) =
      (ds ++ e :: es).map Prod.fst := by
    rw [map_append, eraseIdx_append_of_length_le (by simp), length_map,
      Nat.add_sub_cancel_left, map_append]
    rfl
  rw [hcut] at hreads
  refine ⟨_, h.shrink ?_ hlinked hreads, fun fuel ↦ ?_⟩
  · exact (List.Sublist.refl ds).append ((sublist_cons_self f es).cons_cons e)
  · rw [h.removeLoop_match he, hl, bind_some]

theorem WellFormed.removeLoop_rest (h : WellFormed s (ds ++ e :: es)) (he : e.2.th = th)
    (hds : ds ≠ []) {fuel : ℕ} (hfuel : es.length + 1 < fuel) :
    ∃ s', removeLoop th fuel ds.length s = some s' ∧ WellFormed s' ds := by
  obtain ⟨fuel, rfl⟩ := exists_eq_add_one_of_ne_zero (ne_zero_of_lt hfuel)
  induction es generalizing s fuel with
  | nil =>
    obtain ⟨fuel, rfl⟩ := exists_eq_add_one_of_ne_zero
      (ne_zero_of_lt (lt_of_succ_lt_succ hfuel))
    have hpos := length_pos_iff.mpr hds
    have hlen := h.reads.1
    simp only [length_map, length_append, length_cons, length_nil] at hlen
    obtain ⟨l, hl, hlinked, hreads⟩ := h.linked.listRemove_last h.reads (by omega)
      (show s.timerList.len ≤ ds.length + 1 by omega)
    rw [map_append, map_singleton, dropLast_concat] at hreads
    have hwf := h.shrink (sublist_append_left ds [e]) hlinked hreads
    refine ⟨_, ?_, hwf⟩
    rw [h.removeLoop_match he, hl, bind_some, hwf.removeLoop_end]
  | cons f es ih =>
    obtain ⟨fuel, rfl⟩ := exists_eq_add_one_of_ne_zero
      (ne_zero_of_lt (lt_of_succ_lt_succ hfuel))
    obtain ⟨s1, h1, hturn⟩ := h.removeLoop_next he
    obtain ⟨s', hs', hwf⟩ := ih h1 fuel (by simpa using hfuel)
    exact ⟨s', (hturn _).trans hs', hwf⟩

theorem WellFormed.not_linked_of_first (h : WellFormed s (e :: es)) (he : e.2.th = th) {fuel : ℕ}
    {s' : Timers H} (hs' : removeLoop th fuel 0 s = some s') : ¬ s'.timerList.Linked := by
  induction es generalizing s fuel with
  | nil =>
    cases fuel with
    | zero => cases hs'
    | succ fuel =>
      have hwf : WellFormed s ([] ++ e :: []) := h
      rw [← length_nil, hwf.removeLoop_match he] at hs'
      obtain ⟨l, hl, hs'⟩ := bind_eq_some_iff.mp hs'
      obtain ⟨hlen, hno⟩ := LList.listRemove_only h.linked h.reads.1 (succ_ne_zero _) hl
      cases fuel with
      | zero => cases hs'
      | succ fuel =>
        rw [removeLoop, LList.listAt, if_pos (by simp [hlen]), bind_some] at hs'
        rw [← some.inj hs']
        exact hno
  | cons f es ih =>
    cases fuel with
    | zero => cases hs'
    | succ fuel =>
      have hwf : WellFormed s ([] ++ e :: f :: es) := h
      obtain ⟨s1, h1, hturn⟩ := hwf.removeLoop_next he
      exact ih h1 ((hturn fuel).symm.trans hs')

theorem WellFormed.removeLoop_skip (h : WellFormed s (ds ++ fs ++ es)) (hfs : ∀ e ∈ fs, e.2.th ≠ th)
    (fuel : ℕ) :
    removeLoop th (fuel + fs.length) ds.length s = removeLoop th fuel (ds ++ fs).length s := by
  induction fs generalizing ds with
  | nil => rw [append_nil, length_nil, add_zero]
  | cons f fs ih =>
    have hwf : WellFormed s (ds ++ f :: (fs ++ es)) := by simpa using h
    have hrest : WellFormed s (ds ++ [f] ++ fs ++ es) := by simpa using h
    have hskip := ih hrest fun e he ↦ hfs e (by simp [he])
    rw [length_cons, ← add_assoc, hwf.removeLoop_other (hfs f (by simp))]
    simpa [add_comm, add_left_comm] using hskip

/-- **What `remove_timer` promises**: the entries of the handler are removed, and the others
stay. -/
def Removes (s : Timers H) (th : H) (es : List (Ptr × Meta H)) : Prop :=
  ∃ s', removeTimer s th = some s' ∧ WellFormed s' (es.filter fun e ↦ e.2.th ≠ th)

/-- The entries of the handler are the last ones of the list, and not all of it. -/
def AtTheEnd (th : H) (es : List (Ptr × Meta H)) : Prop :=
  ∃ ds fs, es = ds ++ fs ∧ (∀ e ∈ ds, e.2.th ≠ th) ∧ (∀ e ∈ fs, e.2.th = th) ∧
    (ds = [] → fs = [])

theorem exists_cut (th : H) (es : List (Ptr × Meta H)) :
    ∃ ds fs, es = ds ++ fs ∧ (∀ e ∈ ds, e.2.th ≠ th) ∧ ∀ e ∈ fs.head?, e.2.th = th := by
  induction es with
  | nil => exact ⟨[], [], rfl, by simp, by simp⟩
  | cons e es ih =>
    by_cases he : e.2.th = th
    · exact ⟨[], e :: es, rfl, by simp, by simpa using he⟩
    · obtain ⟨ds, fs, rfl, hds, hfs⟩ := ih
      exact ⟨e :: ds, fs, rfl, forall_mem_cons.mpr ⟨he, hds⟩, hfs⟩

omit [DecidableEq H] in
theorem atTheEnd_cut_iff (hds : ∀ e ∈ ds, e.2.th ≠ th) (he : e.2.th = th) :
    AtTheEnd th (ds ++ e :: es) ↔ ds ≠ [] ∧ ∀ f ∈ es, f.2.th = th := by
  constructor
  · rintro ⟨ds', fs', hcut, hds', hfs', hnil⟩
    rcases append_eq_append_iff.mp hcut with ⟨cs, rfl, hcs⟩ | ⟨cs, rfl, hcs⟩
    · cases cs with
      | nil =>
        rw [nil_append] at hcs
        subst hcs
        rw [append_nil] at hnil
        exact ⟨fun h ↦ absurd (hnil h) (by simp), fun f hf ↦ hfs' f (by simp [hf])⟩
      | cons c cs =>
        obtain ⟨rfl, -⟩ := cons.inj hcs
        exact absurd he (hds' e (by simp))
    · have hall : ∀ f ∈ cs, f.2.th = th := fun f hf ↦ hfs' f (by simp [hcs, hf])
      have hcs' : cs = [] := by
        refine eq_nil_iff_forall_not_mem.mpr fun f hf ↦ ?_
        exact hds f (by simp [hf]) (hall f hf)
      subst hcs'
      rw [nil_append] at hcs
      subst hcs
      refine ⟨fun h ↦ ?_, fun f hf ↦ hfs' f (by simp [hf])⟩
      rw [append_nil] at h
      exact absurd (hnil h) (by simp)
  · rintro ⟨hne, hall⟩
    exact ⟨ds, e :: es, rfl, hds, forall_mem_cons.mpr ⟨he, hall⟩, fun h ↦ absurd h hne⟩

/-- **When `remove_timer` keeps its promise.** -/
theorem removes_iff (s : Timers H) (es : List (Ptr × Meta H)) (h : WellFormed s es) (th : H) :
    Removes s th es ↔ AtTheEnd th es := by
  have hlen : s.timerList.len = es.length := h.reads.1.trans (length_map _)
  obtain ⟨ds, fs, rfl, hds, hfs⟩ := exists_cut th es
  have hkeep : ds.filter (fun e ↦ e.2.th ≠ th) = ds :=
    filter_eq_self.mpr fun e he ↦ by simpa using hds e he
  have hstart : removeTimer s th = removeLoop th (fs.length + 1) ds.length s := by
    have hwf : WellFormed s ([] ++ ds ++ fs) := h
    have hskip := hwf.removeLoop_skip hds (fs.length + 1)
    rw [removeTimer, hlen, length_append, add_comm ds.length, add_right_comm]
    exact hskip
  rw [Removes, hstart, filter_append, hkeep]
  cases fs with
  | nil =>
    rw [append_nil] at h
    exact iff_of_true ⟨s, h.removeLoop_end 0, by simpa using h⟩
      ⟨ds, [], rfl, hds, by simp, fun _ ↦ rfl⟩
  | cons e fs =>
    have he : e.2.th = th := hfs e rfl
    rw [atTheEnd_cut_iff hds he]
    by_cases hnil : ds = []
    · subst hnil
      refine iff_of_false ?_ fun hend ↦ hend.1 rfl
      rintro ⟨s', hs', hwf⟩
      exact h.not_linked_of_first he hs' hwf.linked
    · obtain ⟨s', hs', hwf⟩ := h.removeLoop_rest he hnil (lt_succ_self _)
      have hfilter : (e :: fs).filter (fun e ↦ e.2.th ≠ th) = [] ↔ ∀ f ∈ fs, f.2.th = th := by
        simp [filter_eq_nil_iff, he]
      rw [length_cons, hs', ← hfilter]
      constructor
      · rintro ⟨s'', heq, hwf''⟩
        obtain rfl := some.inj heq
        refine ⟨hnil, eq_nil_of_length_eq_zero ?_⟩
        have hlens := hwf.reads.1.symm.trans hwf''.reads.1
        simp only [length_map, length_append] at hlens
        omega
      · rintro ⟨-, hempty⟩
        exact ⟨s', rfl, by rwa [hempty, append_nil]⟩

theorem removes_desk : let es := [(0x9000, oneshot 1 2000000), (0x9010, periodic 2 1000000)]
    WellFormed (desk featPeriodic (oneshot 1 2000000) (periodic 2 1000000)) es ∧ AtTheEnd 2 es ∧
      Removes (desk featPeriodic (oneshot 1 2000000) (periodic 2 1000000)) 2 es := by
  intro es
  have hwf : WellFormed (desk featPeriodic (oneshot 1 2000000) (periodic 2 1000000)) es :=
    wellFormed_desk featPeriodic rfl rfl
  have hend : AtTheEnd 2 es :=
    ⟨[(0x9000, oneshot 1 2000000)], [(0x9010, periodic 2 1000000)], rfl, by decide, by decide,
      by simp⟩
  exact ⟨hwf, hend, (removes_iff _ es hwf 2).mpr hend⟩

/-- **The wrong handler is removed, and then the machine faults**: `list_remove` writes through a
null pointer for the last entry. -/
theorem not_removes_desk : let es := [(0x9000, oneshot 1 2000000), (0x9010, periodic 2 1000000)]
    WellFormed (desk featPeriodic (oneshot 1 2000000) (periodic 2 1000000)) es ∧
      removeTimer (desk featPeriodic (oneshot 1 2000000) (periodic 2 1000000)) 1 = none ∧
      ¬ Removes (desk featPeriodic (oneshot 1 2000000) (periodic 2 1000000)) 1 es := by
  intro es
  have hfault :
      removeTimer (desk featPeriodic (oneshot 1 2000000) (periodic 2 1000000)) 1 = none := by
    decide
  refine ⟨wellFormed_desk featPeriodic rfl rfl, hfault, ?_⟩
  rintro ⟨s', hs', -⟩
  rw [hfault] at hs'
  cases hs'

end Timers
end ForgeOS
