import ForgeOS.Timer.Model

/-!
# What a tick does to the handlers

What happens to one entry does not depend on the others.

The main result is `timerTicked_of_periodic`.
-/

namespace ForgeOS.Timers

open Timer List Option

variable {H : Type}

structure Lists (s : Timers H) (es : List (Ptr × Meta H)) : Prop where
  reads : s.timerList.Reads (es.map Prod.fst)
  metas : ∀ e ∈ es, s.metas.read e.1 = some e.2
  nodup : (es.map Prod.fst).Nodup

structure WellFormed (s : Timers H) (es : List (Ptr × Meta H)) : Prop extends Lists s es where
  linked : s.timerList.Linked
  bound : ∀ e ∈ es, (s.hw.read e.2.tim).isSome

variable {e : Ptr × Meta H}

theorem Lists.listAt_middle {s : Timers H} {ds es : List (Ptr × Meta H)}
    (h : Lists s (ds ++ e :: es)) : s.timerList.listAt ds.length = some (some e.1) := by
  rw [h.reads.2, getElem?_map, getElem?_append_right le_rfl, Nat.sub_self]
  rfl

def OnList (s : Timers H) (p : Ptr) : Prop := ∃ i, s.timerList.listAt i = some (some p)

theorem Lists.onList_iff {s : Timers H} {es : List (Ptr × Meta H)} (h : Lists s es) {p : Ptr} :
    OnList s p ↔ p ∈ es.map Prod.fst := by
  rw [mem_iff_getElem?]
  refine exists_congr fun i ↦ ?_
  rw [h.reads.2, some_inj]

def featOf (s : Timers H) (tim : Ptr) : UInt32 := (s.hw.read tim).elim 0 HwTimer.timerFeat

structure Cell where
  ticks : ℕ
  gone : Bool
  told : List ℕ
  deriving DecidableEq

namespace Cell

variable (feat : UInt32) (m : Meta H) (d : ℕ) (c : Cell)

def native : Cell :=
  if Meets feat featOneshot ∧ Meets m.feat featOneshot ∧ c.ticks = d then
    { c with gone := true, told := c.told ++ [d] }
  else c

def periodic : Cell :=
  if Meets feat featPeriodic ∧ Meets m.feat featPeriodic then
    if c.ticks - d = 0 then { c with ticks := m.origTicks, told := c.told ++ [max d m.origTicks] }
    else { c with ticks := c.ticks - d }
  else c

def emulated : Cell :=
  if (¬ Meets feat featOneshot ∧ Meets feat featPeriodic) ∧ Meets m.feat featOneshot then
    if c.ticks - d = 0 then ⟨0, true, c.told ++ [max d m.origTicks]⟩
    else { c with ticks := c.ticks - d }
  else c

def ticked : Cell := ((c.native feat m d).periodic feat m d).emulated feat m d

def start (m : Meta H) : Cell := ⟨m.ticks, false, []⟩

variable {feat m d c}

theorem periodic_gone : (c.periodic feat m d).gone = c.gone := by
  rw [periodic]
  split
  · split <;> rfl
  · rfl

theorem native_gone (hc : c.gone = false) (hfeat : ¬ Meets feat featOneshot) :
    (c.native feat m d).gone = false := by
  rwa [native, if_neg fun h ↦ hfeat h.1]

end Cell

/-- What a tick of the timer `tim` does to an entry of the list. -/
def cellOf (tim : Ptr) (feat : UInt32) (d : ℕ) (e : Ptr × Meta H) : Cell :=
  if e.2.tim = tim then (Cell.start e.2).ticked feat e.2 d else Cell.start e.2

def survivor (tim : Ptr) (feat : UInt32) (d : ℕ) (e : Ptr × Meta H) : Option (Ptr × Meta H) :=
  if (cellOf tim feat d e).gone then none
  else some (e.1, { e.2 with ticks := (cellOf tim feat d e).ticks })

def callOf (e : Ptr × Meta H) (ticks : ℕ) : Call H := ⟨e.1, e.2.th, ticks, e.2.cpu⟩

def callsFor (tim : Ptr) (feat : UInt32) (d : ℕ) (e : Ptr × Meta H) : List (Call H) :=
  (cellOf tim feat d e).told.map (callOf e)

namespace Scan

variable {me : UInt32} {reply : Call H → Int32} {r : Scan H} {s : Timers H} {p tim : Ptr}
  {m : Meta H} {c : Cell} {feat : UInt32} {d : ℕ} {ds es : List (Ptr × Meta H)}

theorem elapse_eq (m : Meta H) (d : ℕ) : elapse m d = { m with ticks := m.ticks - d } := by
  rw [elapse]
  split
  next h => rw [Nat.sub_eq_zero_of_le h.le]
  · rfl

theorem told_eq (m : Meta H) (d : ℕ) : told m d = max d m.origTicks := by
  rw [told]
  split <;> omega

structure At (s : Timers H) (p : Ptr) (m : Meta H) (ds es : List (Ptr × Meta H)) (c : Cell)
    (r : Scan H) : Prop where
  linked : r.s.timerList.Linked
  reads : r.s.timerList.Reads
    (ds.map Prod.fst ++ ((if c.gone then [] else [p]) ++ es.map Prod.fst))
  metas : ∀ e ∈ ds ++ (p, { m with ticks := c.ticks }) :: es, r.s.metas.read e.1 = some e.2
  nodup : ((ds ++ (p, m) :: es).map Prod.fst).Nodup
  index : r.index = ds.length + if c.gone then 0 else 1
  calls : r.s.calls = s.calls ++ c.told.map (callOf (p, m))
  hw : r.s.hw = s.hw
  hwtimerList : r.s.hwtimerList = s.hwtimerList

theorem At.read (h : At s p m ds es c r) : r.s.metas.read p = some { m with ticks := c.ticks } :=
  h.metas (p, _) (by simp)

theorem At.doTh (h : At s p m ds es c r) (t : ℕ) (n : Meta H) (hth : n.th = m.th)
    (hcpu : n.cpu = m.cpu) :
    At s p m ds es { c with told := c.told ++ [t] } (r.doTh me reply p n t) where
  linked := h.linked
  reads := h.reads
  metas := h.metas
  nodup := h.nodup
  index := h.index
  calls := by simp [Scan.doTh, h.calls, hth, hcpu, callOf]
  hw := h.hw
  hwtimerList := h.hwtimerList

theorem At.write (h : At s p m ds es c r) (t : ℕ) :
    At s p m ds es { c with ticks := t } (r.write p { m with ticks := t }) where
  linked := h.linked
  reads := h.reads
  metas := by
    have hnd := h.nodup
    rw [map_append, map_cons, nodup_middle, nodup_cons,
      ← map_append] at hnd
    intro e he
    have he' : e = (p, { m with ticks := t }) ∨ e ∈ ds ++ es := by
      simp only [mem_append, mem_cons] at he ⊢
      tauto
    rcases he' with rfl | hother
    · exact Heap.read_set_self (Heap.ne_zero_of_read h.read)
    · have hne : e.1 ≠ p := fun heq ↦ hnd.1 (mem_map.mpr ⟨e, hother, heq⟩)
      refine (Heap.read_set_of_ne hne).trans (h.metas e ?_)
      simp only [mem_append, mem_cons] at hother ⊢
      tauto
  nodup := h.nodup
  index := h.index
  calls := h.calls
  hw := h.hw
  hwtimerList := h.hwtimerList

theorem At.dropEntry (h : At s p m ds es c r) (hc : c.gone = false) :
    ∃ r', r.dropEntry = some r' ∧ At s p m ds es { c with gone := true } r' := by
  have hindex : r.index - 1 = ds.length := by simp [h.index, hc]
  have hlt : ds.length < r.s.timerList.len := by
    rw [h.reads.1]
    simp [hc]
  obtain ⟨l, hl, hlinked, hreads⟩ := h.linked.listRemove h.reads hlt
  refine ⟨{ r with s := { r.s with timerList := l }, index := ds.length },
    by rw [Scan.dropEntry, hindex, hl, map_some],
    hlinked, ?_, h.metas, h.nodup, rfl, h.calls, h.hw, h.hwtimerList⟩
  rw [eraseIdx_append_of_length_le (by simp)] at hreads
  simpa [hc] using hreads

def entry (p : Ptr) (m : Meta H) (c : Cell) : List (Ptr × Meta H) :=
  if c.gone then [] else [(p, { m with ticks := c.ticks })]

theorem At.wellFormed (h : At s p m ds es c r)
    (hbound : ∀ e ∈ ds ++ (p, m) :: es, (s.hw.read e.2.tim).isSome) :
    WellFormed r.s ((ds ++ entry p m c) ++ es) ∧ r.index = (ds ++ entry p m c).length := by
  have hsub :
      ((ds ++ entry p m c) ++ es).Sublist (ds ++ (p, { m with ticks := c.ticks }) :: es) := by
    rw [append_assoc, ← singleton_append]
    refine (List.Sublist.refl ds).append (List.Sublist.append ?_ (List.Sublist.refl es))
    rw [entry]
    split
    · exact nil_sublist _
    · exact List.Sublist.refl _
  have hmap : ((ds ++ entry p m c) ++ es).map Prod.fst =
      ds.map Prod.fst ++ ((if c.gone then [] else [p]) ++ es.map Prod.fst) := by
    rw [entry]
    split <;> simp
  refine ⟨⟨⟨hmap ▸ h.reads, fun e he ↦ h.metas e (hsub.subset he), ?_⟩, h.linked, fun e he ↦ ?_⟩,
    ?_⟩
  · have hnd := h.nodup
    rw [map_append, map_cons] at hnd
    refine (hsub.map Prod.fst).nodup ?_
    rw [map_append, map_cons]
    exact hnd
  · rw [h.hw]
    have he' := hsub.subset he
    simp only [mem_append, mem_cons] at he'
    rcases he' with he' | rfl | he'
    · exact hbound e (by simp [he'])
    · exact hbound (p, m) (by simp)
    · exact hbound e (by simp [he'])
  · rw [h.index, entry]
    split <;> simp

theorem At.expireOneshot (me : UInt32) (reply : Call H → Int32) (feat : UInt32) (d : ℕ)
    (h : At s p m ds es c r) (hc : c.gone = false) :
    ∃ r', expireOneshot me reply feat p d r = some r' ∧ At s p m ds es (c.native feat m d) r' := by
  rw [Scan.expireOneshot, h.read, bind_some, Cell.native]
  split
  · exact (h.doTh d { m with ticks := c.ticks } rfl rfl).dropEntry hc
  · exact ⟨r, rfl, h⟩

theorem At.handlePeriodic (me : UInt32) (reply : Call H → Int32) (feat : UInt32) (d : ℕ)
    (h : At s p m ds es c r) :
    ∃ r', handlePeriodic me reply feat p d r = some r' ∧
      At s p m ds es (c.periodic feat m d) r' := by
  rw [Scan.handlePeriodic, h.read, bind_some, Cell.periodic]
  split
  · simp only [elapse_eq, told_eq]
    split
    · refine ⟨_, rfl, ?_⟩
      exact ((h.write (c.ticks - d)).doTh _ { m with ticks := c.ticks - d } rfl rfl).write
        m.origTicks
    · exact ⟨_, rfl, h.write (c.ticks - d)⟩
  · exact ⟨r, rfl, h⟩

theorem At.emulateOneshot (me : UInt32) (reply : Call H → Int32) (feat : UInt32) (d : ℕ)
    (h : At s p m ds es c r) (hc : ¬ Meets feat featOneshot → c.gone = false) :
    ∃ r', emulateOneshot me reply feat p d r = some r' ∧
      At s p m ds es (c.emulated feat m d) r' := by
  rw [Scan.emulateOneshot, h.read, bind_some, Cell.emulated]
  split
  next hfeat =>
    simp only [elapse_eq, told_eq]
    have hw := h.write (c.ticks - d)
    split
    next hzero =>
      rw [hzero] at hw ⊢
      exact (hw.doTh _ { m with ticks := 0 } rfl rfl).dropEntry (hc hfeat.1.1)
    · exact ⟨_, rfl, hw⟩
  · exact ⟨r, rfl, h⟩

theorem survivor_of_ne (he : e.2.tim ≠ tim) (feat : UInt32) (d : ℕ) :
    survivor tim feat d e = some e ∧ callsFor tim feat d e = [] := by
  simp [survivor, callsFor, cellOf, he, Cell.start]

theorem entry_eq (e : Ptr × Meta H) :
    entry e.1 e.2 (cellOf tim feat d e) = [e].filterMap (survivor tim feat d) := by
  rw [entry, filterMap_cons, survivor]
  split <;> rfl

theorem loop_eq (me : UInt32) (reply : Call H → Int32) (tim : Ptr) (d : ℕ)
    (hr : WellFormed r.s (ds ++ es)) (hindex : r.index = ds.length) {fuel : ℕ}
    (hfuel : es.length < fuel) :
    ∃ r', loop me reply tim d fuel r = some r' ∧
      WellFormed r'.s (ds ++ es.filterMap (survivor tim (r.s.featOf tim) d)) ∧
      r'.s.calls = r.s.calls ++ es.flatMap (callsFor tim (r.s.featOf tim) d) ∧
      r'.s.hw = r.s.hw ∧ r'.s.hwtimerList = r.s.hwtimerList := by
  induction es generalizing r ds fuel with
  | nil =>
    obtain ⟨fuel, rfl⟩ := Nat.exists_eq_add_one_of_ne_zero (Nat.ne_zero_of_lt hfuel)
    refine ⟨r, ?_, by simpa using hr, by simp, rfl, rfl⟩
    rw [loop, hr.reads.2, hindex, getElem?_eq_none (by simp)]
    rfl
  | cons e es ih =>
    obtain ⟨fuel, rfl⟩ := Nat.exists_eq_add_one_of_ne_zero (Nat.ne_zero_of_lt hfuel)
    rw [length_cons, Nat.add_lt_add_iff_right] at hfuel
    have hmem : e ∈ ds ++ e :: es := by simp
    have hread := hr.metas e hmem
    have hat : r.s.timerList.listAt r.index = some (some e.1) := hindex ▸ hr.listAt_middle
    rw [loop, hat, bind_some]
    show ∃ r', (if e.1 = 0 then _ else _) = _ ∧ _
    rw [if_neg (Heap.ne_zero_of_read hread), hread, bind_some]
    by_cases htim : e.2.tim = tim
    · -- The three rules, one after the other.
      obtain ⟨t, ht⟩ := isSome_iff_exists.mp (hr.bound e hmem)
      rw [htim] at ht
      have hfeat : r.s.featOf tim = t.timerFeat := by rw [featOf, ht, elim_some]
      have hstart : At r.s e.1 e.2 ds es (Cell.start e.2) { r with index := r.index + 1 } :=
        ⟨hr.linked, by simpa [Cell.start] using hr.reads, hr.metas, hr.nodup,
          by simp [hindex, Cell.start], by simp [Cell.start], rfl, rfl⟩
      obtain ⟨r1, h1, hr1⟩ := hstart.expireOneshot me reply t.timerFeat d rfl
      obtain ⟨r2, h2, hr2⟩ := hr1.handlePeriodic me reply t.timerFeat d
      obtain ⟨r3, h3, hr3⟩ := hr2.emulateOneshot me reply t.timerFeat d
        fun hno ↦ Cell.periodic_gone.trans (Cell.native_gone rfl hno)
      have hcell : cellOf tim t.timerFeat d e = (Cell.start e.2).ticked t.timerFeat e.2 d := by
        rw [cellOf, if_pos htim]
      have hr3 : At r.s e.1 e.2 ds es (cellOf tim t.timerFeat d e) r3 := hcell ▸ hr3
      obtain ⟨hwf, hindex3⟩ := hr3.wellFormed hr.bound
      have hfeat3 : r3.s.featOf tim = t.timerFeat := by rw [featOf, hr3.hw, ← hfeat, featOf]
      obtain ⟨r', hloop, hwf', hcalls, hhw, hhwl⟩ := ih hwf hindex3 hfuel
      rw [hfeat3] at hwf' hcalls
      refine ⟨r', ?_, ?_, ?_, hhw.trans hr3.hw, hhwl.trans hr3.hwtimerList⟩
      · rw [if_neg (not_not.mpr htim)]
        simp only [ht, bind_eq_bind, bind_some, h1, h2, h3, hloop]
      · rw [hfeat, ← singleton_append, filterMap_append, ← append_assoc]
        rwa [entry_eq] at hwf'
      · rw [hcalls, hr3.calls, hfeat, flatMap_cons, append_assoc, callsFor]
    · have hother := survivor_of_ne htim (r.s.featOf tim) d
      rw [if_pos htim]
      have hr' : WellFormed ({ r with index := r.index + 1 } : Scan H).s ((ds ++ [e]) ++ es) := by
        simpa using hr
      obtain ⟨r', hloop, hwf, hcalls, hframe⟩ := ih hr' (by simp [hindex]) hfuel
      refine ⟨r', hloop, ?_, ?_, hframe⟩
      · simpa [filterMap_cons, hother.1] using hwf
      · simpa [hother.2] using hcalls

end Scan

variable {s : Timers H} {es : List (Ptr × Meta H)}

theorem WellFormed.timerTicked (h : WellFormed s es) (me : UInt32) (reply : Call H → Int32)
    (tim : Ptr) (inTicks : UInt32) :
    ∃ ret s', timerTicked me reply s tim inTicks = some (ret, s') ∧
      WellFormed s' (es.filterMap (survivor tim (s.featOf tim) (convTicks inTicks))) ∧
      s'.calls = s.calls ++ es.flatMap (callsFor tim (s.featOf tim) (convTicks inTicks)) ∧
      s'.hw = s.hw ∧ s'.hwtimerList = s.hwtimerList := by
  have hnil : WellFormed (⟨s, 0, 0⟩ : Scan H).s ([] ++ es) := h
  have hlen : s.timerList.len = es.length := h.reads.1.trans (length_map _)
  obtain ⟨r, hr, hwf, hcalls, hframe⟩ := Scan.loop_eq me reply tim (convTicks inTicks) hnil rfl
    (Nat.lt_succ_self _)
  exact ⟨_, r.s, by rw [Timers.timerTicked, hlen, hr, map_some], hwf, hcalls, hframe⟩

def OneMode (feat : UInt32) : Prop :=
  (Meets feat featPeriodic ∧ ¬ Meets feat featOneshot) ∨
    (Meets feat featOneshot ∧ ¬ Meets feat featPeriodic)

instance (feat : UInt32) : Decidable (OneMode feat) := inferInstanceAs (Decidable (_ ∨ _))

def Expires (tim : Ptr) (d : ℕ) (e : Ptr × Meta H) : Prop := e.2.tim = tim ∧ e.2.ticks - d = 0

instance (tim : Ptr) (d : ℕ) (e : Ptr × Meta H) : Decidable (Expires tim d e) :=
  inferInstanceAs (Decidable (_ ∧ _))

/-- What should become of an entry in `d` nanoseconds: those of other timers stay as they are, the
others lose the time; if nothing is left, a periodic one starts again and a one-shot one is
removed. -/
def elapsed (tim : Ptr) (d : ℕ) (e : Ptr × Meta H) : Option (Ptr × Meta H) :=
  if e.2.tim ≠ tim then some e
  else if ¬ Expires tim d e then some (e.1, { e.2 with ticks := e.2.ticks - d })
  else if Meets e.2.feat featPeriodic then some (e.1, { e.2 with ticks := e.2.origTicks })
  else none

theorem flatMap_ite_singleton {α β : Type} (p : α → Prop) [DecidablePred p] (f : α → β)
    (l : List α) :
    (l.flatMap fun a ↦ if p a then [f a] else []) = (l.filter fun a ↦ p a).map f := by
  induction l with
  | nil => rfl
  | cons a l ih =>
    rw [flatMap_cons, ih]
    by_cases ha : p a <;> simp [ha]

theorem survivor_of_periodic {tim : Ptr} {feat : UInt32} (hper : Meets feat featPeriodic)
    (hone : ¬ Meets feat featOneshot) (d : ℕ) (he : OneMode e.2.feat) :
    survivor tim feat d e = elapsed tim d e ∧
      callsFor tim feat d e =
        if Expires tim d e then [callOf e (max d e.2.origTicks)] else [] := by
  by_cases htim : e.2.tim = tim
  · rcases he with ⟨hp, ho⟩ | ⟨ho, hp⟩
    · by_cases hz : e.2.ticks - d = 0 <;>
        simp [survivor, callsFor, cellOf, elapsed, Expires, Cell.ticked, Cell.native,
          Cell.periodic, Cell.emulated, Cell.start, htim, hper, hone, hp, ho, hz]
    · by_cases hz : e.2.ticks - d = 0 <;>
        simp [survivor, callsFor, cellOf, elapsed, Expires, Cell.ticked, Cell.native,
          Cell.periodic, Cell.emulated, Cell.start, htim, hper, hone, hp, ho, hz]
  · have hother := Scan.survivor_of_ne htim feat d
    simp [hother.1, hother.2, elapsed, Expires, htim]

/-- **A tick of periodic hardware** takes the time off every entry.  The handlers of those with no
time left are called in order; a periodic one starts again, a one-shot one is removed. -/
theorem timerTicked_of_periodic (s : Timers H) (es : List (Ptr × Meta H)) (h : WellFormed s es)
    (hmode : ∀ e ∈ es, OneMode e.2.feat) (tim : Ptr) (t : HwTimer) (ht : s.hw.read tim = some t)
    (hper : Meets t.timerFeat featPeriodic) (hone : ¬ Meets t.timerFeat featOneshot)
    (me : UInt32) (reply : Call H → Int32) (inTicks : UInt32) :
    ∃ ret s', timerTicked me reply s tim inTicks = some (ret, s') ∧
      WellFormed s' (es.filterMap (elapsed tim (convTicks inTicks))) ∧
      s'.calls = s.calls ++ (es.filter fun e ↦ Expires tim (convTicks inTicks) e).map fun e ↦
        callOf e (max (convTicks inTicks) e.2.origTicks) := by
  have hfeat : s.featOf tim = t.timerFeat := by rw [featOf, ht, elim_some]
  obtain ⟨ret, s', hs', hwf, hcalls, -⟩ := h.timerTicked me reply tim inTicks
  rw [hfeat] at hwf hcalls
  refine ⟨ret, s', hs', ?_, ?_⟩
  · rwa [filterMap_congr fun e he ↦ (survivor_of_periodic hper hone _ (hmode e he)).1] at hwf
  · rw [hcalls, flatMap_congr fun e he ↦
      (survivor_of_periodic hper hone _ (hmode e he)).2]
    rw [flatMap_ite_singleton]

def couple : LList Ptr :=
  ⟨2, 0x1000, 0x2000,
    (Heap.empty.set 0x1000 ⟨0x9000, 0x2000, 0⟩).set 0x2000 ⟨0x9010, 0, 0x1000⟩⟩

theorem rep_couple : couple.Rep [0x1000, 0x2000] :=
  ⟨⟨0, rfl, ⟨0x9000, 0x2000, 0⟩, by decide, rfl, rfl, ⟨0x9010, 0, 0x1000⟩, by decide, rfl, rfl⟩,
    rfl, rfl⟩

theorem reads_couple : couple.Reads [0x9000, 0x9010] := by
  have hst : LList.Stored couple.heap [(0x1000, 0x9000), (0x2000, 0x9010)] := by
    intro e he
    simp only [mem_cons, not_mem_nil, or_false] at he
    rcases he with rfl | rfl
    · exact ⟨⟨0x9000, 0x2000, 0⟩, by decide, rfl⟩
    · exact ⟨⟨0x9010, 0, 0x1000⟩, by decide, rfl⟩
  exact (rep_couple.front hst).reads

def desk (feat : UInt32) (m₁ m₂ : Meta ℕ) : Timers ℕ where
  timerList := couple
  metas := (Heap.empty.set 0x9000 m₁).set 0x9010 m₂
  hwtimerList := LList.createList
  hw := Heap.empty.set 0x8000 ⟨resNano, feat, 0, some 0⟩
  calls := []

theorem wellFormed_desk (feat : UInt32) {m₁ m₂ : Meta ℕ} (h1 : m₁.tim = 0x8000)
    (h2 : m₂.tim = 0x8000) : WellFormed (desk feat m₁ m₂) [(0x9000, m₁), (0x9010, m₂)] := by
  refine ⟨⟨reads_couple, ?_, by simp⟩, LList.linked_iff.mpr ⟨_, rep_couple⟩, ?_⟩
  · simp [desk]
  · simp [desk, h1, h2]

def oneshot (th ticks : ℕ) : Meta ℕ := ⟨0x8000, th, ticks, ticks, featOneshot, 0⟩

def periodic (th ticks : ℕ) : Meta ℕ := ⟨0x8000, th, ticks, ticks, featPeriodic, 0⟩

/-- Both handlers are called, and the one-shot one is removed. -/
theorem timerTicked_of_periodic_desk :
    let s := desk featPeriodic (oneshot 1 2000000) (periodic 2 1000000)
    let es := [(0x9000, oneshot 1 2000000), (0x9010, periodic 2 1000000)]
    WellFormed s es ∧ (∀ e ∈ es, OneMode e.2.feat) ∧
      s.hw.read 0x8000 = some ⟨resNano, featPeriodic, 0, some 0⟩ ∧
      ∃ ret s', timerTicked 0 (fun _ ↦ 1) s 0x8000 0x2004 = some (ret, s') ∧
        WellFormed s' [(0x9010, periodic 2 1000000)] ∧
        s'.calls = [⟨0x9000, 1, 2000000, 0⟩, ⟨0x9010, 2, 2000000, 0⟩] := by
  intro s es
  have hwf : WellFormed s es := wellFormed_desk featPeriodic rfl rfl
  have hmode : ∀ e ∈ es, OneMode e.2.feat := by decide
  have hread : s.hw.read 0x8000 = some ⟨resNano, featPeriodic, 0, some 0⟩ := by decide
  refine ⟨hwf, hmode, hread, ?_⟩
  exact timerTicked_of_periodic s es hwf hmode 0x8000 _ hread (by decide) (by decide) 0 (fun _ ↦ 1)
    0x2004

end ForgeOS.Timers
