import ForgeOS.Lib.Bits
import ForgeOS.Timer.Ticked

/-!
# Installing a handler

Both passes of `install_timer` look for *any* common bit of the features of a timer and those of the
request.  Some bits say how a timer can be used and not how it can fire.

The main result is `installLaw_iff`.
-/

namespace ForgeOS.Timers

open Timer List Option Heap

variable {H : Type} {s : Timers H} {es : List (Ptr × Meta H)} {hs : List (Ptr × HwTimer)}

structure Registered (s : Timers H) (hs : List (Ptr × HwTimer)) : Prop where
  reads : s.hwtimerList.Reads (hs.map Prod.fst)
  read : ∀ e ∈ hs, s.hw.read e.1 = some e.2

theorem Registered.pick (h : Registered s hs) (test : HwTimer → Prop) [DecidablePred test] :
    s.pick test s.hwtimerList.len 0 = some ((hs.find? fun e ↦ test e.2).map Prod.fst) := by
  have hsuffix : ∀ ds fs, hs = ds ++ fs →
      s.pick test fs.length ds.length = some ((fs.find? fun e ↦ test e.2).map Prod.fst) := by
    intro ds fs hcut
    induction fs generalizing ds with
    | nil => rfl
    | cons e fs ih =>
      have hat : s.hwtimerList.listAt ds.length = some (some e.1) := by
        rw [h.reads.2, hcut, getElem?_map, getElem?_append_right le_rfl, Nat.sub_self]
        rfl
      have hread := h.read e (by simp [hcut])
      have hrest := ih (ds ++ [e]) (by simp [hcut])
      rw [length_append, length_singleton] at hrest
      rw [length_cons, Timers.pick, hat, join_some, bind_eq_bind,
        bind_some, hread, bind_eq_bind, bind_some]
      by_cases ht : test e.2
      · rw [if_pos ht, find?_cons_of_pos (by simpa using ht), map_some]
      · rw [if_neg ht, hrest, find?_cons_of_neg (by simpa using ht)]
  rw [h.reads.1, length_map]
  exact hsuffix [] hs rfl

def chosen (me ticks feat : UInt32) (hs : List (Ptr × HwTimer)) : Option (Ptr × HwTimer) :=
  (hs.find? fun e ↦ Exact me ticks feat e.2).or (hs.find? fun e ↦ Acceptable me feat e.2)

theorem Registered.select (h : Registered s hs) (me ticks feat : UInt32) :
    s.select me ticks feat = some ((chosen me ticks feat hs).map Prod.fst) := by
  rw [Timers.select, h.pick, bind_eq_bind, bind_some, chosen]
  cases hs.find? fun e ↦ Exact me ticks feat e.2 with
  | none => exact h.pick _
  | some e => rfl

theorem pick_metas (s : Timers H) (metas : Heap Ptr (Meta H)) (test : HwTimer → Prop)
    [DecidablePred test] (k i : ℕ) : pick { s with metas } test k i = s.pick test k i := by
  induction k generalizing i with
  | zero => rfl
  | succ k ih =>
    rw [Timers.pick, Timers.pick]
    simp only [ih]

theorem select_metas (s : Timers H) (metas : Heap Ptr (Meta H)) (me ticks feat : UInt32) :
    select { s with metas } me ticks feat = s.select me ticks feat := by
  rw [Timers.select, Timers.select]
  simp only [pick_metas]

def Spare (s : Timers H) (mem : Fresh H) : Prop :=
  (mem.p ≠ 0 ∧ s.metas.read mem.p = none) ∧ mem.node ≠ 0 ∧ s.timerList.heap.read mem.node = none

/-- The position of the first entry that has at least so much time. -/
def firstNotBelow (es : List (Ptr × Meta H)) (ticks : ℕ) : ℕ :=
  (es.takeWhile fun e ↦ e.2.ticks < ticks).length

theorem Lists.place (h : Lists s es) (ticks : ℕ) :
    s.place ticks (s.timerList.len + 1) 0 = some (firstNotBelow es ticks + 1) := by
  have hsuffix : ∀ ds fs fuel, es = ds ++ fs → fs.length < fuel →
      s.place ticks fuel ds.length = some (ds.length + firstNotBelow fs ticks + 1) := by
    intro ds fs fuel hcut hfuel
    induction fs generalizing ds fuel with
    | nil =>
      obtain ⟨fuel, rfl⟩ := Nat.exists_eq_add_one_of_ne_zero (Nat.ne_zero_of_lt hfuel)
      have hat : s.timerList.listAt ds.length = some none := by
        rw [h.reads.2, hcut, getElem?_eq_none (by simp)]
      rw [Timers.place, hat, bind_some]
      rfl
    | cons e fs ih =>
      obtain ⟨fuel, rfl⟩ := Nat.exists_eq_add_one_of_ne_zero (Nat.ne_zero_of_lt hfuel)
      have hat : s.timerList.listAt ds.length = some (some e.1) := (hcut ▸ h).listAt_middle
      have hread := h.metas e (by simp [hcut])
      have hrest := ih (ds ++ [e]) fuel (by simp [hcut]) (by simpa using hfuel)
      rw [length_append, length_singleton] at hrest
      rw [Timers.place, hat, bind_some]
      show (if e.1 = 0 then _ else _) = _
      rw [if_neg (ne_zero_of_read hread), hread, bind_some, firstNotBelow]
      by_cases ht : ticks ≤ e.2.ticks
      · rw [if_pos ht, takeWhile_cons_of_neg (by simpa using ht)]
        rfl
      · rw [if_neg ht, hrest, takeWhile_cons_of_pos (by simpa using ht), length_cons,
          firstNotBelow]
        congr 1
        omega
  have hlen : s.timerList.len = es.length := h.reads.1.trans (length_map _)
  have hall := hsuffix [] es (s.timerList.len + 1) rfl (by omega)
  rwa [length_nil, Nat.zero_add] at hall

def newMeta (me : UInt32) (th : H) (ticks feat : UInt32) (tim : Ptr) : Meta H :=
  ⟨tim, th, convTicks ticks, convTicks ticks, feat, me⟩

theorem Lists.setMeta (h : Lists s es) {p : Ptr} (hp : s.metas.read p = none) (m : Meta H) :
    Lists { s with metas := s.metas.set p m } es where
  reads := h.reads
  metas e he := by
    have hread := h.metas e he
    have hne : e.1 ≠ p := by
      rintro rfl
      rw [hp] at hread
      cases hread
    exact (read_set_of_ne hne).trans hread
  nodup := h.nodup

variable {mem : Fresh H}

theorem installTimer_none {me ticks feat : UInt32} (th : H) (hmem : Spare s mem)
    (hnone : s.select me ticks feat = some none) :
    installTimer me s th ticks feat mem = some (-1, { s with
      metas := (s.metas.set mem.p { mem.junk with tim := 0 }).erase mem.p }) := by
  obtain ⟨⟨hp0, hp⟩, -, -⟩ := hmem
  rw [Timers.installTimer, alloc_eq hp0 hp]
  simp only [bind_eq_bind, bind_some, select_metas, hnone]
  rw [free_eq (read_set_self hp0), bind_some]

theorem Lists.installTimer_some (h : Lists s es) {me ticks feat : UInt32} (th : H)
    (hmem : Spare s mem) {tim : Ptr} (hsome : s.select me ticks feat = some (some tim)) :
    installTimer me s th ticks feat mem =
      (s.timerList.listInsert mem.node mem.nodeJunk mem.p
        (firstNotBelow es (convTicks ticks) + 1)).map fun l ↦
          (0, { s with
            timerList := l, metas := s.metas.set mem.p (newMeta me th ticks feat tim) }) := by
  obtain ⟨⟨hp0, hp⟩, -, -⟩ := hmem
  rw [Timers.installTimer, alloc_eq hp0 hp]
  simp only [bind_eq_bind, bind_some, select_metas, hsome]
  have hplace := (h.setMeta hp (newMeta me th ticks feat tim)).place (convTicks ticks)
  simp only [Heap.set_set]
  rw [newMeta] at hplace
  rw [hplace, bind_some, newMeta]
  cases s.timerList.listInsert mem.node mem.nodeJunk mem.p _ <;> rfl

/-- The timer can fire for the request: both are periodic, or a one-shot request meets a timer that
can do one-shot timers or emulate them. -/
def Serves (hw feat : UInt32) : Prop :=
  (Meets hw featPeriodic ∧ Meets feat featPeriodic) ∨
    (Meets feat featOneshot ∧ (Meets hw featOneshot ∨ Meets hw featPeriodic))

instance (hw feat : UInt32) : Decidable (Serves hw feat) := inferInstanceAs (Decidable (_ ∨ _))

/-- **A handler can be called exactly if its timer can fire for it.** -/
theorem called_iff_serves (p : Ptr) (m : Meta H) (feat : UInt32) :
    (∃ t d, (cellOf m.tim feat d (p, { m with ticks := t })).told ≠ []) ↔ Serves feat m.feat := by
  constructor
  · rintro ⟨t, d, htold⟩
    by_contra hno
    obtain ⟨hper, hone⟩ := not_or.mp hno
    refine htold ?_
    have hnative : ¬ (Meets feat featOneshot ∧ Meets m.feat featOneshot ∧ t = d) :=
      fun h ↦ hone ⟨h.2.1, .inl h.1⟩
    have hemu : ¬ ((¬ Meets feat featOneshot ∧ Meets feat featPeriodic) ∧
        Meets m.feat featOneshot) := fun h ↦ hone ⟨h.2, .inr h.1.2⟩
    simp [cellOf, Cell.ticked, Cell.native, Cell.periodic, Cell.emulated, Cell.start, hper,
      hnative, hemu]
  · intro hserves
    refine ⟨0, 0, ?_⟩
    by_cases hp : Meets feat featPeriodic ∧ Meets m.feat featPeriodic
    · by_cases ho : Meets feat featOneshot <;> by_cases hm : Meets m.feat featOneshot <;>
        by_cases hz : m.origTicks = 0 <;>
        simp [cellOf, Cell.ticked, Cell.native, Cell.periodic, Cell.emulated, Cell.start, hp, ho,
          hm, hz]
    · obtain ⟨hm, hhw⟩ := hserves.resolve_left hp
      by_cases ho : Meets feat featOneshot
      · simp [cellOf, Cell.ticked, Cell.native, Cell.periodic, Cell.emulated, Cell.start, hp, ho,
          hm]
      · have hper := hhw.resolve_left ho
        have hmp : ¬ Meets m.feat featPeriodic := fun h ↦ hp ⟨hper, h⟩
        simp [cellOf, Cell.ticked, Cell.native, Cell.periodic, Cell.emulated, Cell.start, ho, hm,
          hper, hmp]

/-- The timer can be used on this processor, and can fire for the request. -/
def Qualifies (me feat : UInt32) (ent : HwTimer) : Prop :=
  ¬ Foreign me ent ∧ Serves ent.timerFeat feat

instance (me feat : UInt32) (ent : HwTimer) : Decidable (Qualifies me feat ent) :=
  inferInstanceAs (Decidable (_ ∧ _))

/-- The timer can be used on this processor and has something in common with the request, but
cannot fire for it. -/
def Decoy (me feat : UInt32) (ent : HwTimer) : Prop :=
  ¬ Foreign me ent ∧ Meets ent.timerFeat feat ∧ ¬ Serves ent.timerFeat feat

variable {me ticks feat : UInt32} {ent : HwTimer}

theorem Qualifies.acceptable (h : Qualifies me feat ent) : Acceptable me feat ent := by
  refine ⟨h.1, ?_⟩
  rcases h.2 with ⟨hp, hfeat⟩ | ⟨hfeat, ho | hp⟩
  · exact .inl (Bits.and_ne_zero (i := 1) (by decide) hp hfeat)
  · exact .inl (Bits.and_ne_zero (i := 0) (by decide) ho hfeat)
  · exact .inr ⟨hfeat, hp⟩

theorem Exact.acceptable (h : Exact me ticks feat ent) : Acceptable me feat ent :=
  ⟨h.1, .inl h.2.2.1⟩

theorem Acceptable.not_decoy_iff (h : Acceptable me feat ent) :
    ¬ Decoy me feat ent ↔ Qualifies me feat ent := by
  constructor
  · intro hno
    refine ⟨h.1, ?_⟩
    rcases h.2 with hmeets | ⟨hfeat, hp⟩
    · by_contra hserves
      exact hno ⟨h.1, hmeets, hserves⟩
    · exact .inr ⟨hfeat, .inr hp⟩
  · exact fun hq hdecoy ↦ hdecoy.2.2 hq.2

def First (test : HwTimer → Prop) (hs : List (Ptr × HwTimer)) (e : Ptr × HwTimer) : Prop :=
  ∃ ds fs, hs = ds ++ e :: fs ∧ test e.2 ∧ ∀ d ∈ ds, ¬ test d.2

variable {e : Ptr × HwTimer}

theorem first_iff {test : HwTimer → Prop} [DecidablePred test] :
    First test hs e ↔ (hs.find? fun e ↦ test e.2) = some e := by
  rw [find?_eq_some_iff_append, First]
  constructor
  · rintro ⟨ds, fs, hcut, ht, hds⟩
    exact ⟨decide_eq_true ht, ds, fs, hcut, fun d hd ↦ by simpa using hds d hd⟩
  · rintro ⟨ht, ds, fs, hcut, hds⟩
    exact ⟨ds, fs, hcut, of_decide_eq_true ht, fun d hd ↦ by simpa using hds d hd⟩

/-- No decoy comes first in the pass that decides. -/
def NoDecoyFirst (me ticks feat : UInt32) (hs : List (Ptr × HwTimer)) : Prop :=
  (∀ e, First (Exact me ticks feat) hs e → ¬ Decoy me feat e.2) ∧
    ((∀ e ∈ hs, ¬ Exact me ticks feat e.2) →
      ∀ e, First (Acceptable me feat) hs e → ¬ Decoy me feat e.2)

theorem noDecoyFirst_iff :
    NoDecoyFirst me ticks feat hs ↔
      ∀ e, chosen me ticks feat hs = some e → Qualifies me feat e.2 := by
  have hexact : (∀ e ∈ hs, ¬ Exact me ticks feat e.2) ↔
      (hs.find? fun e ↦ Exact me ticks feat e.2) = none := by
    simp [find?_eq_none]
  rw [NoDecoyFirst, hexact, chosen]
  simp only [first_iff]
  cases hx : hs.find? fun e ↦ Exact me ticks feat e.2 with
  | none =>
    simp only [none_or, reduceCtorEq, IsEmpty.forall_iff, implies_true, true_and,
      forall_const]
    refine forall_congr' fun e ↦ imp_congr_right fun he ↦ ?_
    have hacc : Acceptable me feat e.2 := by simpa using find?_some he
    exact hacc.not_decoy_iff
  | some e =>
    have hacc : Exact me ticks feat e.2 := by simpa using find?_some hx
    simpa using hacc.acceptable.not_decoy_iff

/-- **What `install_timer` promises.**  It returns 0 when it has bound the handler to a timer that
qualifies and put it on the list, and −1 exactly when there is none, and then the list is as it
was. -/
def InstallLaw (me : UInt32) (s : Timers H) (hs : List (Ptr × HwTimer)) (th : H)
    (ticks feat : UInt32) (mem : Fresh H) : Prop :=
  ∃ rc s', installTimer me s th ticks feat mem = some (rc, s') ∧ (rc = 0 ∨ rc = -1) ∧
    (rc = 0 → OnList s' mem.p ∧ ∃ e ∈ hs, Qualifies me feat e.2 ∧
      s'.metas.read mem.p = some (newMeta me th ticks feat e.1)) ∧
    (rc = -1 ↔ ∀ e ∈ hs, ¬ Qualifies me feat e.2) ∧
    (rc = -1 → s'.timerList = s.timerList ∧ ∀ q, q ≠ mem.p → s'.metas.read q = s.metas.read q)

theorem landing_le (n index : ℕ) : LList.landing n index ≤ n := by
  rw [LList.landing]
  split
  · omega
  · split
    · omega
    · split <;> omega

theorem not_qualifies_of_chosen (hc : chosen me ticks feat hs = none) :
    ∀ e ∈ hs, ¬ Qualifies me feat e.2 := by
  rw [chosen, or_eq_none_iff, find?_eq_none, find?_eq_none] at hc
  intro e he hq
  exact hc.2 e he (decide_eq_true hq.acceptable)

theorem mem_of_chosen (hc : chosen me ticks feat hs = some e) : e ∈ hs := by
  rw [chosen, or_eq_some_iff] at hc
  rcases hc with hc | ⟨-, hc⟩
  · exact mem_of_find?_eq_some hc
  · exact mem_of_find?_eq_some hc

theorem installLaw_iff_chosen (hl : WellFormed s es) (hreg : Registered s hs) (th : H)
    (hmem : Spare s mem) :
    InstallLaw me s hs th ticks feat mem ↔
      ∀ e, chosen me ticks feat hs = some e → Qualifies me feat e.2 := by
  have hsel := hreg.select me ticks feat
  cases hc : chosen me ticks feat hs with
  | none =>
    rw [hc, map_none] at hsel
    rw [InstallLaw, installTimer_none th hmem hsel]
    simp only [reduceCtorEq, IsEmpty.forall_iff, implies_true, iff_true]
    refine ⟨-1, _, rfl, .inr rfl, fun h0 ↦ absurd h0 (by decide),
      ⟨fun _ ↦ not_qualifies_of_chosen hc, fun _ ↦ rfl⟩, fun _ ↦ ⟨rfl, fun q hq ↦ ?_⟩⟩
    show ((s.metas.set mem.p _).erase mem.p).read q = _
    rw [read_erase_of_ne hq, read_set_of_ne hq]
  | some e =>
    rw [hc, map_some] at hsel
    rw [InstallLaw, hl.installTimer_some th hmem hsel]
    obtain ⟨⟨hp0, -⟩, hn0, hn⟩ := hmem
    obtain ⟨l, hins, hreads⟩ := hl.linked.listInsert hl.reads hn0 hn mem.nodeJunk mem.p
      (firstNotBelow es (convTicks ticks) + 1)
    have hmem := mem_of_chosen hc
    have hnew : ∀ m, (s.metas.set mem.p m).read mem.p = some m := fun m ↦ read_set_self hp0
    simp only [map_some, hins, some_inj, forall_eq']
    constructor
    · rintro ⟨rc, s', heq, -, hzero, -, -⟩
      obtain ⟨rfl, rfl⟩ := Prod.mk.inj heq
      obtain ⟨-, e', he', hq, hread⟩ := hzero rfl
      have htim : e.1 = e'.1 := congrArg Meta.tim (some.inj ((hnew _).symm.trans hread))
      have hent : e.2 = e'.2 := by
        have hr := hreg.read e hmem
        rw [htim, hreg.read e' he'] at hr
        exact (some.inj hr).symm
      rwa [hent]
    · intro hq
      refine ⟨0, _, rfl, .inl rfl, fun _ ↦ ⟨?_, e, hmem, hq, hnew _⟩,
        ⟨fun h1 ↦ absurd h1 (by decide), fun hno ↦ absurd hq (hno e hmem)⟩,
        fun h1 ↦ absurd h1 (by decide)⟩
      have hin : mem.p ∈ (es.map Prod.fst).insertIdx
          (LList.landing (es.map Prod.fst).length (firstNotBelow es (convTicks ticks) + 1))
          mem.p := (mem_insertIdx (landing_le _ _)).mpr (.inl rfl)
      obtain ⟨i, hi⟩ := mem_iff_getElem?.mp hin
      exact ⟨i, by rw [hreads.2, hi]⟩

/-- **When `install_timer` keeps its promise**: no decoy comes first in the pass that decides. -/
theorem installLaw_iff (s : Timers H) (es : List (Ptr × Meta H)) (hl : WellFormed s es)
    (hs : List (Ptr × HwTimer)) (hreg : Registered s hs) (me : UInt32) (th : H)
    (ticks feat : UInt32) (mem : Fresh H) (hmem : Spare s mem) :
    InstallLaw me s hs th ticks feat mem ↔ NoDecoyFirst me ticks feat hs :=
  (installLaw_iff_chosen hl hreg th hmem).trans noDecoyFirst_iff.symm

def shelf : Timers ℕ where
  timerList := LList.createList
  metas := empty
  hwtimerList := couple
  hw := (empty.set 0x9000 ⟨resNano, 0x11, 0, some 0⟩).set 0x9010 ⟨resMilli, 0x2, 0, some 0⟩
  calls := []

def shelved : List (Ptr × HwTimer) :=
  [(0x9000, ⟨resNano, 0x11, 0, some 0⟩), (0x9010, ⟨resMilli, 0x2, 0, some 0⟩)]

theorem wellFormed_shelf : WellFormed shelf [] :=
  ⟨⟨⟨rfl, fun _ ↦ rfl⟩, by simp, nodup_nil⟩, LList.linked_createList, by simp⟩

theorem registered_shelf : Registered shelf shelved :=
  ⟨reads_couple, by simp [shelved, shelf]⟩

def slot : Fresh ℕ := ⟨0xA000, ⟨0, 0, 0, 0, 0, 0⟩, 0x3000, ⟨0, 0, 0⟩⟩

theorem spare_slot : Spare shelf slot := ⟨⟨by decide, rfl⟩, by decide, rfl⟩

theorem installLaw_shelf :
    WellFormed shelf [] ∧ Registered shelf shelved ∧ Spare shelf slot ∧
      NoDecoyFirst 0 0xA004 featPeriodic shelved ∧
      InstallLaw 0 shelf shelved 7 0xA004 featPeriodic slot := by
  have hno : NoDecoyFirst 0 0xA004 featPeriodic shelved := by
    refine noDecoyFirst_iff.mpr fun e he ↦ ?_
    obtain rfl : (0x9010, ⟨resMilli, 0x2, 0, some 0⟩) = e := some.inj he
    decide
  exact ⟨wellFormed_shelf, registered_shelf, spare_slot, hno,
    (installLaw_iff shelf [] wellFormed_shelf shelved registered_shelf 0 7 0xA004 featPeriodic slot
      spare_slot).mpr hno⟩

/-- **A handler that will never be called.**  The first timer has `PERCPU` in common with the
request, but is not periodic. -/
theorem not_installLaw_shelf :
    WellFormed shelf [] ∧ Registered shelf shelved ∧ Spare shelf slot ∧
      ¬ InstallLaw 0 shelf shelved 7 0xA004 (featPeriodic ||| featPercpu) slot := by
  refine ⟨wellFormed_shelf, registered_shelf, spare_slot, fun hlaw ↦ ?_⟩
  have hq := (installLaw_iff_chosen wellFormed_shelf registered_shelf 7 spare_slot).mp hlaw
  exact absurd (hq (0x9000, ⟨resNano, 0x11, 0, some 0⟩) rfl) (by decide)

end ForgeOS.Timers
