import Mathlib.Data.List.TakeWhile
import ForgeOS.Timer.Install

/-!
# The order of the handlers

`install_timer` looks for the first entry that has at least as much time as the new one, but has
already advanced its index when it finds it, and `list_insert` adds another position of its own in
the first half of the list.

The main result is `sorted_of_inOrder`.
-/

namespace ForgeOS

open List Option

namespace LList

variable {α : Type} {l : LList α} {es : List (Ptr × α)}

theorem Front.insert_second (hl : Front l es) {a : Ptr} (h0 : a ≠ 0) (ha : l.heap.read a = none)
    (junk : Node α) (x : α) {j : ℕ} (hj : j ≤ es.length)
    (hwhere : es.length ≤ j + 2 ∨ j + 1 ≤ es.length / 2) :
    ∃ l', listInsert l a junk x (j + 1) = some l' ∧
      Front l' (es.take (j + 2) ++ (a, x) :: es.drop (j + 2)) := by
  by_cases hback : es.length ≤ j + 2
  · rw [take_of_length_le hback, drop_of_length_le hback]
    rcases eq_nil_or_concat' es with rfl | ⟨ds, e, rfl⟩
    · obtain ⟨l', hl', hf⟩ := hl.insert h0 ha junk x
      rw [listInsert_empty hl.len h0 ha] at hl'
      exact ⟨l', by rw [listInsert_empty hl.len h0 ha, hl'], hf⟩
    · have hend : ds.length ≤ j + 1 := by
        rw [length_append, length_singleton] at hback
        omega
      obtain ⟨l', hl', hf⟩ := hl.insert_back h0 ha junk x (Nat.succ_ne_zero j) hend
      exact ⟨l', hl', by simpa using hf⟩
  · exact hl.insert_forward h0 ha junk x (Nat.succ_ne_zero j) (by omega) (by omega)

end LList

namespace Timers

open Timer

variable {H : Type} {s : Timers H} {es : List (Ptr × Meta H)}

structure Install (H : Type) where
  me : UInt32
  th : H
  ticks : UInt32
  feat : UInt32
  mem : Fresh H

def install (s : Timers H) (op : Install H) : Option (Timers H) :=
  (installTimer op.me s op.th op.ticks op.feat op.mem).map Prod.snd

def Succeeds (s : Timers H) (op : Install H) : Prop :=
  Spare s op.mem ∧ ((s.select op.me op.ticks op.feat).join).isSome

def ticksList (s : Timers H) : List ℕ :=
  s.timerList.toList.filterMap fun p ↦ (s.metas.read p).map Meta.ticks

/-- The condition on a call.  Of the entries with at least as much time as the new one, the first
two have no more than it; and the new one belongs at the end of the list or into its first half. -/
def InOrder (s : Timers H) (op : Install H) : Prop :=
  let below := s.ticksList.takeWhile (· < convTicks op.ticks)
  (∀ t ∈ (s.ticksList.drop below.length).take 2, t = convTicks op.ticks) ∧
    (s.ticksList.length ≤ below.length + 2 ∨ below.length + 1 ≤ s.ticksList.length / 2)

theorem Lists.ticksList (h : Lists s es) : s.ticksList = es.map fun e ↦ e.2.ticks := by
  rw [Timers.ticksList, h.reads.toList, filterMap_map, ← filterMap_eq_map]
  refine filterMap_congr fun e he ↦ ?_
  show (s.metas.read e.1).map Meta.ticks = _
  rw [h.metas e he]
  rfl

def SortedByTicks (es : List (Ptr × Meta H)) : Prop :=
  es.Pairwise fun e e' ↦ e.2.ticks ≤ e'.2.ticks

theorem lt_of_mem_take (T : ℕ) : ∀ e ∈ es.take (firstNotBelow es T), e.2.ticks < T := by
  intro e he
  have hpre : (es.takeWhile fun e ↦ e.2.ticks < T) <+: es := takeWhile_prefix _
  rw [firstNotBelow, ← prefix_iff_eq_take.mp hpre] at he
  simpa using mem_takeWhile_imp he

theorem SortedByTicks.le_of_mem_drop (hs : SortedByTicks es) (T : ℕ) :
    ∀ e ∈ es.drop (firstNotBelow es T), T ≤ e.2.ticks := by
  induction es with
  | nil =>
    intro e he
    simp at he
  | cons d es ih =>
    obtain ⟨hd, hes⟩ := pairwise_cons.mp hs
    by_cases hlt : d.2.ticks < T
    · have hnext : firstNotBelow (d :: es) T = firstNotBelow es T + 1 := by
        rw [firstNotBelow, takeWhile_cons_of_pos (by simpa using hlt), length_cons,
          firstNotBelow]
      rw [hnext, drop_succ_cons]
      exact ih hes
    · have hzero : firstNotBelow (d :: es) T = 0 := by
        rw [firstNotBelow, takeWhile_cons_of_neg (by simpa using hlt), length_nil]
      rw [hzero, drop_zero]
      intro e he
      rcases mem_cons.mp he with rfl | he
      · exact Nat.not_lt.mp hlt
      · exact (Nat.not_lt.mp hlt).trans (hd e he)

theorem SortedByTicks.insert (hs : SortedByTicks es) (p : Ptr) (m : Meta H)
    (heq : ∀ e ∈ (es.drop (firstNotBelow es m.ticks)).take 2, e.2.ticks = m.ticks) :
    SortedByTicks (es.take (firstNotBelow es m.ticks + 2) ++
      (p, m) :: es.drop (firstNotBelow es m.ticks + 2)) := by
  have hfront : ∀ e ∈ es.take (firstNotBelow es m.ticks + 2), e.2.ticks ≤ m.ticks := by
    intro e he
    rw [take_add, mem_append] at he
    rcases he with he | he
    · exact (lt_of_mem_take _ e he).le
    · exact (heq e he).le
  have hback : ∀ e ∈ es.drop (firstNotBelow es m.ticks + 2), m.ticks ≤ e.2.ticks := by
    intro e he
    rw [← drop_drop] at he
    exact hs.le_of_mem_drop _ e (mem_of_mem_drop he)
  have hcut : (es.take (firstNotBelow es m.ticks + 2) ++
      es.drop (firstNotBelow es m.ticks + 2)).Pairwise fun e e' ↦ e.2.ticks ≤ e'.2.ticks := by
    rwa [take_append_drop]
  obtain ⟨htake, hdrop, -⟩ := pairwise_append.mp hcut
  refine pairwise_append.mpr ⟨htake, pairwise_cons.mpr ⟨hback, hdrop⟩, ?_⟩
  intro e he e' he'
  rcases mem_cons.mp he' with rfl | he'
  · exact hfront e he
  · exact (hfront e he).trans (hback e' he')

def keyOf (e : Ptr × Meta H) : Ptr × H × ℕ × UInt32 := (e.1, e.2.th, e.2.ticks, e.2.feat)

def Install.key (op : Install H) : Ptr × H × ℕ × UInt32 :=
  (op.mem.p, op.th, convTicks op.ticks, op.feat)

def Ordered (s : Timers H) (ks : List (Ptr × H × ℕ × UInt32)) : Prop :=
  ∃ es fs, Lists s es ∧ s.timerList.Front fs ∧ fs.map Prod.snd = es.map Prod.fst ∧
    SortedByTicks es ∧ (es.map keyOf).Perm ks

theorem Ordered.install {ks : List (Ptr × H × ℕ × UInt32)} (h : Ordered s ks) {op : Install H}
    (hop : Succeeds s op ∧ InOrder s op) :
    ∃ s', install s op = some s' ∧ Ordered s' (op.key :: ks) := by
  obtain ⟨es, fs, hl, hfront, hmap, hsorted, hperm⟩ := h
  obtain ⟨⟨hmem, hsome⟩, hsame, hwhere⟩ := hop
  obtain ⟨tim, htim⟩ := isSome_iff_exists.mp hsome
  have hsel : s.select op.me op.ticks op.feat = some (some tim) := join_eq_some_iff.mp htim
  have hinst := hl.installTimer_some op.th hmem hsel
  obtain ⟨⟨hp0, hp⟩, hn0, hn⟩ := hmem
  have hlen : fs.length = es.length := by
    have := congrArg length hmap
    simpa using this
  have hbelow : (s.ticksList.takeWhile (· < convTicks op.ticks)).length =
      firstNotBelow es (convTicks op.ticks) := by
    rw [hl.ticksList, takeWhile_map, length_map, firstNotBelow]
    rfl
  rw [hbelow, hl.ticksList] at hsame hwhere
  rw [length_map] at hwhere
  have hj : firstNotBelow es (convTicks op.ticks) ≤ fs.length :=
    hlen ▸ ( takeWhile_prefix _).length_le
  obtain ⟨l, hins, hfront'⟩ := hfront.insert_second hn0 hn op.mem.nodeJunk op.mem.p hj
    (hlen ▸ hwhere)
  have hnew : op.mem.p ∉ es.map Prod.fst := by
    intro hin
    obtain ⟨e, he, heq⟩ := mem_map.mp hin
    rw [← heq, hl.metas e he] at hp
    cases hp
  rw [hins, map_some] at hinst
  let m := newMeta op.me op.th op.ticks op.feat tim
  let j := firstNotBelow es (convTicks op.ticks)
  have hentries : (es.take (j + 2) ++ (op.mem.p, m) :: es.drop (j + 2)).Perm
      ((op.mem.p, m) :: es) := by
    refine perm_middle.trans ?_
    rw [take_append_drop]
  have hmap' : (fs.take (j + 2) ++ (op.mem.node, op.mem.p) :: fs.drop (j + 2)).map Prod.snd =
      (es.take (j + 2) ++ (op.mem.p, m) :: es.drop (j + 2)).map Prod.fst := by
    simp only [map_append, map_cons, map_take, map_drop, hmap]
  refine ⟨{ s with timerList := l, metas := s.metas.set op.mem.p m },
    by rw [Timers.install, hinst, map_some],
    es.take (j + 2) ++ (op.mem.p, m) :: es.drop (j + 2), _, ⟨hmap' ▸ hfront'.reads, ?_, ?_⟩,
    hfront', hmap', hsorted.insert op.mem.p m ?_, ?_⟩
  · intro e he
    rcases mem_cons.mp (hentries.mem_iff.mp he) with rfl | he
    · exact Heap.read_set_self hp0
    · exact (hl.setMeta hp m).metas e he
  · rw [(hentries.map Prod.fst).nodup_iff]
    exact nodup_cons.mpr ⟨hnew, hl.nodup⟩
  · intro e he
    refine hsame _ ?_
    rw [← map_drop, ← map_take]
    exact mem_map_of_mem he
  · exact (hentries.map keyOf).trans (hperm.cons _)

/-- **When the list of handlers stays sorted** by the time that is left, with every handler once. -/
theorem sorted_of_inOrder (s : Timers H) (hs : s.timerList = LList.createList)
    (ops : List (Install H))
    (hops : Run.Guarded install (fun s op ↦ Succeeds s op ∧ InOrder s op) s ops) :
    ∃ s' es, Run.exec install s ops = some s' ∧ Lists s' es ∧ SortedByTicks es ∧
      (es.map keyOf).Perm (ops.map Install.key) := by
  have hempty : Ordered s [] := by
    refine ⟨[], [], ⟨?_, by simp, nodup_nil⟩, hs ▸ LList.front_createList, rfl,
      List.Pairwise.nil, List.Perm.refl _⟩
    rw [hs]
    exact LList.front_createList.reads
  have hstep : ∀ (s : Timers H) op ks, Ordered s ks → Succeeds s op ∧ InOrder s op →
      ∃ s', install s op = some s' ∧ Ordered s' ((fun ks op ↦ op.key :: ks) ks op) :=
    fun s op ks h hop ↦ h.install hop
  obtain ⟨s', hs', es, -, hl, -, -, hsorted, hperm⟩ := Run.foldl_of_guarded hstep hempty hops
  refine ⟨s', es, hs', hl, hsorted, hperm.trans ?_⟩
  simp

instance (s : Timers H) (mem : Fresh H) : Decidable (Spare s mem) :=
  inferInstanceAs (Decidable ((mem.p ≠ 0 ∧ s.metas.read mem.p = none) ∧
    mem.node ≠ 0 ∧ s.timerList.heap.read mem.node = none))

instance (s : Timers H) (op : Install H) : Decidable (Succeeds s op) :=
  inferInstanceAs (Decidable (_ ∧ _))

instance (s : Timers H) (op : Install H) : Decidable (InOrder s op) :=
  inferInstanceAs (Decidable (_ ∧ _))

def periodicAt (n : UInt32) (ticks : UInt32) : Install ℕ :=
  ⟨0, n.toNat, ticks, featPeriodic,
    ⟨0xA000 + n * 0x100, ⟨0, 0, 0, 0, 0, 0⟩, 0x3000 + n * 0x100, ⟨0x5000, 0x5000, 0x5000⟩⟩⟩

def rising : List (Install ℕ) :=
  [periodicAt 1 0x5004, periodicAt 2 0xA004, periodicAt 3 0xA004, periodicAt 4 0xA004,
    periodicAt 5 0xA004]

theorem sorted_of_inOrder_rising :
    Run.Guarded install (fun s op ↦ Succeeds s op ∧ InOrder s op) shelf rising ∧
      ∃ s' es, Run.exec install shelf rising = some s' ∧ Lists s' es ∧ SortedByTicks es ∧
        (es.map keyOf).Perm (rising.map Install.key) := by
  have hg : Run.Guarded install (fun s op ↦ Succeeds s op ∧ InOrder s op) shelf rising := by decide
  exact ⟨hg, sorted_of_inOrder shelf rfl rising hg⟩

def falling : List (Install ℕ) := [periodicAt 1 0xA004, periodicAt 2 0x5004]

/-- **The handler that fires first stands last.** -/
theorem not_sorted_falling :
    Run.Guarded install Succeeds shelf falling ∧
      (Run.exec install shelf falling).map ticksList = some [10000000, 5000000] ∧
      ¬ ∃ s' es, Run.exec install shelf falling = some s' ∧ Lists s' es ∧ SortedByTicks es ∧
        (es.map keyOf).Perm (falling.map Install.key) := by
  have hticks : (Run.exec install shelf falling).map ticksList = some [10000000, 5000000] := by
    decide
  refine ⟨by decide, hticks, ?_⟩
  rintro ⟨s', es, hs', hl, hsorted, -⟩
  rw [hs', map_some, hl.ticksList] at hticks
  have hpw : (es.map fun e ↦ e.2.ticks).Pairwise (· ≤ ·) := pairwise_map.mpr hsorted
  rw [some.inj hticks] at hpw
  exact absurd hpw (by decide)

end Timers
end ForgeOS
