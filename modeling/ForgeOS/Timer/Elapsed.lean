import ForgeOS.Lib.Deadline
import ForgeOS.Timer.Ticked

/-!
# A handler over many ticks

This file follows one entry of the list through calls of `timer_ticked`, for its own timer and for
others (`Tracks`).

The main results are `oneshotLaw_iff` and `accounts_iff`.
-/

namespace ForgeOS.Timers

open Timer Deadline Function List Option

variable {H : Type}

structure Tick where
  me : UInt32
  tim : Ptr
  inTicks : UInt32

def tick (reply : Call H → Int32) (s : Timers H) (k : Tick) : Option (Timers H) :=
  (timerTicked k.me reply s k.tim k.inTicks).map Prod.snd

def ticksOn (tim : Ptr) (ks : List Tick) : List ℕ :=
  ks.filterMap fun k ↦ if k.tim = tim then some (convTicks k.inTicks) else none

def toldTo (s : Timers H) (p : Ptr) : List ℕ :=
  (s.calls.filter fun c ↦ c.entry = p).map Call.ticks

def Tracks (s : Timers H) (p : Ptr) (o : Option (Meta H)) : Prop :=
  ∃ es, WellFormed s es ∧ ∀ m, (p, m) ∈ es ↔ o = some m

variable {s : Timers H} {es : List (Ptr × Meta H)} {p : Ptr} {m : Meta H} {o : Option (Meta H)}
  {reply : Call H → Int32}

theorem WellFormed.tracks (h : WellFormed s es) (hm : (p, m) ∈ es) : Tracks s p (some m) := by
  refine ⟨es, h, fun n ↦ ⟨fun hn ↦ ?_, fun hn ↦ some.inj hn ▸ hm⟩⟩
  exact (h.metas _ hm).symm.trans (h.metas _ hn)

theorem Tracks.onList_iff (h : Tracks s p o) : OnList s p ↔ o.isSome := by
  obtain ⟨es, hwf, hes⟩ := h
  rw [hwf.onList_iff, List.mem_map, Option.isSome_iff_exists]
  constructor
  · rintro ⟨e, he, rfl⟩
    exact ⟨e.2, (hes e.2).mp he⟩
  · rintro ⟨m, hm⟩
    exact ⟨(p, m), (hes m).mpr hm, rfl⟩

variable {tim : Ptr} {feat : UInt32} {d : ℕ}

theorem survivor_fst {e e' : Ptr × Meta H} (h : survivor tim feat d e = some e') : e'.1 = e.1 := by
  rw [survivor] at h
  split at h
  · cases h
  · rw [← some.inj h]

theorem filter_flatMap_callsFor (hnd : (es.map Prod.fst).Nodup)
    (hes : ∀ m, (p, m) ∈ es ↔ o = some m) :
    (es.flatMap (callsFor tim feat d)).filter (fun c ↦ c.entry = p) =
      o.elim [] fun m ↦ callsFor tim feat d (p, m) := by
  have hown : ∀ m : Meta H, (callsFor tim feat d (p, m)).filter (fun c ↦ c.entry = p) =
      callsFor tim feat d (p, m) := by
    intro m
    refine filter_eq_self.mpr fun c hc ↦ ?_
    obtain ⟨t, -, rfl⟩ := mem_map.mp hc
    exact decide_eq_true rfl
  have hother : ∀ ds : List (Ptr × Meta H), (∀ e ∈ ds, e.1 ≠ p) →
      (ds.flatMap (callsFor tim feat d)).filter (fun c ↦ c.entry = p) = [] := by
    intro ds hds
    rw [filter_eq_nil_iff]
    intro c hc
    obtain ⟨e, he, hce⟩ := mem_flatMap.mp hc
    obtain ⟨t, -, rfl⟩ := mem_map.mp hce
    exact fun hep ↦ hds e he (of_decide_eq_true hep)
  cases o with
  | none =>
    refine hother es fun e he hep ↦ ?_
    subst hep
    exact absurd ((hes e.2).mp he) (by simp)
  | some m =>
    obtain ⟨ds, fs, rfl⟩ := append_of_mem ((hes m).mpr rfl)
    rw [map_append, map_cons, nodup_middle, nodup_cons,
      ← map_append] at hnd
    have hne : ∀ e ∈ ds ++ fs, e.1 ≠ p := fun e he hep ↦
      hnd.1 (mem_map.mpr ⟨e, he, hep⟩)
    rw [flatMap_append, flatMap_cons, filter_append, filter_append, hown,
      hother ds fun e he ↦ hne e (by simp [he]), hother fs fun e he ↦ hne e (by simp [he]),
      nil_append, append_nil, elim_some]

theorem Tracks.tick (h : Tracks s p o) (reply : Call H → Int32) (k : Tick) :
    ∃ s', tick reply s k = some s' ∧ s'.hw = s.hw ∧
      Tracks s' p (o.bind fun m ↦
        (survivor k.tim (s.featOf k.tim) (convTicks k.inTicks) (p, m)).map Prod.snd) ∧
      toldTo s' p = toldTo s p ++ o.elim [] fun m ↦
        (cellOf k.tim (s.featOf k.tim) (convTicks k.inTicks) (p, m)).told := by
  obtain ⟨es, hwf, hes⟩ := h
  obtain ⟨ret, s', hs', hwf', hcalls, hhw, -⟩ := hwf.timerTicked k.me reply k.tim k.inTicks
  refine ⟨s', by rw [Timers.tick, hs', map_some], hhw, ⟨_, hwf', fun m' ↦ ?_⟩, ?_⟩
  · rw [mem_filterMap, bind_eq_some_iff]
    constructor
    · rintro ⟨e, he, hsurv⟩
      obtain rfl : p = e.1 := survivor_fst hsurv
      exact ⟨e.2, (hes e.2).mp he, by rw [hsurv, map_some]⟩
    · rintro ⟨m, hm, hmap⟩
      obtain ⟨e', hsurv, rfl⟩ := map_eq_some_iff.mp hmap
      refine ⟨(p, m), (hes m).mpr hm, ?_⟩
      have hfst : e'.1 = p := survivor_fst hsurv
      rw [hsurv, ← hfst]
  · rw [toldTo, hcalls, filter_append, filter_flatMap_callsFor hwf.nodup hes,
      map_append, toldTo]
    congr 1
    cases o with
    | none => rfl
    | some m => simp [callsFor, callOf, comp_def]

variable {k : Tick}

theorem mem_ticksOn_snoc {ks : List Tick} :
    d ∈ ticksOn tim (ks ++ [k]) ↔ d ∈ ticksOn tim ks ∨ (k.tim = tim ∧ convTicks k.inTicks = d) := by
  simp [ticksOn, filterMap_append]

/-- What a one-shot handler for `T` nanoseconds is promised.  After every initial part of the calls
it is on the list exactly if its time has not been reached, and has been called once if it has and
not at all otherwise. -/
def OneshotLaw (reply : Call H → Int32) (s : Timers H) (p tim : Ptr) (T : ℕ) (ks : List Tick) :
    Prop :=
  ∀ ls, ls <+: ks → ∃ s', Run.exec (tick reply) s ls = some s' ∧
    (OnList s' p ↔ ¬ Reached T (ticksOn tim ls)) ∧
    (toldTo s' p).length = (toldTo s p).length + if Reached T (ticksOn tim ls) then 1 else 0

/-- The entry is bound to a timer that can do one-shot timers, and asks for one. -/
structure NativeOneshot (s : Timers H) (tim : Ptr) (m : Meta H) : Prop where
  tim_eq : m.tim = tim
  hw : Meets (s.featOf tim) featOneshot
  oneshot : Meets m.feat featOneshot
  not_periodic : ¬ Meets m.feat featPeriodic

attribute [local simp] Cell.start Timers.cellOf

theorem NativeOneshot.cellOf (h : NativeOneshot s tim m) (k : Ptr) (d : ℕ) :
    cellOf k (s.featOf k) d (p, m) =
      if k = tim ∧ d = m.ticks then ⟨m.ticks, true, [m.ticks]⟩ else Cell.start m := by
  by_cases hk : k = tim
  · subst hk
    by_cases hd : d = m.ticks
    · simp [h.tim_eq, Cell.ticked, Cell.native, Cell.periodic, Cell.emulated, h.hw, h.oneshot,
        h.not_periodic, hd]
    · simp [h.tim_eq, Cell.ticked, Cell.native, Cell.periodic, Cell.emulated, h.hw, h.oneshot,
        h.not_periodic, hd, Ne.symm hd]
  · have hne : m.tim ≠ k := fun he ↦ hk (he.symm.trans h.tim_eq)
    simp [hne, hk]

theorem NativeOneshot.run (h : NativeOneshot s tim m) (ht : Tracks s p (some m))
    (reply : Call H → Int32) (ks : List Tick) :
    ∃ s', Run.exec (tick reply) s ks = some s' ∧ s'.hw = s.hw ∧
      ((m.ticks ∈ ticksOn tim ks ∧ Tracks s' p none ∧ toldTo s' p = toldTo s p ++ [m.ticks]) ∨
        (m.ticks ∉ ticksOn tim ks ∧ Tracks s' p (some m) ∧ toldTo s' p = toldTo s p)) := by
  induction ks using reverseRecOn with
  | nil => exact ⟨s, rfl, rfl, .inr ⟨by simp [ticksOn], ht, rfl⟩⟩
  | append_singleton ks k ih =>
    obtain ⟨s1, hs1, hhw, hcases⟩ := ih
    have hfeat : s1.featOf k.tim = s.featOf k.tim := by rw [featOf, hhw, featOf]
    rw [mem_ticksOn_snoc]
    rcases hcases with ⟨hmem, ht1, htold⟩ | ⟨hmem, ht1, htold⟩
    · obtain ⟨s', hs', hhw', ht', htold'⟩ := ht1.tick reply k
      refine ⟨s', Run.exec_snoc_eq_some.mpr ⟨s1, hs1, hs'⟩, hhw'.trans hhw,
        .inl ⟨.inl hmem, ht', ?_⟩⟩
      rw [htold', htold, elim_none, append_nil]
    · obtain ⟨s', hs', hhw', ht', htold'⟩ := ht1.tick reply k
      refine ⟨s', Run.exec_snoc_eq_some.mpr ⟨s1, hs1, hs'⟩, hhw'.trans hhw, ?_⟩
      rw [bind_some, survivor, hfeat, h.cellOf] at ht'
      rw [elim_some, hfeat, h.cellOf, htold] at htold'
      by_cases hk : k.tim = tim ∧ convTicks k.inTicks = m.ticks
      · rw [if_pos hk] at ht' htold'
        exact .inl ⟨.inr hk, ht', htold'⟩
      · rw [if_neg hk] at ht' htold'
        exact .inr ⟨not_or.mpr ⟨hmem, hk⟩, ht', htold'.trans (append_nil _)⟩

theorem NativeOneshot.law_iff (h : NativeOneshot s tim m)
    (ht : Tracks s p (some m)) (reply : Call H → Int32) (ks : List Tick) :
    OneshotLaw reply s p tim m.ticks ks ↔
      ∀ ds, ds <+: ticksOn tim ks → (m.ticks ∈ ds ↔ Reached m.ticks ds) := by
  have hone : ∀ ls, (∃ s', Run.exec (tick reply) s ls = some s' ∧
      (OnList s' p ↔ ¬ Reached m.ticks (ticksOn tim ls)) ∧ (toldTo s' p).length =
        (toldTo s p).length + if Reached m.ticks (ticksOn tim ls) then 1 else 0) ↔
      (m.ticks ∈ ticksOn tim ls ↔ Reached m.ticks (ticksOn tim ls)) := by
    intro ls
    obtain ⟨s', hs', -, hcases⟩ := h.run ht reply ls
    simp only [hs', some_inj, exists_eq_left']
    rcases hcases with ⟨hmem, ht', htold⟩ | ⟨hmem, ht', htold⟩
    · rw [ht'.onList_iff, htold]
      by_cases hr : Reached m.ticks (ticksOn tim ls) <;> simp [hmem, hr]
    · rw [ht'.onList_iff, htold]
      by_cases hr : Reached m.ticks (ticksOn tim ls) <;> simp [hmem, hr]
  constructor
  · intro hlaw ds hds
    obtain ⟨ls, hls, rfl⟩ := prefix_filterMap_iff.mp hds
    exact (hone ls).mp (hlaw ls hls)
  · intro hds ls hls
    exact (hone ls).mpr (hds _ (prefix_filterMap_iff.mpr ⟨ls, hls, rfl⟩))

/-- **When a one-shot handler on one-shot hardware is called in time**: if the tick with which its
time is reached is alone as long as what it asked for. -/
theorem oneshotLaw_iff (s : Timers H) (es : List (Ptr × Meta H)) (hwf : WellFormed s es) (p : Ptr)
    (m : Meta H) (hm : (p, m) ∈ es) (tim : Ptr) (hone : NativeOneshot s tim m)
    (reply : Call H → Int32) (ks : List Tick) :
    OneshotLaw reply s p tim m.ticks ks ↔ OnTheDot m.ticks (ticksOn tim ks) :=
  (hone.law_iff (hwf.tracks hm) reply ks).trans onTheDot_iff.symm

def bench : Timers ℕ := desk featOneshot (oneshot 1 2000000) (periodic 2 1000000)

theorem wellFormed_bench :
    WellFormed bench [(0x9000, oneshot 1 2000000), (0x9010, periodic 2 1000000)] :=
  wellFormed_desk featOneshot rfl rfl

theorem nativeOneshot_bench : NativeOneshot bench 0x8000 (oneshot 1 2000000) :=
  ⟨rfl, by decide, by decide, by decide⟩

theorem oneshotLaw_bench :
    WellFormed bench [(0x9000, oneshot 1 2000000), (0x9010, periodic 2 1000000)] ∧
      NativeOneshot bench 0x8000 (oneshot 1 2000000) ∧
      OnTheDot 2000000 (ticksOn 0x8000 [⟨0, 0x8000, 0x2004⟩]) ∧
      OneshotLaw (fun _ ↦ 1) bench 0x9000 0x8000 2000000 [⟨0, 0x8000, 0x2004⟩] := by
  have hdot : OnTheDot 2000000 (ticksOn 0x8000 [⟨0, 0x8000, 0x2004⟩]) := by
    intro ds d hpre _ _
    have hpre : ds ++ [d] <+: [2000000] := hpre
    have hlen := hpre.length_le
    obtain rfl : ds = [] := eq_nil_of_length_eq_zero (by simpa using hlen)
    simpa using hpre
  refine ⟨wellFormed_bench, nativeOneshot_bench, hdot, ?_⟩
  exact (oneshotLaw_iff bench _ wellFormed_bench 0x9000 (oneshot 1 2000000) (by simp) 0x8000
    nativeOneshot_bench (fun _ ↦ 1) _).mpr hdot

/-- **Two ticks of one millisecond are not two milliseconds.** -/
theorem not_oneshotLaw_bench :
    WellFormed bench [(0x9000, oneshot 1 2000000), (0x9010, periodic 2 1000000)] ∧
      NativeOneshot bench 0x8000 (oneshot 1 2000000) ∧
      ¬ OneshotLaw (fun _ ↦ 1) bench 0x9000 0x8000 2000000
        [⟨0, 0x8000, 0x1004⟩, ⟨0, 0x8000, 0x1004⟩] := by
  refine ⟨wellFormed_bench, nativeOneshot_bench, fun hlaw ↦ ?_⟩
  have hds := (nativeOneshot_bench.law_iff (wellFormed_bench.tracks (by simp)) _ _).mp hlaw
  exact absurd (hds [1000000, 1000000] (by decide)) (by decide)

def reports (reply : Call H → Int32) (p tim : Ptr) (s : Timers H) (ks : List Tick) :
    List (ℕ × List ℕ) :=
  Run.trace (tick reply) (fun s k ↦
    if k.tim = tim then
      [(convTicks k.inTicks,
        (tick reply s k).elim [] fun s' ↦ (toldTo s' p).drop (toldTo s p).length)]
    else []) s ks

/-- The accounts of a handler are right: whenever it is called it is told the time since the last
call, or since the beginning.  The first argument is the time that has passed since then. -/
def Accounts : ℕ → List (ℕ × List ℕ) → Prop
  | _, [] => True
  | acc, (d, told) :: rs =>
    (∀ v ∈ told, v = acc + d) ∧ Accounts (if told = [] then acc + d else 0) rs

/-- Whenever the period is reached, it is reached exactly, or by one tick alone. -/
def Exactly (P : ℕ) : ℕ → List ℕ → Prop
  | _, [] => True
  | acc, d :: ds =>
    if acc + d < P then Exactly P (acc + d) ds
    else (acc + d = P ∨ acc = 0) ∧ Exactly P 0 ds

structure OnPeriodic (s : Timers H) (tim : Ptr) (m : Meta H) : Prop where
  tim_eq : m.tim = tim
  hw : Meets (s.featOf tim) featPeriodic
  periodic : Meets m.feat featPeriodic
  not_oneshot : ¬ Meets m.feat featOneshot

theorem OnPeriodic.cellOf (h : OnPeriodic s tim m) (k : Ptr) (d t : ℕ) :
    cellOf k (s.featOf k) d (p, { m with ticks := t }) =
      if k ≠ tim then ⟨t, false, []⟩
      else if t ≤ d then ⟨m.origTicks, false, [max d m.origTicks]⟩ else ⟨t - d, false, []⟩ := by
  by_cases hk : k = tim
  · subst hk
    by_cases hd : t ≤ d
    · simp [h.tim_eq, Cell.ticked, Cell.native, Cell.periodic, Cell.emulated, h.hw, h.periodic,
        h.not_oneshot, hd]
    · simp [h.tim_eq, Cell.ticked, Cell.native, Cell.periodic, Cell.emulated, h.hw, h.periodic,
        h.not_oneshot, hd, Nat.sub_eq_zero_iff_le]
  · have hne : m.tim ≠ k := fun he ↦ hk (he.symm.trans h.tim_eq)
    simp [hne, hk]

theorem reports_cons {s' : Timers H} {told : List ℕ}
    (hs' : tick reply s k = some s') (htold : toldTo s' p = toldTo s p ++ told) (ks : List Tick) :
    reports reply p tim s (k :: ks) =
      (if k.tim = tim then [(convTicks k.inTicks, told)] else []) ++ reports reply p tim s' ks := by
  rw [reports, Run.trace, hs', elim_some, elim_some, htold, drop_left, reports]

theorem ticksOn_cons (tim : Ptr) (k : Tick) (ks : List Tick) :
    ticksOn tim (k :: ks) =
      (if k.tim = tim then [convTicks k.inTicks] else []) ++ ticksOn tim ks := by
  rw [ticksOn, filterMap_cons, ticksOn]
  by_cases hk : k.tim = tim <;> simp [hk]

theorem OnPeriodic.accounts {acc : ℕ} (h : OnPeriodic s tim m)
    (ht : Tracks s p (some { m with ticks := m.origTicks - acc })) (hacc : acc < m.origTicks)
    (reply : Call H → Int32) (ks : List Tick) : (Run.exec (tick reply) s ks).isSome ∧
      (Accounts acc (reports reply p tim s ks) ↔ Exactly m.origTicks acc (ticksOn tim ks)) := by
  induction ks generalizing s acc with
  | nil => exact ⟨rfl, by simp [reports, Run.trace, Accounts, ticksOn, Exactly]⟩
  | cons k ks ih =>
    obtain ⟨s', hs', hhw, ht', htold⟩ := ht.tick reply k
    have h' : OnPeriodic s' tim m := { h with hw := by rw [featOf, hhw]; exact h.hw }
    rw [bind_some, survivor, h.cellOf] at ht'
    rw [elim_some, h.cellOf] at htold
    rw [Run.exec, hs', bind_some, reports_cons hs' htold, ticksOn_cons]
    by_cases hk : k.tim = tim
    · rw [if_neg (not_not.mpr hk)] at ht'
      rw [if_neg (not_not.mpr hk), if_pos hk, if_pos hk, singleton_append,
        singleton_append, Accounts, Exactly]
      by_cases hdue : m.origTicks - acc ≤ convTicks k.inTicks
      · -- The handler is called, and a new period begins.
        have hge : ¬ acc + convTicks k.inTicks < m.origTicks := by omega
        have hnew : Tracks s' p (some { m with ticks := m.origTicks - 0 }) := by
          rwa [if_pos hdue] at ht'
        obtain ⟨hsome, hrest⟩ := ih h' hnew (by omega)
        refine ⟨hsome, ?_⟩
        rw [if_pos hdue, if_neg hge, if_neg (cons_ne_nil _ _), hrest]
        refine and_congr_left fun _ ↦ ?_
        rw [forall_mem_singleton]
        omega
      · have hlt : acc + convTicks k.inTicks < m.origTicks := by omega
        rw [if_neg hdue, Nat.sub_sub] at ht'
        obtain ⟨hsome, hrest⟩ := ih h' ht' hlt
        refine ⟨hsome, ?_⟩
        rw [if_neg hdue, if_pos hlt, if_pos rfl, hrest]
        simp
    · rw [if_pos hk] at ht'
      obtain ⟨hsome, hrest⟩ := ih h' ht' hacc
      exact ⟨hsome, by simpa [hk] using hrest⟩

/-- **When a periodic handler is told the time that has passed**: if its period is always reached on
the dot or by one tick alone. -/
theorem accounts_iff (s : Timers H) (es : List (Ptr × Meta H)) (hwf : WellFormed s es) (p : Ptr)
    (m : Meta H) (hm : (p, m) ∈ es) (tim : Ptr) (hper : OnPeriodic s tim m)
    (hnew : m.ticks = m.origTicks) (hpos : 0 < m.origTicks) (reply : Call H → Int32)
    (ks : List Tick) :
    ((Run.exec (tick reply) s ks).isSome ∧ Accounts 0 (reports reply p tim s ks)) ↔
      Exactly m.origTicks 0 (ticksOn tim ks) := by
  have hself : ({ m with ticks := m.origTicks - 0 } : Meta H) = m := by
    cases m
    exact congrArg (Meta.mk _ _ · _ _ _) hnew.symm
  have ht : Tracks s p (some { m with ticks := m.origTicks - 0 }) := by
    rw [hself]
    exact hwf.tracks hm
  obtain ⟨hsome, hiff⟩ := hper.accounts ht hpos reply ks
  rw [← hiff]
  exact and_iff_right hsome

def drift : Timers ℕ := desk featPeriodic (periodic 1 10000000) (oneshot 2 2000000)

theorem wellFormed_drift :
    WellFormed drift [(0x9000, periodic 1 10000000), (0x9010, oneshot 2 2000000)] :=
  wellFormed_desk featPeriodic rfl rfl

theorem onPeriodic_drift : OnPeriodic drift 0x8000 (periodic 1 10000000) :=
  ⟨rfl, by decide, by decide, by decide⟩

theorem accounts_drift :
    WellFormed drift [(0x9000, periodic 1 10000000), (0x9010, oneshot 2 2000000)] ∧
      OnPeriodic drift 0x8000 (periodic 1 10000000) ∧
      Exactly 10000000 0 [5000000, 5000000, 20000000] ∧
      (Run.exec (tick fun _ ↦ 1) drift
        [⟨0, 0x8000, 0x5004⟩, ⟨0, 0x8000, 0x5004⟩, ⟨0, 0x8000, 0x14004⟩]).isSome ∧
      Accounts 0 (reports (fun _ ↦ 1) 0x9000 0x8000 drift
        [⟨0, 0x8000, 0x5004⟩, ⟨0, 0x8000, 0x5004⟩, ⟨0, 0x8000, 0x14004⟩]) := by
  have hex : Exactly 10000000 0 [5000000, 5000000, 20000000] := by simp [Exactly]
  refine ⟨wellFormed_drift, onPeriodic_drift, hex, ?_⟩
  exact (accounts_iff drift _ wellFormed_drift 0x9000 (periodic 1 10000000) (by simp) 0x8000
    onPeriodic_drift rfl (by decide) (fun _ ↦ 1) _).mpr hex

/-- **Twelve milliseconds are reported as ten**, with ticks of three. -/
theorem not_accounts_drift :
    WellFormed drift [(0x9000, periodic 1 10000000), (0x9010, oneshot 2 2000000)] ∧
      OnPeriodic drift 0x8000 (periodic 1 10000000) ∧
      ¬ Accounts 0 (reports (fun _ ↦ 1) 0x9000 0x8000 drift
        (List.replicate 4 ⟨0, 0x8000, 0x3004⟩)) := by
  refine ⟨wellFormed_drift, onPeriodic_drift, fun hacc ↦ ?_⟩
  have ht : Tracks drift 0x9000 (some { periodic 1 10000000 with ticks := 10000000 - 0 }) :=
    wellFormed_drift.tracks (by simp [periodic])
  have hiff := (onPeriodic_drift.accounts ht (by decide) (fun _ ↦ 1)
    (replicate 4 ⟨0, 0x8000, 0x3004⟩)).2
  have hex : Exactly 10000000 0 [3000000, 3000000, 3000000, 3000000] := hiff.mp hacc
  simp [Exactly] at hex

end ForgeOS.Timers
