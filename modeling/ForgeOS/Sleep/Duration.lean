import ForgeOS.Lib.Deadline
import ForgeOS.Sleep.Records

/-!
# How long a thread sleeps

`sleep_ms` multiplies the milliseconds by 1000000 in 32 bits.  The record of one thread is followed
through a run, in which other threads sleep and are woken as well (`expected_run`).

The main result is `sleepLaw_iff`.
-/

namespace ForgeOS.Sleep

open Option
namespace Records

open Deadline

variable {T : Type} [DecidableEq T]

def ticksIn (ops : List (Op T)) : List ℕ :=
  ops.filterMap fun
    | .tick ticks => some ticks
    | .sleep .. => none

def Op.IsSleepOf (t : T) : Op T → Prop
  | .sleep u .. => u = t
  | .tick _ => False

def recordsOf (t : T) (l : List (T × ℕ)) : List (T × ℕ) := l.filter fun e ↦ e.1 = t

theorem recordsOf_tick (t : T) (l : List (T × ℕ)) (w : List T) (d : ℕ) :
    recordsOf t (expected (l, w) (.tick d)).1 =
      ((recordsOf t l).filter fun e ↦ d < e.2).map fun e ↦ (e.1, e.2 - d) := by
  rw [recordsOf, expected, recordsOf, List.filter_map, List.filter_filter, List.filter_filter]
  congr 1
  refine List.filter_congr fun e _ ↦ ?_
  exact Bool.and_comm _ _

theorem count_woken_tick (t : T) (l : List (T × ℕ)) (w : List T) (d : ℕ) :
    (expected (l, w) (.tick d)).2.count t =
      w.count t + ((recordsOf t l).filter fun e ↦ e.2 ≤ d).length := by
  have hcount : ((l.filter fun e ↦ e.2 ≤ d).map Prod.fst).count t =
      ((recordsOf t l).filter fun e ↦ e.2 ≤ d).length := by
    rw [List.count, List.countP_map, List.countP_filter, List.countP_eq_length_filter, recordsOf,
      List.filter_filter]
    refine congrArg List.length (List.filter_congr fun e _ ↦ ?_)
    simp [Bool.and_comm, beq_eq_decide]
  rw [expected, List.count_append, hcount]

theorem expected_run (t : T) (N : ℕ) (l : List (T × ℕ)) (w : List T)
    (hl : recordsOf t l = [(t, N)]) (ops : List (Op T)) (hops : ∀ op ∈ ops, ¬ op.IsSleepOf t) :
    (Reached N (ticksIn ops) ∧ recordsOf t (ops.foldl expected (l, w)).1 = [] ∧
        (ops.foldl expected (l, w)).2.count t = w.count t + 1) ∨
      (¬ Reached N (ticksIn ops) ∧
        recordsOf t (ops.foldl expected (l, w)).1 = [(t, N - (ticksIn ops).sum)] ∧
        (ops.foldl expected (l, w)).2.count t = w.count t) := by
  induction ops using List.reverseRecOn with
  | nil => exact .inr ⟨not_reached_nil N, hl, rfl⟩
  | append_singleton ops op ih =>
    have ih := ih fun o ho ↦ hops o (by simp [ho])
    have hop := hops op (by simp)
    rw [List.foldl_append, List.foldl_cons, List.foldl_nil]
    generalize ops.foldl expected (l, w) = m at ih ⊢
    obtain ⟨l', w'⟩ := m
    cases op with
    | sleep u ms b a junk =>
      have hne : u ≠ t := hop
      have hrec : recordsOf t (expected (l', w') (.sleep u ms b a junk)).1 = recordsOf t l' :=
        List.filter_cons_of_neg (by simpa using hne)
      have hticks : ticksIn (ops ++ [.sleep u ms b a junk]) = ticksIn ops := by
        simp [ticksIn, List.filterMap_append]
      rw [hrec, hticks]
      exact ih
    | tick d =>
      have hticks : ticksIn (ops ++ [.tick d]) = ticksIn ops ++ [d] := by
        simp [ticksIn, List.filterMap_append]
      rw [hticks, recordsOf_tick, count_woken_tick, reached_snoc, List.sum_append,
        List.sum_singleton]
      rcases ih with ⟨hr, hrec, hw⟩ | ⟨hr, hrec, hw⟩
      · rw [hrec]
        exact .inl ⟨reached_snoc.mp (hr.snoc d), rfl, hw⟩
      · rw [hrec]
        by_cases hdue : N ≤ (ticksIn ops).sum + d
        · have hle : N - (ticksIn ops).sum ≤ d := by omega
          refine .inl ⟨hdue, ?_, ?_⟩
          · simp [hle]
          · simpa [hle] using hw
        · have hlt : ¬ N - (ticksIn ops).sum ≤ d := by omega
          refine .inr ⟨hdue, ?_, ?_⟩
          · simp [Nat.not_le.mp hlt, Nat.sub_sub]
          · simpa [hlt] using hw

/-- What a thread that sleeps for `ms` milliseconds is promised.  In every run in which no sleeper's
time is over before that of a later caller, the thread, which is not asleep when it calls, is woken
once by the first tick with which the time since its call reaches `ms` milliseconds, and not
before.  Since nothing is said about how the run goes on, this is so after every call in it. -/
def SleepLaw (t : T) (ms : UInt32) : Prop :=
  ∀ (before after : List (Op T)) (b a : Ptr) (junk : LList.Node Ptr),
    Run.Guarded step (fun s op ↦ s.Allowed op ∧ s.FrontFirst op) init
      (before ++ .sleep t ms b a junk :: after) →
    (∀ s, Run.exec step init before = some s → t ∉ s.records.map Prod.fst) →
    (∀ op ∈ after, ¬ op.IsSleepOf t) →
    ∃ s₀ s, Run.exec step init (before ++ [.sleep t ms b a junk]) = some s₀ ∧
      Run.exec step s₀ after = some s ∧
      s.woken.count t =
        s₀.woken.count t + if Reached (ms.toNat * 1000000) (ticksIn after) then 1 else 0

theorem woken_iff_reached (before after : List (Op T)) (t : T) (ms : UInt32) (b a : Ptr)
    (junk : LList.Node Ptr)
    (hops : Run.Guarded step (fun s op ↦ s.Allowed op ∧ s.FrontFirst op) init
      (before ++ .sleep t ms b a junk :: after))
    (hawake : ∀ s, Run.exec step init before = some s → t ∉ s.records.map Prod.fst)
    (hafter : ∀ op ∈ after, ¬ op.IsSleepOf t) :
    ∃ s₀ s, Run.exec step init (before ++ [.sleep t ms b a junk]) = some s₀ ∧
      Run.exec step s₀ after = some s ∧
      s.woken.count t =
        s₀.woken.count t + if Reached (ticksOf ms) (ticksIn after) then 1 else 0 := by
  obtain ⟨hbefore, hrest⟩ := Run.guarded_append.mp hops
  obtain ⟨s1, hs1, h1⟩ := matches_init.run hbefore
  obtain ⟨hsleep, hticks⟩ := hrest s1 hs1
  obtain ⟨s₀, hs0, h0⟩ := h1.step hsleep
  obtain ⟨s, hs, h⟩ := h0.run (hticks s₀ hs0)
  refine ⟨s₀, s, Run.exec_snoc_eq_some.mpr ⟨s1, hs1, hs0⟩, hs, ?_⟩
  generalize before.foldl expected ([], []) = m at h1 h0 h
  obtain ⟨l, w⟩ := m
  have hown : recordsOf t ((t, ticksOf ms) :: l) = [(t, ticksOf ms)] := by
    have hno := hawake s1 hs1
    rw [h1.records_eq.1] at hno
    rw [recordsOf, List.filter_cons_of_pos (by simp), List.filter_eq_nil_iff.mpr]
    intro e he het
    exact hno (List.mem_map.mpr ⟨e, he, of_decide_eq_true het⟩)
  rw [h.records_eq.2, h0.records_eq.2]
  rcases expected_run t (ticksOf ms) _ w hown after hafter with ⟨hr, -, hw⟩ | ⟨hr, -, hw⟩
  · rw [if_pos hr]
    exact hw
  · rw [if_neg hr]
    exact hw

omit [DecidableEq T] in
theorem guarded_alone (t : T) (ms : UInt32) (ticks : ℕ) :
    Run.Guarded step (fun s op ↦ s.Allowed op ∧ s.FrontFirst op) init
      [.sleep t ms 0x9000 0x1000 ⟨0, 0, 0⟩, .tick ticks] := by
  have hallowed : (init : Records T).Allowed (.sleep t ms 0x9000 0x1000 ⟨0, 0, 0⟩) :=
    ⟨⟨by decide, rfl⟩, by decide, rfl⟩
  refine ⟨⟨hallowed, trivial⟩, fun s hs ↦ ⟨⟨trivial, ?_⟩, fun _ _ ↦ trivial⟩⟩
  obtain ⟨s', hs', h⟩ := matches_init.step ⟨hallowed, trivial⟩
  obtain rfl := some.inj (hs'.symm.trans hs)
  show s'.records.Pairwise _
  rw [h.records_eq.1]
  exact List.pairwise_singleton _ _

theorem not_sleepLaw_of_le (t : T) {ms : UInt32} (hbig : 2 ^ 32 ≤ ms.toNat * 1000000) :
    ¬ SleepLaw t ms := by
  intro hlaw
  have hsmall : ticksOf ms < 2 ^ 32 := Nat.mod_lt _ (Nat.two_pow_pos 32)
  have hops := guarded_alone t ms (ticksOf ms)
  have hawake : ∀ s : Records T, Run.exec step init [] = some s → t ∉ s.records.map Prod.fst := by
    intro s hs
    rw [← some.inj hs, matches_init.records_eq.1]
    exact List.not_mem_nil
  have hafter : ∀ op ∈ [(.tick (ticksOf ms) : Op T)], ¬ op.IsSleepOf t := by
    intro op hop
    rw [List.mem_singleton.mp hop]
    exact id
  obtain ⟨s₀, s, hs0, hs, hcount⟩ := hlaw [] _ _ _ _ hops hawake hafter
  obtain ⟨s0', s', hs0', hs', hcount'⟩ := woken_iff_reached [] _ t ms _ _ _ hops hawake hafter
  obtain rfl := some.inj (hs0.symm.trans hs0')
  obtain rfl := some.inj (hs.symm.trans hs')
  have hticks : ticksIn [(.tick (ticksOf ms) : Op T)] = [] ++ [ticksOf ms] := rfl
  have hearly : ¬ Reached (ms.toNat * 1000000) ([] ++ [ticksOf ms]) := by
    rw [reached_snoc, List.sum_nil]
    omega
  rw [hticks, if_neg hearly] at hcount
  rw [hticks, if_pos (reached_snoc.mpr (Nat.le_add_left _ _))] at hcount'
  omega

/-- **How long a thread may sleep**: as long as the nanoseconds fit into 32 bits. -/
theorem sleepLaw_iff (t : T) (ms : UInt32) : SleepLaw t ms ↔ ms.toNat * 1000000 < 2 ^ 32 := by
  constructor
  · intro hlaw
    by_contra hbig
    exact not_sleepLaw_of_le t (Nat.not_lt.mp hbig) hlaw
  · intro hfits before after b a junk hops hawake hafter
    have hticks : ticksOf ms = ms.toNat * 1000000 := Nat.mod_eq_of_lt hfits
    rw [← hticks]
    exact woken_iff_reached before after t ms b a junk hops hawake hafter

/-- **A thread that wants to sleep for 4295 ms is woken after 32704 ns.** -/
theorem not_sleepLaw_long :
    (Run.exec step (init : Records ℕ) [.sleep 1 4295 0x9000 0x1000 ⟨0, 0, 0⟩, .tick 32704]).map
        (fun s ↦ s.woken) = some [1] ∧
      ¬ SleepLaw 1 4295 :=
  ⟨by decide, not_sleepLaw_of_le 1 (by decide)⟩

end Records
end ForgeOS.Sleep
