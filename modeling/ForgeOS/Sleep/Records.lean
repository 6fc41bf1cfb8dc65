import ForgeOS.LList.Front
import ForgeOS.Sleep.Model

/-!
# The list of sleepers in memory

Insertion at the front leaves the back pointers of the nodes wrong, and `list_remove` uses them,
except for the first position.

The main result is `records_of_frontFirst`.
-/

namespace ForgeOS.Sleep

open List Option Heap

structure Info (T : Type) where
  t : T
  tc : ℕ
  deriving DecidableEq

/-- The list of sleepers, the records its nodes point to, and the calls of `thread_wake` so far.

`sleep_ms` creates the list when it is first called.  Until then `sleep_timer_tick` returns at once,
as it does for an empty list. -/
structure Records (T : Type) where
  tlist : LList Ptr
  info : Heap Ptr (Info T)
  woken : List T

namespace Records

variable {T : Type}

def init : Records T := ⟨LList.createList, empty, []⟩

/-- `sleep_ms`, up to the insertion, when `malloc` returns `b` for the record and `a` for the node
of the list and finds `junk` in the node. -/
def sleepMs (s : Records T) (t : T) (ms : UInt32) (b a : Ptr) (junk : LList.Node Ptr) :
    Option (Records T) := do
  let info ← s.info.alloc b ⟨t, ticksOf ms⟩
  let tlist ← s.tlist.listInsert a junk b 0
  some { s with tlist, info }

/-- The loop of `sleep_timer_tick`, from position `n` on. -/
def scan (ticks : ℕ) : ℕ → ℕ → Bool → Records T → Option (Bool × Records T)
  | 0, _, _, _ => none
  | fuel + 1, n, ret, s =>
    (s.tlist.listAt n).bind fun
      | none => some (ret, s)
      | some p =>
        if p = 0 then some (ret, s)
        else (s.info.read p).bind fun r ↦
          let info := s.info.set p { r with tc := age ticks r.tc }
          if age ticks r.tc = 0 then
            (info.free p).bind fun info ↦ (s.tlist.listRemove n).bind fun tlist ↦
              scan ticks fuel n true ⟨tlist, info, s.woken ++ [r.t]⟩
          else scan ticks fuel (n + 1) ret { s with info }

/-- `sleep_timer_tick`.  Every turn of its loop makes `len - n` smaller. -/
def sleepTimerTick (s : Records T) (ticks : ℕ) : Option (Bool × Records T) :=
  scan ticks (s.tlist.len + 1) 0 false s

inductive Op (T : Type) where
  | sleep (t : T) (ms : UInt32) (b a : Ptr) (junk : LList.Node Ptr)
  | tick (ticks : ℕ)

def step (s : Records T) : Op T → Option (Records T)
  | .sleep t ms b a junk => s.sleepMs t ms b a junk
  | .tick ticks => (s.sleepTimerTick ticks).map Prod.snd

def records (s : Records T) : List (T × ℕ) :=
  (List.range s.tlist.len).filterMap fun i ↦
    (s.tlist.listAt i).join.bind fun p ↦ (s.info.read p).map fun r ↦ (r.t, r.tc)

/-- The sleepers with the time that is left, the last caller first, and the threads woken so far.  A
tick wakes the sleepers whose time is over, and takes it off the others' time. -/
def expected : List (T × ℕ) × List T → Op T → List (T × ℕ) × List T
  | (l, w), .sleep t ms _ _ _ => ((t, ticksOf ms) :: l, w)
  | (l, w), .tick ticks =>
    ((l.filter fun e ↦ ticks < e.2).map fun e ↦ (e.1, e.2 - ticks),
      w ++ (l.filter fun e ↦ e.2 ≤ ticks).map Prod.fst)

/-- What the calls may rely on: `malloc` returns non-null pointers to memory that is not in use. -/
def Allowed (s : Records T) : Op T → Prop
  | .sleep _ _ b a _ => (b ≠ 0 ∧ (s.info.read b).isNone) ∧ a ≠ 0 ∧ (s.tlist.heap.read a).isNone
  | .tick _ => True

/-- The condition on a call: if a sleeper's time is over, so is that of every later caller. -/
def FrontFirst (s : Records T) : Op T → Prop
  | .sleep .. => True
  | .tick ticks => s.records.Pairwise fun e e' ↦ e'.2 ≤ ticks → e.2 ≤ ticks

structure Entry (T : Type) where
  node : Ptr
  p : Ptr
  r : Info T

def Entry.value (e : Entry T) : T × ℕ := (e.r.t, e.r.tc)

def Entry.aged (e : Entry T) (ticks : ℕ) : Entry T :=
  { e with r := { e.r with tc := age ticks e.r.tc } }

structure Holds (s : Records T) (es : List (Entry T)) : Prop where
  front : s.tlist.Front (es.map fun e ↦ (e.node, e.p))
  read : ∀ e ∈ es, s.info.read e.p = some e.r
  /-- Every node has a record of its own. -/
  nodup : (es.map Entry.p).Nodup

variable {s : Records T} {es ds : List (Entry T)} {e : Entry T} {ticks : ℕ}

theorem Holds.len (h : s.Holds es) : s.tlist.len = es.length := by
  rw [h.front.len, length_map]

theorem Holds.listAt (h : s.Holds es) (i : ℕ) : s.tlist.listAt i = some (es[i]?.map Entry.p) := by
  rw [h.front.listAt, List.getElem?_map, Option.map_map]
  rfl

theorem Holds.records (h : s.Holds es) : s.records = es.map Entry.value := by
  rw [Records.records, h.len, ← LList.filterMap_range_getElem? (es.map Entry.value),
    length_map]
  refine filterMap_congr fun i _ ↦ ?_
  rw [h.listAt, getElem?_map]
  cases he : es[i]? with
  | none => rfl
  | some e =>
    show (s.info.read e.p).map _ = _
    rw [h.read e (mem_of_getElem? he)]
    rfl

theorem holds_init : (init : Records T).Holds [] :=
  ⟨LList.front_createList, fun _ he ↦ absurd he not_mem_nil, nodup_nil⟩

theorem Holds.scan_end (h : s.Holds es) (fuel : ℕ) (ret : Bool) :
    scan ticks (fuel + 1) es.length ret s = some (ret, s) := by
  rw [scan, h.listAt, getElem?_eq_none le_rfl]
  rfl

theorem Holds.scan_expired (h : s.Holds (e :: es)) (he : e.r.tc ≤ ticks) :
    ∃ s', (∀ fuel ret, scan ticks (fuel + 1) 0 ret s = scan ticks fuel 0 true s') ∧
      s'.Holds es ∧ s'.woken = s.woken ++ [e.r.t] := by
  obtain ⟨l, hl, hfront⟩ := h.front.remove
  have hr := h.read e (mem_cons_self ..)
  have h0 := ne_zero_of_read hr
  obtain ⟨hnew, hnd⟩ := nodup_cons.mp h.nodup
  refine ⟨⟨l, (s.info.set e.p { e.r with tc := age ticks e.r.tc }).erase e.p, s.woken ++ [e.r.t]⟩,
    fun fuel ret ↦ ?_, ⟨hfront, fun d hd ↦ ?_, hnd⟩, rfl⟩
  · have hat : s.tlist.listAt 0 = some (some e.p) := h.listAt 0
    rw [scan, hat, bind_some]
    show (if e.p = 0 then _ else _) = _
    rw [if_neg h0, hr, bind_some]
    show (if age ticks e.r.tc = 0 then _ else _) = _
    rw [if_pos (age_eq_zero.mpr he), free_eq (read_set_self h0), bind_some, hl,
      bind_some]
  · have hne : d.p ≠ e.p := by
      intro heq
      exact hnew (heq ▸ mem_map_of_mem hd)
    show ((s.info.set _ _).erase _).read _ = _
    rw [read_erase_of_ne hne, read_set_of_ne hne]
    exact h.read d (mem_cons_of_mem _ hd)

theorem Holds.scan_aged (h : s.Holds (ds ++ e :: es)) (he : ticks < e.r.tc) :
    ∃ s', (∀ fuel ret,
        scan ticks (fuel + 1) ds.length ret s = scan ticks fuel (ds.length + 1) ret s') ∧
      s'.Holds (ds ++ e.aged ticks :: es) ∧ s'.woken = s.woken := by
  have hmem : e ∈ ds ++ e :: es := mem_append_right _ (mem_cons_self ..)
  have hr := h.read e hmem
  have h0 := ne_zero_of_read hr
  refine ⟨{ s with info := s.info.set e.p { e.r with tc := age ticks e.r.tc } }, fun fuel ret ↦ ?_,
    ⟨?_, ?_, ?_⟩, rfl⟩
  · have hat : s.tlist.listAt ds.length = some (some e.p) := by
      rw [h.listAt, getElem?_append_right le_rfl, Nat.sub_self]
      rfl
    rw [scan, hat, bind_some]
    show (if e.p = 0 then _ else _) = _
    rw [if_neg h0, hr, bind_some]
    show (if age ticks e.r.tc = 0 then _ else _) = _
    rw [if_neg fun hz ↦ absurd (age_eq_zero.mp hz) (Nat.not_le.mpr he)]
  · have hfront := h.front
    rw [map_append, map_cons] at hfront ⊢
    exact hfront
  · -- The records of the other entries are elsewhere.
    have hnd := h.nodup
    rw [map_append, map_cons, nodup_middle, nodup_cons,
      ← map_append] at hnd
    intro d hd
    show (s.info.set _ _).read _ = _
    have hd' : d = e.aged ticks ∨ d ∈ ds ++ es := by
      simp only [mem_append, mem_cons] at hd ⊢
      tauto
    rcases hd' with rfl | hother
    · exact read_set_self h0
    · have hne : d.p ≠ e.p := fun heq ↦ hnd.1 (heq ▸ mem_map_of_mem hother)
      rw [read_set_of_ne hne]
      refine h.read d ?_
      simp only [mem_append, mem_cons] at hother ⊢
      tauto
  · have hnd := h.nodup
    rw [map_append, map_cons] at hnd ⊢
    exact hnd

def kept (ticks : ℕ) (es : List (Entry T)) : List (Entry T) :=
  (es.filter fun e ↦ ticks < e.r.tc).map fun e ↦ e.aged ticks

def due (ticks : ℕ) (es : List (Entry T)) : List T :=
  (es.filter fun e ↦ e.r.tc ≤ ticks).map fun e ↦ e.r.t

theorem Holds.scan (h : s.Holds (ds ++ es)) (hstay : ds ≠ [] → ∀ e ∈ es, ticks < e.r.tc)
    (hfirst : es.Pairwise fun e e' ↦ e'.r.tc ≤ ticks → e.r.tc ≤ ticks) {fuel : ℕ}
    (hfuel : es.length < fuel) (ret : Bool) :
    ∃ s' ret', Records.scan ticks fuel ds.length ret s = some (ret', s') ∧
      s'.Holds (ds ++ kept ticks es) ∧ s'.woken = s.woken ++ due ticks es := by
  induction es generalizing s ds fuel ret with
  | nil =>
    obtain ⟨fuel, rfl⟩ := Nat.exists_eq_add_one_of_ne_zero (Nat.ne_zero_of_lt hfuel)
    rw [append_nil] at h
    refine ⟨s, ret, h.scan_end fuel ret, ?_, ?_⟩
    · rw [kept, filter_nil, map_nil, append_nil]
      exact h
    · rw [due, filter_nil, map_nil, append_nil]
  | cons e es ih =>
    obtain ⟨fuel, rfl⟩ := Nat.exists_eq_add_one_of_ne_zero (Nat.ne_zero_of_lt hfuel)
    rw [length_cons, Nat.add_lt_add_iff_right] at hfuel
    obtain ⟨hhead, htail⟩ := pairwise_cons.mp hfirst
    by_cases he : e.r.tc ≤ ticks
    · -- The record is the first of the list, since everything in front of it has expired.
      have hds : ds = [] := by
        by_contra hne
        exact absurd he (Nat.not_le.mpr (hstay hne e (mem_cons_self ..)))
      subst hds
      obtain ⟨s1, hscan, h1, hw⟩ := Holds.scan_expired h he
      have h1 : s1.Holds ([] ++ es) := h1
      obtain ⟨s2, ret2, hscan2, h2, hw2⟩ := ih h1 (fun hne ↦ absurd rfl hne) htail hfuel true
      refine ⟨s2, ret2, (hscan fuel ret).trans hscan2, ?_, ?_⟩
      · rw [kept, filter_cons_of_neg (by simpa using he)]
        exact h2
      · rw [hw2, hw, append_assoc, due, due, filter_cons_of_pos (by simpa using he),
          map_cons, singleton_append]
    · have hlt : ticks < e.r.tc := Nat.not_le.mp he
      obtain ⟨s1, hscan, h1, hw⟩ := h.scan_aged hlt
      rw [append_cons] at h1
      have hrest : ∀ d ∈ es, ticks < d.r.tc := by
        intro d hd
        by_contra hle
        exact he (hhead d hd (Nat.not_lt.mp hle))
      obtain ⟨s2, ret2, hscan2, h2, hw2⟩ := ih h1 (fun _ ↦ hrest) htail hfuel ret
      rw [length_append] at hscan2
      refine ⟨s2, ret2, (hscan fuel ret).trans hscan2, ?_, ?_⟩
      · rw [kept, filter_cons_of_pos (by simpa using hlt), map_cons]
        simpa [kept] using h2
      · rw [hw2, hw, due, due, filter_cons_of_neg (by simpa using he)]

theorem Holds.sleepMs (h : s.Holds es) {t : T} {ms : UInt32} {b a : Ptr} {junk : LList.Node Ptr}
    (ha : s.Allowed (.sleep t ms b a junk)) :
    ∃ s', s.sleepMs t ms b a junk = some s' ∧ s'.Holds (⟨a, b, ⟨t, ticksOf ms⟩⟩ :: es) ∧
      s'.woken = s.woken := by
  obtain ⟨⟨hb0, hb⟩, ha0, ha⟩ := ha
  rw [isNone_iff_eq_none] at hb ha
  obtain ⟨l, hl, hfront⟩ := h.front.insert ha0 ha junk b
  have hne : ∀ e ∈ es, e.p ≠ b := by
    rintro e he rfl
    rw [h.read e he] at hb
    cases hb
  refine ⟨{ s with tlist := l, info := s.info.set b ⟨t, ticksOf ms⟩ }, ?_, ⟨hfront, ?_, ?_⟩, rfl⟩
  · rw [Records.sleepMs, alloc_eq hb0 hb, hl]
    rfl
  · intro e he
    rcases mem_cons.mp he with rfl | hold
    · exact read_set_self hb0
    · show (s.info.set _ _).read _ = _
      rw [read_set_of_ne (hne e hold)]
      exact h.read e hold
  · refine nodup_cons.mpr ⟨fun hmem ↦ ?_, h.nodup⟩
    obtain ⟨e, he, heq⟩ := mem_map.mp hmem
    exact hne e he heq

theorem Holds.sleepTimerTick (h : s.Holds es) (hfirst : s.FrontFirst (.tick ticks)) :
    ∃ s' ret, s.sleepTimerTick ticks = some (ret, s') ∧ s'.Holds (kept ticks es) ∧
      s'.woken = s.woken ++ due ticks es := by
  have hpw : s.records.Pairwise fun e e' ↦ e'.2 ≤ ticks → e.2 ≤ ticks := hfirst
  rw [h.records, pairwise_map] at hpw
  have hnil : s.Holds ([] ++ es) := h
  rw [Records.sleepTimerTick, h.len]
  exact hnil.scan (fun hne ↦ absurd rfl hne) hpw (Nat.lt_succ_self _) false

theorem map_value_kept (ticks : ℕ) (es : List (Entry T)) :
    (kept ticks es).map Entry.value =
      ((es.map Entry.value).filter fun e ↦ ticks < e.2).map fun e ↦ (e.1, e.2 - ticks) := by
  rw [kept, List.map_map, List.filter_map, List.map_map]
  refine List.map_congr_left fun e _ ↦ ?_
  show (e.r.t, age ticks e.r.tc) = (e.r.t, e.r.tc - ticks)
  rw [age_eq]

theorem due_eq (ticks : ℕ) (es : List (Entry T)) :
    due ticks es = ((es.map Entry.value).filter fun e ↦ e.2 ≤ ticks).map Prod.fst := by
  rw [due, List.filter_map, List.map_map]
  rfl

def Matches (s : Records T) (m : List (T × ℕ) × List T) : Prop :=
  ∃ es, s.Holds es ∧ m = (es.map Entry.value, s.woken)

variable {m : List (T × ℕ) × List T}

theorem Matches.step {op : Op T} (h : s.Matches m) (hop : s.Allowed op ∧ s.FrontFirst op) :
    ∃ s', s.step op = some s' ∧ s'.Matches (expected m op) := by
  obtain ⟨es, hes, rfl⟩ := h
  cases op with
  | sleep t ms b a junk =>
    obtain ⟨s', hs', hes', hw⟩ := hes.sleepMs hop.1
    refine ⟨s', hs', _, hes', ?_⟩
    rw [hw]
    rfl
  | tick ticks =>
    obtain ⟨s', ret, hs', hes', hw⟩ := hes.sleepTimerTick hop.2
    refine ⟨s', ?_, _, hes', ?_⟩
    · rw [Records.step, hs', map_some]
    · rw [expected, map_value_kept, hw, due_eq]

theorem Matches.records_eq (h : s.Matches m) : s.records = m.1 ∧ s.woken = m.2 := by
  obtain ⟨es, hes, rfl⟩ := h
  exact ⟨hes.records, rfl⟩

theorem Matches.run {ops : List (Op T)} (h : s.Matches m)
    (hops : Run.Guarded Records.step (fun s op ↦ s.Allowed op ∧ s.FrontFirst op) s ops) :
    ∃ s', Run.exec Records.step s ops = some s' ∧ s'.Matches (ops.foldl expected m) := by
  have hstep : ∀ (s : Records T) op m, s.Matches m → s.Allowed op ∧ s.FrontFirst op →
      ∃ s', s.step op = some s' ∧ s'.Matches (expected m op) := fun s op m h hop ↦ h.step hop
  exact Run.foldl_of_guarded hstep h hops

theorem matches_init : (init : Records T).Matches ([], []) := ⟨[], holds_init, rfl⟩

/-- **What `sleep_timer_tick` does to the list of sleepers**, as long as no sleeper's time is over
before that of a later caller. -/
theorem records_of_frontFirst (ops : List (Op T))
    (hops : Run.Guarded step (fun s op ↦ s.Allowed op ∧ s.FrontFirst op) init ops) :
    ∃ s, Run.exec step init ops = some s ∧ (s.records, s.woken) = ops.foldl expected ([], []) := by
  obtain ⟨s, hs, h⟩ := matches_init.run hops
  exact ⟨s, hs, Prod.ext h.records_eq.1 h.records_eq.2⟩

instance Allowed.decidable (s : Records T) (op : Op T) : Decidable (s.Allowed op) :=
  match op with
  | .sleep _ _ b a _ => inferInstanceAs
      (Decidable ((b ≠ 0 ∧ (s.info.read b).isNone) ∧ a ≠ 0 ∧ (s.tlist.heap.read a).isNone))
  | .tick _ => inferInstanceAs (Decidable True)

instance FrontFirst.decidable (s : Records T) (op : Op T) : Decidable (s.FrontFirst op) :=
  match op with
  | .sleep .. => inferInstanceAs (Decidable True)
  | .tick ticks => inferInstanceAs
      (Decidable (s.records.Pairwise fun e e' ↦ e'.2 ≤ ticks → e.2 ≤ ticks))

def laterFirst : List (Op ℕ) :=
  [.sleep 1 3 0x9000 0x1000 ⟨0, 0, 0⟩, .sleep 2 1 0x9010 0x1010 ⟨0, 0, 0⟩, .tick 1000000,
    .tick 2000000]

theorem records_of_frontFirst_laterFirst :
    Run.Guarded step (fun s op ↦ s.Allowed op ∧ s.FrontFirst op) init laterFirst ∧
      ∃ s, Run.exec step init laterFirst = some s ∧
        (s.records, s.woken) = laterFirst.foldl expected ([], []) :=
  ⟨by decide, records_of_frontFirst laterFirst (by decide)⟩

def earlierFirst : List (Op ℕ) :=
  [.sleep 1 1 0x9000 0x1000 ⟨0, 0, 0⟩, .sleep 2 2 0x9010 0x1010 ⟨0, 0, 0⟩, .tick 1000000]

/-- **A sleeper is not removed**: `list_remove` writes through the null back pointer of the last
node. -/
theorem not_records_earlierFirst :
    Run.Guarded step Allowed init earlierFirst ∧
      earlierFirst.foldl expected ([], []) = ([(2, 1000000)], [1]) ∧
      ¬ ∃ s, Run.exec step init earlierFirst = some s ∧
        (s.records, s.woken) = earlierFirst.foldl expected ([], []) := by
  have hfault : (Run.exec step init earlierFirst).isNone := by decide
  refine ⟨by decide, by decide, ?_⟩
  rintro ⟨s, hs, -⟩
  rw [hs, isNone_some] at hfault
  exact Bool.false_ne_true hfault

end Records
end ForgeOS.Sleep
