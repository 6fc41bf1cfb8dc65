import ForgeOS.Sbrk.X86
import ForgeOS.Vmem.Made

/-!
# A heap of whole pages

A growth maps the pages from the old break up to the new one, and a shrink unmaps the page of the
old break, if it is mapped, and those below it, down to the page after the new break's.

The main result is `trimmed_of_guarded`.
-/

namespace ForgeOS.Sbrk

open List Option

variable {M : Type} {port : Port M} {s s' s'' s₁ : Sbrk M} {call : Call} {ret : UInt32}
  {freed : List (UInt32 × UInt64)}

def pageOf (v : UInt32) : ℕ := v.toNat / 0x1000

theorem base_of_call (hcall : dlmallocSbrk port s call = some (ret, s', freed)) :
    ∃ s₁, start port s (call.alloc 0) = some s₁ ∧ s'.base = s₁.base + call.incr.toUInt32 := by
  obtain ⟨s₁, hstart, -⟩ := bind_eq_some_iff.mp hcall
  refine ⟨s₁, hstart, ?_⟩
  rcases dlmallocSbrk_cases hstart with ⟨hzero, heq⟩ | ⟨-, -, -, heq⟩ | ⟨-, -, -, heq⟩
  all_goals rw [heq] at hcall
  · cases hcall
    rw [hzero]
    exact (UInt32.add_zero _).symm
  · obtain ⟨⟨s2, freed2⟩, hshrink, hcall⟩ := map_eq_some_iff.mp hcall
    cases hcall
    have hbase : s2.base = s₁.base - (-call.incr).toUInt32 := by
      simp only [shrink] at hshrink
      split at hshrink
      · obtain ⟨r, -, hr⟩ := bind_eq_some_iff.mp hshrink
        cases hr
        rfl
      · cases hshrink
        rfl
    rw [hbase, Int32.toUInt32_neg, UInt32.sub_neg]
  · obtain ⟨s2, hgrow, hcall⟩ := map_eq_some_iff.mp hcall
    cases hcall
    simp only [grow] at hgrow
    split at hgrow
    · obtain ⟨m, -, hm⟩ := bind_eq_some_iff.mp hgrow
      cases hm
      rfl
    · cases hgrow
      rfl

namespace Contract

variable {c : Contract port} {m m' m₀ : M}

/-! ## What is freed -/

structure FreedOnce (c : Contract port) (m m' : M) (freed : List (UInt32 × UInt64)) : Prop where
  once : (freed.map fun e ↦ pageOf e.1).Nodup
  own : ∀ e ∈ freed, c.frame m (pageOf e.1) = some e.2
  all : ∀ pg, pg * 0x1000 < c.limit → (c.frame m pg).isSome →
    (c.frame m' pg = none ↔ pg ∈ freed.map fun e ↦ pageOf e.1)
  first : ∀ e ∈ freed, pageOf e.1 ≠ pageOf port.heapBase

structure Trimmed (c : Contract port) (m₀ : M) (s : Sbrk M) : Prop where
  beyond : ∀ pg, pg * 0x1000 < c.limit → s.base.toNat + 0x1000 ≤ pg * 0x1000 →
    (c.frame s.vmem pg).isSome → (c.frame m₀ pg).isSome
  first : s.base ≠ 0 → c.frame s.vmem (pageOf port.heapBase) = some port.firstPage

def Whole (c : Contract port) (s : Sbrk M) (call : Call) : Prop :=
  call.incr.toInt % 0x1000 = 0 ∧ c.InHeap s call ∧ c.Supplied s call

structure Settled (c : Contract port) (m₀ : M) (s : Sbrk M) : Prop where
  started : c.Started s
  aligned : s.base.toNat % 0x1000 = 0
  trimmed : c.Trimmed m₀ s

variable {b' n : ℕ}

theorem turnsFor_whole {b : ℕ} (hpos : 0 < n) (hn : n % 0x1000 = 0)
    (hb : b' = b + n ∨ b' + n = b) : turnsFor b b' n = n / 0x1000 := by
  rw [turnsFor, if_neg (by omega)]
  omega

theorem Shrunk.freedOnce {b : ℕ} (h : c.Shrunk m b (turnsFor b b' n) (m', freed))
    (hlt : b < c.limit) (hpos : 0 < n) (hn : b' + n = b) (hb : b % 0x1000 = 0)
    (hb' : b' % 0x1000 = 0) (hge : port.heapBase.toNat ≤ b') : c.FreedOnce m m' freed := by
  have hlimit := c.limit_le
  have hheap := c.heapBase_aligned
  rw [turnsFor_whole hpos (by omega) (.inr hn)] at h
  have hpage : ∀ i, pageOf (downward b i) = b / 0x1000 - i := by
    intro i
    rw [pageOf, toNat_downward (by omega)]
    omega
  -- The pages of the list, in the order in which they were visited.
  have hpages : freed.map (fun e ↦ pageOf e.1) =
      ((range (n / 0x1000)).filter fun i ↦ (c.frame m (b / 0x1000 - i)).isSome).map
        (fun i ↦ b / 0x1000 - i) := by
    have hmap : freed.map (fun e ↦ pageOf e.1) = (freed.map Prod.fst).map pageOf := by
      rw [List.map_map]
      rfl
    rw [hmap, h.visited, List.map_map]
    exact map_congr_left fun i _ ↦ hpage i
  have hmem : ∀ pg, pg ∈ freed.map (fun e ↦ pageOf e.1) ↔
      (c.frame m pg).isSome ∧ b' / 0x1000 < pg ∧ pg ≤ b / 0x1000 := by
    intro pg
    rw [hpages]
    simp only [List.mem_map, List.mem_filter, List.mem_range]
    constructor
    · rintro ⟨i, ⟨hi, hmapped⟩, rfl⟩
      exact ⟨hmapped, by omega, by omega⟩
    · rintro ⟨hmapped, hgt, hle⟩
      refine ⟨b / 0x1000 - pg, ⟨by omega, ?_⟩, by omega⟩
      rwa [show b / 0x1000 - (b / 0x1000 - pg) = pg by omega]
  refine ⟨?_, h.own hb, fun pg hpg hmapped ↦ ?_, fun e he hfirst ↦ ?_⟩
  · rw [hpages]
    refine List.Nodup.map_on (fun i hi j hj hij ↦ ?_) (nodup_range.filter _)
    have hi := mem_range.mp (mem_filter.mp hi).1
    have hj := mem_range.mp (mem_filter.mp hj).1
    omega
  · rw [hmem, and_iff_right hmapped]
    constructor
    · intro hnone
      by_contra hout
      rw [h.keeps pg hpg (by omega)] at hnone
      rw [hnone] at hmapped
      exact absurd hmapped (by simp)
    · rintro ⟨hgt, hle⟩
      exact h.unmaps pg hpg hle (by omega)
  · have hin := (hmem _).mp (mem_map_of_mem he)
    rw [hfirst, pageOf] at hin
    omega

theorem freedOnce_nil (h : ∀ pg, pg * 0x1000 < c.limit → (c.frame m pg).isSome →
    (c.frame m' pg).isSome) : c.FreedOnce m m' [] := by
  refine ⟨nodup_nil, fun _ he ↦ absurd he not_mem_nil, fun pg hpg hmapped ↦ ?_,
    fun _ he ↦ absurd he not_mem_nil⟩
  refine iff_of_false (fun hnone ↦ ?_) not_mem_nil
  have := h pg hpg hmapped
  rw [hnone] at this
  exact absurd this (by simp)

theorem Settled.outcome {d : ℤ} (h : c.Settled m₀ s₁) (houtcome : c.Outcome s₁ d s' freed)
    (hd : d % 0x1000 = 0) (hge : port.heapBase.toNat ≤ s₁.base.toNat + d)
    (hlt : s₁.base.toNat + d < c.limit) : c.Settled m₀ s' ∧ c.FreedOnce s₁.vmem s'.vmem freed := by
  have hstarted := houtcome.started h.started hge hlt
  have haligned := h.aligned
  have hfirst := h.trimmed.first h.started.base_ne_zero
  have hheap := c.heapBase_aligned
  have hheapLt := c.heapBase_lt
  have hpage : pageOf port.heapBase * 0x1000 < c.limit := by
    rw [pageOf]
    omega
  cases houtcome with
  | stays => exact ⟨h, freedOnce_nil fun _ _ hmapped ↦ hmapped⟩
  | @grows n s' hpos hbase hgrown =>
    rw [turnsFor_whole hpos (by omega) (.inl rfl)] at hgrown
    have hkeeps : ∀ pg, pg * 0x1000 < c.limit → (c.frame s₁.vmem pg).isSome →
        (c.frame s'.vmem pg).isSome := by
      intro pg hpg hmapped
      rw [hgrown.keeps pg hpg (.inl hmapped)]
      exact hmapped
    refine ⟨⟨hstarted, by omega, fun pg hpg hbeyond hmapped ↦ ?_, fun _ ↦ ?_⟩,
      freedOnce_nil hkeeps⟩
    · rw [hgrown.keeps pg hpg (.inr (.inr (by omega)))] at hmapped
      exact h.trimmed.beyond pg hpg (by omega) hmapped
    · rw [hgrown.keeps _ hpage (.inl (by rw [hfirst]; rfl)), hfirst]
  | @shrinks n s' freed hpos hbase hshrunk =>
    have hfreed := hshrunk.freedOnce h.started.lt hpos hbase haligned (by omega) (by omega)
    rw [turnsFor_whole hpos (by omega) (.inr hbase)] at hshrunk
    refine ⟨⟨hstarted, by omega, fun pg hpg hbeyond hmapped ↦ ?_, fun _ ↦ ?_⟩, hfreed⟩
    · by_cases hle : pg ≤ s₁.base.toNat / 0x1000
      · have hnone : c.frame s'.vmem pg = none := hshrunk.unmaps pg hpg hle (by omega)
        rw [hnone] at hmapped
        exact absurd hmapped (by simp)
      · have hsame : c.frame s'.vmem pg = c.frame s₁.vmem pg := hshrunk.keeps pg hpg (by omega)
        rw [hsame] at hmapped
        exact h.trimmed.beyond pg hpg (by omega) hmapped
    · have hsame : c.frame s'.vmem (pageOf port.heapBase) =
          c.frame s₁.vmem (pageOf port.heapBase) := hshrunk.keeps _ hpage (.inr (by rw [pageOf]; omega))
      rw [hsame, hfirst]

def Paged (c : Contract port) (m₀ : M) (s : Sbrk M) : Prop :=
  s.base = 0 ∧ c.Fresh s.vmem ∧ s.vmem = m₀ ∨ c.Settled m₀ s

theorem Paged.inv (h : c.Paged m₀ s) : c.Inv s :=
  h.imp (fun h ↦ ⟨h.1, h.2.1⟩) fun h ↦ h.started

theorem Paged.trimmed (h : c.Paged m₀ s) : c.Trimmed m₀ s := by
  rcases h with ⟨hzero, -, rfl⟩ | h
  · exact ⟨fun _ _ _ hmapped ↦ hmapped, fun hne ↦ absurd hzero hne⟩
  · exact h.trimmed

theorem Paged.next (h : c.Paged m₀ s) (hwhole : c.Whole s call)
    (hcall : dlmallocSbrk port s call = some (ret, s', freed)) :
    c.Settled m₀ s' ∧ c.FreedOnce s.vmem s'.vmem freed := by
  obtain ⟨hpages, hheap, hgood⟩ := hwhole
  obtain ⟨s₁, hstart, hstarted, hbrk, houtcome⟩ := outcome_of_call h.inv hheap hgood hcall
  have hge := hheap.1
  have hlt := hheap.2
  rw [← hbrk] at hge hlt
  rcases h with ⟨hzero, hfresh, rfl⟩ | h
  · -- The heap is new, so the break cannot be moved down.
    obtain ⟨s2, hstart2, -, -, hframe⟩ := c.start_spec (.inl ⟨hzero, hfresh⟩) hgood.1
    obtain rfl : s₁ = s2 := some.inj (hstart.symm.trans hstart2)
    have hheapBase := c.heapBase_aligned
    have hbase : s₁.base.toNat = port.heapBase.toNat := by rw [hbrk, brk, if_pos hzero]
    have hsettled : c.Settled s.vmem s₁ := by
      refine ⟨hstarted, by omega, fun pg hpg hbeyond hmapped ↦ ?_, fun _ ↦ ?_⟩
      · rwa [hframe pg hpg, if_neg (by omega)] at hmapped
      · have := c.heapBase_lt
        rw [hframe _ (by rw [pageOf]; omega)]
        exact if_pos ⟨hzero, rfl⟩
    obtain ⟨hsettled', hfreed⟩ := hsettled.outcome houtcome hpages hge hlt
    refine ⟨hsettled', ?_⟩
    rw [houtcome.freed_eq_nil (by omega)] at hfreed ⊢
    refine freedOnce_nil fun pg hpg hmapped ↦ ?_
    have hmapped1 : (c.frame s₁.vmem pg).isSome := by
      rw [hframe pg hpg]
      split
      · rfl
      · exact hmapped
    exact isSome_iff_ne_none.mpr fun hnone ↦
      absurd ((hfreed.all pg hpg hmapped1).mp hnone) not_mem_nil
  · obtain rfl : s = s₁ := some.inj ((if_neg h.started.base_ne_zero).symm.trans hstart)
    exact h.outcome houtcome hpages hge hlt

end Contract

/-- **A heap of whole pages.**  In every run of calls for whole pages that keep the break in the
heap, the pages beyond the break are given back, each once and not the first one; to grow and to
shrink by as much restores the break; and a call returns if there is memory for its pages. -/
theorem trimmed_of_guarded (c : Contract port) {s₀ : Sbrk M} (hzero : s₀.base = 0)
    (hfresh : c.Fresh s₀.vmem) {calls : List Call}
    (hwhole : Run.Guarded (step port) c.Whole s₀ calls)
    (hexec : Run.exec (step port) s₀ calls = some s) :
    c.Trimmed s₀.vmem s ∧
    (∀ call ret s' freed, c.Whole s call → dlmallocSbrk port s call = some (ret, s', freed) →
      c.FreedOnce s.vmem s'.vmem freed) ∧
    (∀ call call' s' s'', c.Whole s call → step port s call = some s' →
      call'.incr = -call.incr → step port s' call' = some s'' → s''.base.toNat = brk port s) ∧
    ∀ call, c.Whole s call → (0 < call.incr → ∀ i, (call.alloc (i + 1)).1 ≠ 0) →
      ∃ r, dlmallocSbrk port s call = some r := by
  have hpaged : c.Paged s₀.vmem s := by
    refine Run.inv_of_guarded (P := c.Paged s₀.vmem) (C := c.Whole)
      (fun s call t h hcall hstep ↦ ?_) (.inl ⟨hzero, hfresh, rfl⟩) hwhole hexec
    obtain ⟨⟨ret, s', freed⟩, hr, rfl⟩ := map_eq_some_iff.mp hstep
    exact .inr (h.next hcall hr).1
  refine ⟨hpaged.trimmed, fun call ret s' freed hcall hr ↦ (hpaged.next hcall hr).2, ?_, ?_⟩
  · intro call call' s' s'' hcall hstep hincr hstep'
    obtain ⟨⟨ret, s', freed⟩, hr, rfl⟩ := map_eq_some_iff.mp hstep
    obtain ⟨⟨ret', s'', freed'⟩, hr', rfl⟩ := map_eq_some_iff.mp hstep'
    obtain ⟨s₁, hstart, hbase⟩ := base_of_call hr
    obtain ⟨s2, hstart', hbase'⟩ := base_of_call hr'
    have hne := (hpaged.next hcall hr).1.started.base_ne_zero
    obtain rfl : s' = s2 := some.inj ((if_neg hne).symm.trans hstart')
    obtain ⟨s3, hstart3, -, hbrk, -⟩ := c.start_spec hpaged.inv hcall.2.2.1
    obtain rfl : s₁ = s3 := some.inj (hstart.symm.trans hstart3)
    show s''.base.toNat = _
    rw [hbase', hbase, hincr, Int32.toUInt32_neg, ← hbrk, UInt32.add_assoc, UInt32.add_right_neg,
      UInt32.add_zero]
  · exact fun call hcall hpages ↦ c.call_isSome hpaged.inv hcall.2.1 hcall.2.2 hpages

open Paging Vmem

/-- The break is moved up by a page and down again. -/
theorem trimmed_onePage : ∃ m,
    Run.exec (step (x86 0x400000 0x2000)) ⟨blank, 0⟩ [⟨0x1000, noMemory⟩] = some ⟨m, 0xD0001000⟩ ∧
    (x86Contract 0x400000 0x2000).Trimmed blank ⟨m, 0xD0001000⟩ ∧
    ∃ ret s' freed, dlmallocSbrk (x86 0x400000 0x2000) ⟨m, 0xD0001000⟩ ⟨-0x1000, noMemory⟩ =
        some (ret, s', freed) ∧
      (x86Contract 0x400000 0x2000).FreedOnce m s'.vmem freed := by
  obtain ⟨m, hstart, hismapped⟩ := start_blank
  have hstep : step (x86 0x400000 0x2000) ⟨blank, 0⟩ ⟨0x1000, noMemory⟩ = some ⟨m, 0xD0001000⟩ := by
    have hone : turnsFor 0xD0000000 (0xD0000000 + 0x1000) 0x1000 = 1 := by decide
    refine @step_of_ismapped Vmem (x86 0x400000 0x2000) ⟨blank, 0⟩ ⟨m, 0xD0000000⟩
      ⟨0x1000, noMemory⟩ 0xD0000000 0x1000 hstart (by decide) rfl rfl (by decide) fun i hi ↦ ?_
    obtain rfl : i = 0 := Nat.lt_one_iff.mp (hone ▸ hi)
    exact hismapped 0xD0000000 (by decide)
  have hexec := Run.exec_cons_eq_some.mpr ⟨_, hstep, Run.exec_nil _⟩
  have hbrk : brk (x86 0x400000 0x2000) ⟨m, 0xD0001000⟩ = 0xD0001000 := rfl
  have hwhole : (x86Contract 0x400000 0x2000).Whole ⟨m, 0xD0001000⟩ ⟨-0x1000, noMemory⟩ := by
    refine ⟨by decide, ⟨?_, ?_⟩, supplied_noMemory _ _⟩
    all_goals
      rw [hbrk]
      decide
  obtain ⟨htrimmed, hfreed, -, hreturns⟩ :=
    @trimmed_of_guarded Vmem (x86 0x400000 0x2000) _ (x86Contract 0x400000 0x2000) ⟨blank, 0⟩ rfl
      fresh_blank [⟨0x1000, noMemory⟩]
      ⟨⟨by decide, ⟨by decide, by decide⟩, supplied_noMemory _ _⟩, fun _ _ ↦ trivial⟩ hexec
  obtain ⟨⟨ret, s', freed⟩, hcall⟩ := hreturns _ hwhole fun hpos ↦ absurd hpos (by decide)
  exact ⟨m, hexec, htrimmed, ret, s', freed, hcall, hfreed _ _ _ _ hwhole hcall⟩

/-! ## A break inside the window -/

def tables : Vmem where
  mmu := ⟨0x1000, fun f i ↦
    if f = 0x1000 then
      if i = 1023 then 0x1003 else frameOf (UInt32.ofNat (0x400000 + 0x1000 * i)) ||| 0x01 ||| 0x02
    else 0⟩
  gPrimedpage := 0

theorem tables_eq_made : tables = made (fun _ ↦ true) fun _ ↦ false := rfl

theorem wf_tables : WF tables := tables_eq_made ▸ wf_made _ _

theorem lookup_tables (pg : Page) : (tables.lookup pg).isSome ↔ pg.1 = 1023 := by
  rw [tables_eq_made, lookup_made]
  split
  · next hwindow => exact iff_of_true (.inr rfl) hwindow
  · next hne => exact iff_of_false (fun hand ↦ Bool.false_ne_true hand.2) hne

theorem fresh_tables : X86Fresh 0x3000 0x2000 tables := by
  refine ⟨wf_tables, by decide, by decide, by decide, by decide, fun d heq ↦ ?_⟩
  have h := @toNat_frameOf_dir_made (fun _ ↦ true) (fun _ ↦ false) d
  rw [← tables_eq_made, ← heq, if_pos rfl] at h
  have htwo : (0x2000 : UInt64).toUInt32.toNat = 0x2000 := by decide
  rw [htwo] at h
  split at h <;> omega

def frames : ℕ → UInt64 × UInt64 := fun i ↦ (UInt64.ofNat (0x1000000 + i * 0x1000), 0)

variable {i : ℕ}

theorem toNat_frames (hi : i ≤ 0x30000) : (frames i).1.toNat = 0x1000000 + i * 0x1000 := by
  refine UInt64.toNat_ofNat_of_lt' ?_
  show 0x1000000 + i * 0x1000 < 2 ^ 64
  omega

theorem good_frames (m : Vmem) (hi : i ≤ 0x30000) : X86Good m (frames i) := by
  refine ⟨fun _ ↦ ?_, fun h ↦ absurd rfl h⟩
  have h := toNat_frames hi
  rw [IsFrame, ← UInt64.toNat_inj, UInt32.toNat_toUInt64, toNat_frameOf, UInt64.toNat_toUInt32, h]
  omega

variable {m : Vmem}

theorem growTurn_window (hwf : WF m) (hwindow : ∀ d, (m.lookup (1023, d)).isSome) (hi : i < 0x30000)
    (v : UInt32) :
    ∃ m', growTurn (x86 0x3000 0x2000) frames m (i, v) = some m' ∧ WF m' ∧
      ∀ pg, (m.lookup pg).isSome → (m'.lookup pg).isSome := by
  have hismapped := hwf.archVmemIsmapped v
  cases hlookup : (m.lookup (page v)).isSome with
  | true =>
    rw [hlookup] at hismapped
    refine ⟨m, ?_, hwf, fun _ h ↦ h⟩
    simp only [growTurn, x86, hismapped, bind_eq_bind, bind_some, if_true]
  | false =>
    rw [hlookup] at hismapped
    have hv : v < 0xFFC00000 := by
      by_contra hge
      have hlast : dirIndex v = 1023 := Fin.ext (by
        have hge' : 0xFFC00000 ≤ v.toNat := UInt32.le_iff_toNat_le.mp (UInt32.not_lt.mp hge)
        have hlt := v.toNat_lt
        show v.toNat / 2 ^ 22 = 1023
        omega)
      have hmapped := hwindow (tabIndex v)
      rw [← hlast] at hmapped
      exact absurd (hlookup.symm.trans hmapped) (by decide)
    have hne : (frames (i + 1)).1 ≠ 0 := by
      intro hzero
      have h := toNat_frames (i := i + 1) (by omega)
      rw [hzero, UInt64.toNat_zero] at h
      omega
    obtain ⟨m', hmap, hwf', hspace⟩ := x86_map_spec hwf hv (good_frames m (by omega)) (.inr hne)
    have hframe : m'.lookup = _ := congrArg Space.frame hspace
    refine ⟨m', ?_, hwf', fun pg hmapped ↦ ?_⟩
    · simp only [growTurn, x86, hismapped, bind_eq_bind, bind_some,
        Bool.false_eq_true, if_false, hmap]
    · rw [hframe]
      exact Space.isSome_step_map hmapped

theorem grow_window (hwf : WF m) (hwindow : ∀ d, (m.lookup (1023, d)).isSome)
    {n : UInt32} (hn : 0xD0000000 + n.toNat + 0x1000 ≤ 2 ^ 32) :
    ∃ m', grow (x86 0x3000 0x2000) ⟨m, 0xD0000000⟩ n frames = some ⟨m', 0xD0000000 + n⟩ ∧ WF m' ∧
      ∀ pg, (m.lookup pg).isSome → (m'.lookup pg).isSome := by
  have hbase : (0xD0000000 : UInt32).toNat = 0xD0000000 := by decide
  obtain ⟨m', hexec, hwf', hkeeps⟩ : ∃ m', Run.exec (growTurn (x86 0x3000 0x2000) frames) m
      ((range (turnsFor 0xD0000000 (0xD0000000 + n.toNat) n.toNat)).map (upward 0xD0000000)) =
        some m' ∧ WF m' ∧ ∀ pg, (m.lookup pg).isSome → (m'.lookup pg).isSome := by
    refine Run.exec_range
      (motive := fun _ m' ↦ WF m' ∧ ∀ pg, (m.lookup pg).isSome → (m'.lookup pg).isSome)
      ⟨hwf, fun _ h ↦ h⟩ (fun i m1 hi h _ ↦ ?_) (Run.guarded_true _ _)
    have hturns : i < 0x30000 := by
      rw [turnsFor] at hi
      split at hi <;> omega
    obtain ⟨m2, hturn, hwf2, hkeeps⟩ :=
      growTurn_window h.1 (fun d ↦ h.2 _ (hwindow d)) hturns (upward 0xD0000000 i).2
    exact ⟨m2, hturn, hwf2, fun pg hmapped ↦ hkeeps pg (h.2 pg hmapped)⟩
  refine ⟨m', ?_, hwf', hkeeps⟩
  rw [grow_eq frames (by rw [hbase]; exact hn), hbase, hexec, map_some]

def withoutTable (m : Vmem) : Vmem := m.setPte 0xFFF40000 (m.mmu.dir 832 &&& ~~~0x01)

theorem archVmemUnmap_window (hwf : WF m) (hmapped : (m.lookup (page 0xFFF40000)).isSome) :
    m.archVmemUnmap 0xFFF40000 = some (withoutTable m) := by
  have hismapped : m.archVmemIsmapped 0xFFF40000 = some true := by
    rw [hwf.archVmemIsmapped, hmapped]
  have hlast : frameOf (m.mmu.dir (dirIndex 0xFFF40000)) ≠ 0 := (lookup_isSome.mp hmapped).1
  have hpte : m.mmu.pte (dirIndex 0xFFF40000) (tabIndex 0xFFF40000) = m.mmu.dir 832 :=
    hwf.recursive.pte_last 832
  simp only [archVmemUnmap, hismapped, bind_eq_bind, bind_some, if_true,
    hwf.load_ptabSlot hlast, hpte, hwf.store_ptabSlot hlast, withoutTable]

theorem walk_withoutTable (hwf : WF m) : (withoutTable m).mmu.walk false 0xD0000000 = none := by
  have hdir : (withoutTable m).mmu.dir (dirIndex 0xD0000000) = m.mmu.dir 832 &&& ~~~0x01 := by
    show (m.mmu.set (frameOf (m.mmu.dir 1023)) 832 _).mem (frameOf m.mmu.cr3) 832 = _
    rw [Mmu.mem_set, if_pos ⟨hwf.recursive.self.symm, rfl⟩]
  have hnot : ¬ Mmu.Permits false ((withoutTable m).mmu.dir (dirIndex 0xD0000000)) := by
    rw [hdir]
    exact fun h ↦ not_present_and (by decide) h.1
  rw [Mmu.walk, if_pos hnot]

theorem isSome_walk (hwf : WF m) {v : UInt32} (hv : (m.lookup (page v)).isSome) :
    (m.mmu.walk false v).isSome := by
  obtain ⟨hd, hp⟩ := lookup_isSome.mp hv
  have htable : Mmu.IsTable (m.mmu.dir (dirIndex v)) := hwf.isTable hd
  have hpermits : Mmu.Permits false (m.mmu.pte (dirIndex v) (tabIndex v)) := ⟨hp, nofun⟩
  rw [Mmu.walk, if_neg (not_not.mpr (htable.permits false)), if_neg htable.small, if_pos hpermits]
  rfl

theorem shrink_window (hwf : WF m) (hmapped : (m.lookup (page 0xFFF40000)).isSome) :
    ∃ p, dlmallocSbrk (x86 0x3000 0x2000) ⟨m, 0xFFF40000⟩ ⟨-0x1000, noMemory⟩ =
      some (0xFFF3F000, ⟨withoutTable m, 0xFFF3F000⟩, [(0xFFF40000, p)]) := by
  obtain ⟨f, hf⟩ := isSome_iff_exists.mp hmapped
  have hismapped : m.archVmemIsmapped 0xFFF40000 = some true := by
    rw [hwf.archVmemIsmapped, hmapped]
  have hturn : shrinkTurn (x86 0x3000 0x2000) (m, []) 0xFFF40000 = some (withoutTable m,
      [(0xFFF40000, f.toUInt64 ||| (0xFFF40000 &&& 0xFFF : UInt32).toUInt64)]) := by
    simp only [shrinkTurn, x86, hismapped, hwf.archVmemV2p hf, archVmemUnmap_window hwf hmapped,
      bind_eq_bind, bind_some, if_true, nil_append]
  have hbase : (0xFFF40000 : UInt32) - 0x1000 = 0xFFF3F000 := by decide
  rw [← hbase]
  refine ⟨_, @dlmallocSbrk_of_onePage Vmem (x86 0x3000 0x2000) ⟨m, 0xFFF40000⟩ ⟨m, 0xFFF40000⟩
    ⟨-0x1000, noMemory⟩ _ _ rfl rfl ?_ hturn⟩
  show 0x2000 ≤ (0xFFF40000 : UInt32).toNat
  decide

/-- **The first page of the heap is lost.**  The break is moved up into the window of the page
tables and down by a page, by which the page table for the heap is unmapped. -/
theorem not_trimmed_window :
    (∀ v : UInt32, v < 0xFFC00000 → tables.archVmemIsmapped v = some false) ∧ ∃ m m' p,
    Run.exec (step (x86 0x3000 0x2000)) ⟨tables, 0⟩ [⟨0x2FF40000, frames⟩] =
      some ⟨m, 0xFFF40000⟩ ∧
    dlmallocSbrk (x86 0x3000 0x2000) ⟨m, 0xFFF40000⟩ ⟨-0x1000, noMemory⟩ =
      some (0xFFF3F000, ⟨m', 0xFFF3F000⟩, [(0xFFF40000, p)]) ∧
    (m.mmu.walk false 0xD0000000).isSome ∧ m'.mmu.walk false 0xD0000000 = none := by
  refine ⟨fun v hv ↦ ?_, ?_⟩
  · rw [wf_tables.archVmemIsmapped]
    exact congrArg some (Bool.eq_false_iff.mpr fun h ↦ dirIndex_ne hv ((lookup_tables _).mp h))
  obtain ⟨m1, hmap, hwf1, hkeeps1, hframe1⟩ :=
    x86_mapFirst fresh_tables (good_frames tables (Nat.zero_le _))
  have hwindow : ∀ d, (m1.lookup (1023, d)).isSome := fun d ↦ hkeeps1 _ ((lookup_tables _).mpr rfl)
  have hfirst : (m1.lookup (page 0xD0000000)).isSome := by
    have h := hframe1 ((0xD0000000 : UInt32).toNat / 0x1000) (by decide)
    rw [x86Frame_self, if_pos rfl] at h
    rw [← isSome_map, h]
    rfl
  have hstart : start (x86 0x3000 0x2000) ⟨tables, 0⟩ (frames 0) = some ⟨m1, 0xD0000000⟩ := by
    rw [start, if_pos rfl]
    exact bind_eq_some_iff.mpr ⟨_, hmap, rfl⟩
  have hincr : (0x2FF40000 : Int32).toUInt32 = 0x2FF40000 := by decide
  have hbase : (0xD0000000 : UInt32) + 0x2FF40000 = 0xFFF40000 := by decide
  obtain ⟨m, hgrow, hwf, hkeeps⟩ := grow_window (n := 0x2FF40000) hwf1 hwindow (by decide)
  rw [hbase] at hgrow
  have hstep : step (x86 0x3000 0x2000) ⟨tables, 0⟩ ⟨0x2FF40000, frames⟩ =
      some ⟨m, 0xFFF40000⟩ := by
    rw [step, dlmallocSbrk_of_start hstart, if_neg (by decide), if_neg (by decide), hincr, hgrow,
      map_some, map_some]
  obtain ⟨p, hshrink⟩ := shrink_window hwf (hkeeps _ (hwindow 832))
  refine ⟨m, withoutTable m, p, ?_, hshrink, isSome_walk hwf (hkeeps _ hfirst),
    walk_withoutTable hwf⟩
  exact Run.exec_cons_eq_some.mpr ⟨_, hstep, Run.exec_nil _⟩

end ForgeOS.Sbrk
