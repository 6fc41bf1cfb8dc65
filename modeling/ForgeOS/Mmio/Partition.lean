import ForgeOS.Lib.Tiling
import ForgeOS.Mmio.Pages
import ForgeOS.Mmio.Regions

/-!
# The regions are a partition

In a pool whose range does not reach past the end of the address space, the regions follow one
another, and each request gets whole pages of its own, at the start of the one region that is free.

The main result is `always_sound`.
-/

namespace ForgeOS.MmioPool

open List Option

def Region.piece (r : Region) : ℕ × ℕ := (r.base.toNat, r.len.toNat)

def Partition (lo hi : ℕ) (s : MmioPool) : Prop :=
  ∃ rs : List Region, (∀ i, s.regionAt i = rs[i]?) ∧ Tiles lo (rs.map Region.piece) hi

namespace Grant

def Apart (g h : Grant) : Prop :=
  g.addr.toNat + g.size ≤ h.addr.toNat ∨ h.addr.toNat + h.size ≤ g.addr.toNat

def Mapped (m : Vmem.Space) (g : Grant) : Prop :=
  ∀ k < g.len.toNat,
    translate m (g.addr.toNat + g.tophys.toNat % 0x1000 + k) = some (g.tophys.toNat + k)

end Grant

def Allowed (s : MmioPool) (op : Op) : Prop :=
  s.Fresh op ∧ op.len.toNat + 2 * 0x1000 < 2 ^ 32 ∧ op.tophys.toNat + op.len.toNat ≤ 2 ^ 32

instance (s : MmioPool) (op : Op) : Decidable (s.Allowed op) :=
  inferInstanceAs (Decidable (_ ∧ _ ∧ _))

/-- What a call does.  It returns a page that starts a free region, apart from what earlier calls
have got, and maps the request there, or else it returns 0, because there is no free region of the
size, and changes nothing. -/
def Serves (s : MmioPool) (op : Op) : Prop :=
  ∃ ret s', s.call op = some (ret, s') ∧
    (ret ≠ 0 → ret.toNat % 0x1000 = 0 ∧
      (∃ i r, s.regionAt i = some r ∧ r.allocated = false ∧ r.base = ret ∧
        wholePages (extent op.len op.tophys) ≤ r.len.toNat) ∧
      (∀ g ∈ s.grants, g.Apart ⟨ret, op.len, op.tophys⟩) ∧
      Grant.Mapped s'.space ⟨ret, op.len, op.tophys⟩) ∧
    (ret = 0 → (∀ i r, s.regionAt i = some r → r.allocated = false →
      r.len.toNat < wholePages (extent op.len op.tophys)) ∧ s' = s)

/-- The regions are a partition into aligned ranges, and each call has got one of them to itself and
has its bytes mapped. -/
structure Inv (lo hi : ℕ) (s : MmioPool) (es : List Entry) (e : Entry) : Prop where
  holds : s.Holds es e
  tiles : Tiles lo ((es ++ [e]).map fun x ↦ x.region.piece) hi
  aligned : ∀ x ∈ es ++ [e], x.region.base.toNat % 0x1000 = 0
  granted : ∀ g ∈ s.grants, ∃ x ∈ es ++ [e],
    x.region.allocated = true ∧ x.region.piece = (g.addr.toNat, g.size)
  apart : s.grants.Pairwise Grant.Apart
  mapped : ∀ g ∈ s.grants, g.Mapped s.space

variable {s s' : MmioPool} {es : List Entry} {e : Entry} {op : Op} {lo hi : ℕ}

theorem Inv.partition (h : Inv lo hi s es e) : s.Partition lo hi := by
  refine ⟨(es ++ [e]).map Entry.region, fun i ↦ ?_, ?_⟩
  · rw [h.holds.lists.regionAt, getElem?_map]
  · rw [List.map_map]
    exact h.tiles

theorem Inv.last (h : Inv lo hi s es e) :
    Tiles lo (es.map fun x ↦ x.region.piece) e.region.base.toNat ∧
      e.region.base.toNat + e.region.len.toNat = hi := by
  have htiles := h.tiles
  rw [map_append, map_singleton, tiles_append] at htiles
  obtain ⟨mid, hes, heq, hlast⟩ := htiles
  have hbase : e.region.base.toNat = mid := heq
  exact ⟨hbase ▸ hes, hbase ▸ hlast⟩

theorem mem_of_allocated (hfree : e.region.allocated = false) {x : Entry} (hx : x ∈ es ++ [e])
    (halloc : x.region.allocated = true) : x ∈ es := by
  rcases mem_append.mp hx with hx | hx
  · exact hx
  · rw [mem_singleton.mp hx, hfree] at halloc
    cases halloc

theorem Inv.before (h : Inv lo hi s es e) (hfree : e.region.allocated = false) {g : Grant}
    (hg : g ∈ s.grants) : g.addr.toNat + g.size ≤ e.region.base.toNat := by
  obtain ⟨x, hx, halloc, hpiece⟩ := h.granted g hg
  have hxes := mem_of_allocated hfree hx halloc
  have hbounds := (h.last.1.bounds _ (mem_map_of_mem hxes)).2
  rw [hpiece] at hbounds
  exact hbounds

theorem Allowed.toNat_pageLen (hop : s.Allowed op) :
    (pageLen op.len op.tophys).toNat = wholePages (extent op.len op.tophys) := by
  obtain ⟨-, hlen, -⟩ := hop
  refine MmioPool.toNat_pageLen ?_
  unfold wholePages extent
  omega

theorem Inv.tiles_next (h : Inv lo hi s es e) (hhi : hi ≤ 2 ^ 32) {size : UInt32}
    (hle : size.toNat < e.region.len.toNat) (x : Entry)
    (hx : x.region = ⟨e.region.base, size, true⟩) (y : Entry)
    (hy : y.region = ⟨e.region.base + size, e.region.len - size, false⟩) :
    (e.region.base + size).toNat = e.region.base.toNat + size.toNat ∧
      Tiles lo ((es ++ [x] ++ [y]).map fun x ↦ x.region.piece) hi := by
  obtain ⟨hes, hlast⟩ := h.last
  have hadd : (e.region.base + size).toNat = e.region.base.toNat + size.toNat := by
    rw [UInt32.toNat_add]
    exact Nat.mod_eq_of_lt (by omega)
  have hsub : (e.region.len - size).toNat = e.region.len.toNat - size.toNat :=
    UInt32.toNat_sub_of_le _ _ (UInt32.le_iff_toNat_le.mpr hle.le)
  have hcut : [x, y].map (fun x ↦ x.region.piece) = [(e.region.base.toNat, size.toNat),
      (e.region.base.toNat + size.toNat, e.region.len.toNat - size.toNat)] := by
    simp only [map_cons, map_nil, hx, hy, Region.piece, hadd, hsub]
  refine ⟨hadd, ?_⟩
  rw [append_assoc, map_append, tiles_append]
  refine ⟨e.region.base.toNat, hes, ?_⟩
  rw [singleton_append, hcut, tiles_cut, tiles_singleton]
  exact ⟨rfl, by omega⟩

theorem Inv.pages_le (h : Inv lo hi s es e) (hhi : hi ≤ 2 ^ 32) (hop : s.Allowed op)
    (hle : (pageLen op.len op.tophys).toNat ≤ e.region.len.toNat) :
    e.region.base.toNat + (pageLen op.len op.tophys).toNat / 0x1000 * 0x1000 ≤ 2 ^ 32 ∧
      extent op.len op.tophys ≤ (pageLen op.len op.tophys).toNat / 0x1000 * 0x1000 := by
  have hlast := h.last.2
  have hround := le_wholePages (extent op.len op.tophys)
  have hpages := wholePages_mod (extent op.len op.tophys)
  rw [hop.toNat_pageLen] at hle ⊢
  omega

theorem Inv.mapped_take (h : Inv lo hi s es e) (hhi : hi ≤ 2 ^ 32) (hop : s.Allowed op)
    (hfree : e.region.allocated = false)
    (hle : (pageLen op.len op.tophys).toNat ≤ e.region.len.toNat) :
    ∀ g ∈ (⟨e.region.base, op.len, op.tophys⟩ :: s.grants : List Grant),
      g.Mapped (mapPages s.space e.region.base (physBase op.tophys)
        ((pageLen op.len op.tophys).toNat / 0x1000)) := by
  have hbase : e.region.base.toNat % 0x1000 = 0 := h.aligned e (by simp)
  obtain ⟨hcount, hextent⟩ := h.pages_le hhi hop hle
  intro g hg k hk
  rcases mem_cons.mp hg with rfl | hg
  · exact translate_mapPages s.space hbase hcount hextent hop.2.2 hk
  · -- The pages of an earlier call lie before the region.
    have hbefore := h.before hfree hg
    have hround := le_wholePages (extent g.len g.tophys)
    rw [Grant.size] at hbefore
    rw [extent] at hbefore hround
    rw [translate_mapPages_of_not s.space hbase hcount (by omega) (.inl (by omega))]
    exact h.mapped g hg k hk

theorem Inv.granted_take (h : Inv lo hi s es e) (hfree : e.region.allocated = false) {g : Grant}
    {x : Entry} (halloc : x.region.allocated = true)
    (hpiece : x.region.piece = (g.addr.toNat, g.size)) :
    ∀ g' ∈ g :: s.grants, ∃ y ∈ es ++ [x],
      y.region.allocated = true ∧ y.region.piece = (g'.addr.toNat, g'.size) := by
  intro g' hg
  rcases mem_cons.mp hg with rfl | hg
  · exact ⟨x, by simp, halloc, hpiece⟩
  · obtain ⟨y, hy, hyalloc, heq⟩ := h.granted g' hg
    exact ⟨y, mem_append_left _ (mem_of_allocated hfree hy hyalloc), hyalloc, heq⟩

theorem Inv.take (h : Inv lo hi s es e) (hhi : hi ≤ 2 ^ 32) (hop : s.Allowed op)
    (hyes : ¬ (e.region.allocated ∨ e.region.len < pageLen op.len op.tophys)) :
    ∃ s' es' e', s.call op = some (e.region.base, s') ∧ Inv lo hi s' es' e' ∧
      s'.grants = ⟨e.region.base, op.len, op.tophys⟩ :: s.grants := by
  have hfree : e.region.allocated = false := Bool.eq_false_iff.mpr fun halloc ↦ hyes (.inl halloc)
  have hle : (pageLen op.len op.tophys).toNat ≤ e.region.len.toNat :=
    Nat.le_of_not_lt fun hlt ↦ hyes (.inr (UInt32.lt_iff_toNat_lt.mpr hlt))
  obtain ⟨s', hcall, hlists, hspace, hgrants⟩ := h.holds.call_some hop.1 hyes
  generalize hx : ({ e with region := ⟨e.region.base, pageLen op.len op.tophys, true⟩ } : Entry) = x
    at hlists
  have hxregion : x.region = ⟨e.region.base, pageLen op.len op.tophys, true⟩ := hx ▸ rfl
  have halloc : x.region.allocated = true := by rw [hxregion]
  have hsize := hop.toNat_pageLen
  have hpiece : x.region.piece = (e.region.base.toNat, wholePages (extent op.len op.tophys)) := by
    rw [hxregion, Region.piece, hsize]
  have hgranted := h.granted_take (g := ⟨e.region.base, op.len, op.tophys⟩) hfree halloc hpiece
  have hmapped := h.mapped_take hhi hop hfree hle
  rw [← hgrants] at hgranted hmapped
  rw [← hspace] at hmapped
  have hapart : s'.grants.Pairwise Grant.Apart := by
    rw [hgrants]
    exact pairwise_cons.mpr ⟨fun g hg ↦ .inr (h.before hfree hg), h.apart⟩
  have hbase : e.region.base.toNat % 0x1000 = 0 := h.aligned e (by simp)
  have haligned : ∀ y ∈ es ++ [x], y.region.base.toNat % 0x1000 = 0 := by
    intro y hy
    rcases mem_append.mp hy with hy | hy
    · exact h.aligned y (mem_append_left _ hy)
    · rw [mem_singleton.mp hy, hxregion]
      exact hbase
  rcases h.holds.next halloc hlists with ⟨heq, hholds⟩ | ⟨hne, hholds⟩
  · refine ⟨s', es, x, hcall, ⟨hholds, ?_, haligned, hgranted, hapart, hmapped⟩, hgrants⟩
    obtain ⟨hes, hlast⟩ := h.last
    rw [map_append, map_singleton, tiles_append]
    refine ⟨_, hes, ?_⟩
    rw [hpiece, ← hsize, tiles_singleton, ← heq]
    exact ⟨rfl, hlast⟩
  · have hlt : (pageLen op.len op.tophys).toNat < e.region.len.toNat :=
      lt_of_le_of_ne hle fun heq ↦ hne (UInt32.toNat_inj.mp heq).symm
    obtain ⟨hadd, htiles⟩ := h.tiles_next hhi hlt x hxregion ⟨op.c, op.a, ⟨_, _, false⟩⟩ rfl
    refine ⟨s', es ++ [x], _, hcall,
      ⟨hholds, htiles, fun y hy ↦ ?_, fun g hg ↦ ?_, hapart, hmapped⟩, hgrants⟩
    · rcases mem_append.mp hy with hy | hy
      · exact haligned y hy
      · rw [mem_singleton.mp hy]
        show (e.region.base + pageLen op.len op.tophys).toNat % 0x1000 = 0
        rw [hadd, hsize, Nat.add_mod, hbase, wholePages_mod]
    · obtain ⟨y, hy, hrest⟩ := hgranted g hg
      exact ⟨y, mem_append_left _ hy, hrest⟩

theorem Inv.call (h : Inv lo hi s es e) (hlo : 0 < lo) (hhi : hi ≤ 2 ^ 32) (hop : s.Allowed op) :
    s.Serves op ∧ ∃ s', s.step op = some s' ∧ ∃ es' e', Inv lo hi s' es' e' := by
  have hat : ∀ i, s.regionAt i = (es ++ [e])[i]?.map Entry.region := h.holds.lists.regionAt
  have hsize := hop.toNat_pageLen
  by_cases hno : e.region.allocated ∨ e.region.len < pageLen op.len op.tophys
  · have hcall := h.holds.call_none hno
    refine ⟨⟨0, s, hcall, fun hne ↦ absurd rfl hne, fun _ ↦ ⟨fun i r hr hfree ↦ ?_, rfl⟩⟩, s, ?_,
      es, e, h⟩
    · rw [hat] at hr
      obtain ⟨x, hx, rfl⟩ := map_eq_some_iff.mp hr
      rcases mem_append.mp (mem_of_getElem? hx) with hx | hx
      · rw [h.holds.taken x hx] at hfree
        cases hfree
      · obtain rfl := mem_singleton.mp hx
        rw [← hsize]
        exact UInt32.lt_iff_toNat_lt.mp (hno.resolve_left (Bool.eq_false_iff.mp hfree))
    · rw [step, hcall, map_some]
  · obtain ⟨s', es', e', hcall, hinv, hgrants⟩ := h.take hhi hop hno
    have hfree : e.region.allocated = false := Bool.eq_false_iff.mpr fun halloc ↦ hno (.inl halloc)
    have hbase : e.region.base ≠ 0 := by
      intro hzero
      have hle := h.last.1.le
      rw [hzero] at hle
      exact absurd hle (Nat.not_le_of_lt hlo)
    refine ⟨⟨e.region.base, s', hcall, fun _ ↦ ⟨h.aligned e (by simp), ?_, fun g hg ↦ ?_, ?_⟩,
      fun hzero ↦ absurd hzero hbase⟩, s', ?_, es', e', hinv⟩
    · refine ⟨es.length, e.region, ?_, hfree, rfl, ?_⟩
      · rw [hat, getElem?_concat_length, map_some]
      · rw [← hsize]
        exact Nat.le_of_not_lt fun hlt ↦ hno (.inr (UInt32.lt_iff_toNat_lt.mpr hlt))
    · exact .inl (h.before hfree hg)
    · exact hinv.mapped _ (hgrants ▸ mem_cons_self ..)
    · rw [step, hcall, map_some]

structure Sound (lo hi : ℕ) (s : MmioPool) : Prop where
  partition : s.Partition lo hi
  apart : s.grants.Pairwise Grant.Apart
  mapped : ∀ g ∈ s.grants, g.Mapped s.space
  serves : ∀ op, s.Allowed op → s.Serves op

theorem Inv.sound (h : Inv lo hi s es e) (hlo : 0 < lo) (hhi : hi ≤ 2 ^ 32) : s.Sound lo hi where
  partition := h.partition
  apart := h.apart
  mapped := h.mapped
  serves := fun _ hop ↦ (h.call hlo hhi hop).1

theorem inv_initMmiopool (space : Vmem.Space) {a c : Ptr} {mmiobase : UInt32} (maxsz : UInt32)
    (ha : a ≠ 0) (hc : c ≠ 0) (junk : LList.Node Ptr) (haligned : mmiobase.toNat % 0x1000 = 0) :
    ∃ s, initMmiopool space a c junk mmiobase maxsz = some s ∧
      Inv mmiobase.toNat (mmiobase.toNat + maxsz.toNat) s [] ⟨c, a, ⟨mmiobase, maxsz, false⟩⟩ := by
  obtain ⟨s, hs, hholds, hgrants⟩ := holds_initMmiopool space mmiobase maxsz ha hc junk
  refine ⟨s, hs, hholds, ⟨rfl, rfl⟩, ?_, ?_, ?_, ?_⟩
  · intro x hx
    obtain rfl := mem_singleton.mp hx
    exact haligned
  all_goals simp [hgrants]

/-- **The pool is a partition and every request is served**, in every state of every run. -/
theorem always_sound (space : Vmem.Space) (a c : Ptr) (junk : LList.Node Ptr)
    (mmiobase maxsz : UInt32) (ha : a ≠ 0) (hc : c ≠ 0) (hbase : 0 < mmiobase.toNat)
    (haligned : mmiobase.toNat % 0x1000 = 0) (hfit : mmiobase.toNat + maxsz.toNat ≤ 2 ^ 32)
    (ops : List Op) :
    ∃ s₀, initMmiopool space a c junk mmiobase maxsz = some s₀ ∧
      (Run.Guarded step Allowed s₀ ops →
        Run.Always step (Sound mmiobase.toNat (mmiobase.toNat + maxsz.toNat)) s₀ ops) := by
  obtain ⟨s₀, hs0, hinv⟩ := inv_initMmiopool space maxsz ha hc junk haligned
  refine ⟨s₀, hs0, fun hops ↦ ?_⟩
  -- Along the run there are some regions of which the invariant holds.
  have halways : Run.Always step
      (fun s ↦ ∃ es e, Inv mmiobase.toNat (mmiobase.toNat + maxsz.toNat) s es e) s₀ ops := by
    refine Run.always_of_guarded ?_ ⟨_, _, hinv⟩ hops
    rintro s op ⟨es, e, h⟩ hop
    obtain ⟨-, s', hs', hinv'⟩ := h.call hbase hfit hop
    exact ⟨s', hs', hinv'⟩
  refine halways.mono ?_
  rintro s ⟨es, e, h⟩
  exact h.sound hbase hfit

def twoRequests : List Op :=
  [⟨3, 4, ⟨0, 0, 0⟩, 0x10, 0xFEC00FF8⟩, ⟨5, 6, ⟨0, 0, 0⟩, 0x1000, 0xFEE00000⟩]

theorem always_sound_twoRequests :
    ∃ s₀, initMmiopool ⟨fun _ ↦ none, 0⟩ 1 2 ⟨0, 0, 0⟩ 0xD0000000 0x3000 = some s₀ ∧
      Run.Guarded step Allowed s₀ twoRequests ∧
      Run.Always step (Sound 0xD0000000 0xD0003000) s₀ twoRequests := by
  obtain ⟨s₀, hs0, h⟩ := always_sound ⟨fun _ ↦ none, 0⟩ 1 2 ⟨0, 0, 0⟩ 0xD0000000 0x3000 (by decide)
    (by decide) (by decide) (by decide) (by decide) twoRequests
  have hops : Run.Guarded step Allowed s₀ twoRequests := by
    obtain rfl := some.inj hs0
    decide
  exact ⟨s₀, hs0, hops, h hops⟩

end ForgeOS.MmioPool
