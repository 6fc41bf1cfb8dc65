import ForgeOS.Apic.Init
import ForgeOS.Lib.Run

/-!
# Which handler an interrupt gets to

`handle_ioapic_irq` takes the vector, less `IOAPIC_INT_BASE`, for the number of the pin, which is
right for the first I/O APIC alone; and `apic_interrupt_reg` chooses the I/O APIC before it looks
for an override.

The main result is `routed_of_direct`.
-/

namespace ForgeOS.Apic

open Bits Function List Option

variable {F P : Type}

structure Request (F P : Type) where
  n : ℕ
  leveltrig : UInt32
  handler : F
  param : P

def step (s : Apic F P) (r : Request F P) : Option (Apic F P) :=
  s.apicInterruptReg r.n r.leveltrig r.handler r.param

/-- The global number of the line that a source interrupt is wired to. -/
def line (overrides : ℕ → Option Override) (n : ℕ) : ℕ := ((overrides n).map Override.newirq).getD n

/-- What there is on a line: the handler with its parameter, and the redirection entry. -/
structure Line (F P : Type) where
  called : Option (F × P)
  entry : UInt32

def rewire (overrides : ℕ → Option Override) (lines : ℕ → Line F P) (r : Request F P) :
    ℕ → Line F P :=
  let g := line overrides r.n
  Function.update lines g
    ⟨some (r.handler, r.param), redirect (overrides r.n) r.leveltrig (lines g).entry⟩

def Ioapic.Covers (a : Ioapic F P) (g : ℕ) : Prop := a.irqbase ≤ g ∧ g < a.irqbase + a.intcount

instance Ioapic.Covers.decidable (a : Ioapic F P) (g : ℕ) : Decidable (a.Covers g) :=
  inferInstanceAs (Decidable (_ ∧ _))

def bareLines (s : Apic F P) (g : ℕ) : Line F P :=
  match s.ioapicList.find? fun a ↦ a.Covers g with
  | some a => ⟨none, a.reg (redirLow (g - a.irqbase))⟩
  | none => ⟨none, 0⟩

/-- What the firmware and the devices promise: the redirection registers of an I/O APIC have a
number each, the ranges of lines are ranges of 32-bit numbers and are disjoint, and there are
vectors for all pins below the one for spurious interrupts. -/
structure Proper (s : Apic F P) : Prop where
  pins : ∀ a ∈ s.ioapicList, a.intcount ≤ 120
  range : ∀ a ∈ s.ioapicList, a.irqbase + a.intcount < 2 ^ 32
  disjoint : s.ioapicList.Pairwise fun a b ↦
    a.irqbase + a.intcount ≤ b.irqbase ∨ b.irqbase + b.intcount ≤ a.irqbase
  vectors : ioapicIntBase + (s.ioapicList.map Ioapic.intcount).sum ≤ 0xFF

structure Wired (lines : ℕ → Line F P) (a₀ a : Ioapic F P) : Prop where
  ranges : SameRanges a₀ a
  entry : ∀ i < a.intcount, a.reg (redirLow i) = (lines (a.irqbase + i)).entry
  vector : ∀ i < a.intcount, a.vector i = a₀.vector i
  other : ∀ r, (∀ i < a.intcount, r ≠ redirLow i) → a.reg r = a₀.reg r

/-- **The interrupts get to the handlers of their lines**, and the redirection entries are those of
the lines, with the vectors that were programmed at first. -/
structure Routed (s₀ s : Apic F P) (lines : ℕ → Line F P) : Prop where
  wired : List.Forall₂ (Wired lines) s₀.ioapicList s.ioapicList
  handled : ∀ a ∈ s.ioapicList, ∀ i < a.intcount,
    s.handleIoapicIrq (a.vector i) = some (lines (a.irqbase + i)).called

/-- The condition on a registration: the source and its line are both on the first I/O APIC of the
list, or are on none. -/
def Direct (s : Apic F P) (r : Request F P) : Prop :=
  (∃ a ∈ s.ioapicList.head?, a.Covers r.n ∧ a.Covers (line s.interruptOverride r.n)) ∨
    ∀ a ∈ s.ioapicList, ¬ a.Covers r.n ∧ ¬ a.Covers (line s.interruptOverride r.n)

instance Direct.decidable (s : Apic F P) (r : Request F P) : Decidable (Direct s r) :=
  inferInstanceAs (Decidable (_ ∨ _))

variable {a : Ioapic F P} {g : ℕ}

theorem not_covers_of_disjoint {b : Ioapic F P}
    (h : a.irqbase + a.intcount ≤ b.irqbase ∨ b.irqbase + b.intcount ≤ a.irqbase)
    (hg : a.Covers g) : ¬ b.Covers g := by
  rw [Ioapic.Covers] at hg ⊢
  omega

variable {l : List (Ioapic F P)}

theorem find?_covers (h : l.Pairwise fun a b ↦
      a.irqbase + a.intcount ≤ b.irqbase ∨ b.irqbase + b.intcount ≤ a.irqbase) (ha : a ∈ l)
    (hg : a.Covers g) : (l.find? fun b ↦ b.Covers g) = some a := by
  induction l with
  | nil => exact absurd ha not_mem_nil
  | cons b l ih =>
    rw [pairwise_cons] at h
    rcases mem_cons.mp ha with rfl | ha
    · rw [find?_cons_of_pos (by simpa using hg)]
    · have hb : ¬ b.Covers g := not_covers_of_disjoint (h.1 a ha).symm hg
      rw [find?_cons_of_neg (by simpa using hb)]
      exact ih h.2 ha

variable {i : ℕ}

theorem bareLines_pin {s : Apic F P} (hs : Proper s) (ha : a ∈ s.ioapicList) (hi : i < a.intcount) :
    bareLines s (a.irqbase + i) = ⟨none, a.reg (redirLow i)⟩ := by
  have hg : a.Covers (a.irqbase + i) := ⟨by omega, by omega⟩
  rw [bareLines, find?_covers hs.disjoint ha hg]
  show (⟨none, a.reg (redirLow (a.irqbase + i - a.irqbase))⟩ : Line F P) = _
  rw [Nat.add_sub_cancel_left]

/-! ## The invariant -/

structure Manned (lines : ℕ → Line F P) (a : Ioapic F P) : Prop where
  length : a.handlers.length = a.intcount
  called : ∀ i h, a.handlers[i]? = some h →
    (h.handler.map fun f ↦ (f, h.param)) = (lines (a.irqbase + i)).called

structure Inv (s₀ s : Apic F P) (lines : ℕ → Line F P) : Prop where
  overrides : s.interruptOverride = s₀.interruptOverride
  wired : List.Forall₂ (Wired lines) s₀.ioapicList s.ioapicList
  manned : ∀ a ∈ s.ioapicList, Manned lines a
  vacant : ∀ a ∈ s.ioapicList.tail, Vacant a

variable {l0 l : List (Ioapic F P)} {lines : ℕ → Line F P}

theorem layout_of_wired (hw : List.Forall₂ (Wired lines) l0 l) {intnum : ℕ}
    (h : Layout intnum l0) : Layout intnum l := by
  induction hw generalizing intnum with
  | nil => trivial
  | cons hab _ ih =>
    obtain ⟨hbase, hvec, hrest⟩ := h
    refine ⟨hab.ranges.intbase.trans hbase, ?_, ?_⟩
    · intro i hi
      rw [hab.vector i hi, hvec i (hab.ranges.intcount ▸ hi), hab.ranges.intbase]
    · rw [hab.ranges.intcount]
      exact ih hrest

theorem Vacant.called (h : Vacant a) (hm : Manned lines a) (hi : i < a.intcount) :
    (lines (a.irqbase + i)).called = none := by
  obtain ⟨x, hx⟩ : ∃ x, a.handlers[i]? = some x := ⟨_, getElem?_eq_getElem (h.length ▸ hi)⟩
  rw [← hm.called i x hx, h.handler x (mem_of_getElem? hx)]
  rfl

theorem Ioapic.vector_lt (a : Ioapic F P) (i : ℕ) : a.vector i < 256 := by
  rw [Ioapic.vector, toNat_lowByte]
  exact Nat.mod_lt _ (by decide)

def Ioapic.Takes (a : Ioapic F P) (x : ℕ) : Prop := a.intbase ≤ x ∧ a.intcount > x - ioapicIntBase

instance Ioapic.Takes.decidable (a : Ioapic F P) (x : ℕ) : Decidable (a.Takes x) :=
  inferInstanceAs (Decidable (_ ∧ _))

section

variable {s : Apic F P} {x : ℕ}

theorem sub_ioapicIntBase (hx : ioapicIntBase ≤ x) (hx' : x < 256) :
    (x + (2 ^ 32 - ioapicIntBase)) % 2 ^ 32 = x - ioapicIntBase := by
  rw [ioapicIntBase] at hx ⊢
  omega

theorem handleIoapicIrq_of_none (hx : ioapicIntBase ≤ x) (hx' : x < 256)
    (h : (s.ioapicList.find? fun a ↦ a.Takes x) = none) : s.handleIoapicIrq x = some none := by
  rw [handleIoapicIrq, sub_ioapicIntBase hx hx']
  split
  next hf => rfl
  next a hf => exact absurd (hf.symm.trans h) nofun

theorem handleIoapicIrq_of_some (hx : ioapicIntBase ≤ x) (hx' : x < 256)
    (h : (s.ioapicList.find? fun a ↦ a.Takes x) = some a) {y : IrqHandler F P}
    (hy : a.handlers[x - ioapicIntBase]? = some y) :
    s.handleIoapicIrq x = some (y.handler.map fun f ↦ (f, y.param)) := by
  rw [handleIoapicIrq, sub_ioapicIntBase hx hx']
  split
  next hf => exact absurd (hf.symm.trans h) nofun
  next b hf =>
    obtain rfl : b = a := some.inj (hf.symm.trans h)
    rw [hy, map_some]

end

variable {s₀ : Apic F P}

theorem Inv.handled {s : Apic F P} (h : Inv s₀ s lines) (hlay : Layout ioapicIntBase s.ioapicList) :
    ∀ a ∈ s.ioapicList, ∀ i < a.intcount,
      s.handleIoapicIrq (a.vector i) = some (lines (a.irqbase + i)).called := by
  intro a ha i hi
  obtain ⟨hbase, hvec⟩ := hlay.intbase_le a ha
  have hx := hvec i hi
  have hlo : ioapicIntBase ≤ a.vector i := by omega
  obtain ⟨b, rest, hlist⟩ := exists_cons_of_ne_nil (ne_nil_of_mem ha)
  have hmanned := h.manned
  have hvacant := h.vacant
  rw [hlist] at ha hlay hmanned hvacant
  rcases mem_cons.mp ha with rfl | ha
  · -- On the first I/O APIC the vector, less the base, is the number of the pin.
    have hfirst := hlay.1
    have hpin : a.vector i - ioapicIntBase = i := by omega
    have htakes : a.Takes (a.vector i) := ⟨by omega, by omega⟩
    have hm := hmanned a (mem_cons_self ..)
    obtain ⟨y, hy⟩ : ∃ y, a.handlers[i]? = some y := ⟨_, getElem?_eq_getElem (hm.length ▸ hi)⟩
    have hfind : (s.ioapicList.find? fun c ↦ c.Takes (a.vector i)) = some a := by
      rw [hlist, find?_cons_of_pos (by simpa using htakes)]
    rw [handleIoapicIrq_of_some hlo (a.vector_lt i) hfind (hpin.symm ▸ hy), hm.called i y hy]
  · -- On the others it is the number of a pin without a handler, or of none.
    have hge := (hlay.2.2.intbase_le a ha).1
    have hskip : ¬ b.Takes (a.vector i) := by
      rintro ⟨-, hcount⟩
      omega
    have hfind : (s.ioapicList.find? fun c ↦ c.Takes (a.vector i)) =
        rest.find? fun c ↦ c.Takes (a.vector i) := by
      rw [hlist, find?_cons_of_neg (by simpa using hskip)]
    rw [(hvacant a ha).called (hmanned a (mem_cons_of_mem _ ha)) hi]
    cases hc : rest.find? fun c ↦ c.Takes (a.vector i) with
    | none => exact handleIoapicIrq_of_none hlo (a.vector_lt i) (hfind.trans hc)
    | some c =>
      have hmem := mem_of_find?_eq_some hc
      have htakes : c.Takes (a.vector i) := by simpa using find?_some hc
      have hget := getElem?_eq_getElem ((hvacant c hmem).length ▸ htakes.2)
      rw [handleIoapicIrq_of_some hlo (a.vector_lt i) (hfind.trans hc) hget,
        (hvacant c hmem).handler _ (getElem_mem _), map_none]

variable {lines' : ℕ → Line F P}

theorem Wired.congr {a₀ : Ioapic F P} (h : Wired lines a₀ a)
    (hl : ∀ g, a.Covers g → lines' g = lines g) : Wired lines' a₀ a := by
  refine ⟨h.ranges, ?_, h.vector, h.other⟩
  intro i hi
  rw [h.entry i hi, hl _ ⟨by omega, by omega⟩]

theorem Manned.congr (h : Manned lines a)
    (hl : ∀ g, a.Covers g → lines' g = lines g) : Manned lines' a := by
  refine ⟨h.length, ?_⟩
  intro i x hx
  have hi : i < a.intcount := h.length ▸ (List.getElem?_eq_some_iff.mp hx).1
  rw [h.called i x hx, hl _ ⟨by omega, by omega⟩]

def Ioapic.installed (a : Ioapic F P) (pin : ℕ) (h : IrqHandler F P) (x : UInt32) : Ioapic F P :=
  Ioapic.write { a with handlers := a.handlers.set pin h } (redirLow pin) x

section

variable {lines : ℕ → Line F P} {a₀ a : Ioapic F P} {pin : ℕ} {f : F} {p : P} {n : ℕ}

theorem Wired.installed (h : Wired lines a₀ a) (hcount : a.intcount ≤ 120) (hpin : pin < a.intcount)
    (hd : IrqHandler F P) (c : Option (F × P)) {x : UInt32}
    (hx : x &&& 0xFF = a.reg (redirLow pin) &&& 0xFF) :
    Wired (Function.update lines (a.irqbase + pin) ⟨c, x⟩) a₀ (a.installed pin hd x) := by
  refine ⟨⟨h.ranges.irqbase, h.ranges.intbase, h.ranges.intcount⟩, ?_, ?_, ?_⟩
  · intro i hi
    show update a.reg (redirLow pin) x (redirLow i) =
      (update lines (a.irqbase + pin) ⟨c, x⟩ (a.irqbase + i)).entry
    have hi : i < a.intcount := hi
    by_cases hip : i = pin
    · rw [hip, update_self, update_self]
    · have hne : redirLow i ≠ redirLow pin :=
          fun heq ↦ hip ((redirLow_inj (by omega) (by omega)).mp heq)
      have hne' : a.irqbase + i ≠ a.irqbase + pin := by omega
      rw [update_of_ne hne, update_of_ne hne', h.entry i hi]
  · intro i hi
    have hi : i < a.intcount := hi
    rw [← h.vector i hi]
    show (update a.reg (redirLow pin) x (redirLow i) &&& 0xFF).toNat = a.vector i
    by_cases hip : i = pin
    · rw [hip, update_self, hx, Ioapic.vector]
    · rw [update_of_ne fun heq ↦ hip ((redirLow_inj (by omega) (by omega)).mp heq),
        Ioapic.vector]
  · intro r hr
    rw [← h.other r hr]
    exact update_of_ne (hr pin hpin) ..

theorem Manned.installed (h : Manned lines a) (x : UInt32) :
    Manned (Function.update lines (a.irqbase + pin) ⟨some (f, p), x⟩)
      (a.installed pin ⟨some f, p, n⟩ x) := by
  refine ⟨length_set.trans h.length, ?_⟩
  intro i y hy
  have hy : (a.handlers.set pin ⟨some f, p, n⟩)[i]? = some y := hy
  show _ = (update lines (a.irqbase + pin) ⟨some (f, p), x⟩ (a.irqbase + i)).called
  by_cases hip : pin = i
  · subst hip
    have hlt : pin < a.handlers.length := by
      have := (List.getElem?_eq_some_iff.mp hy).1
      rwa [length_set] at this
    rw [getElem?_set_self hlt] at hy
    obtain rfl := some.inj hy
    rw [update_self]
    rfl
  · rw [getElem?_set_ne hip] at hy
    rw [update_of_ne (by omega)]
    exact h.called i y hy

end

theorem updateIoapic_of_not_covers {n : ℕ} {f : Ioapic F P → Option (Ioapic F P)}
    (hrange : ∀ a ∈ l, a.irqbase + a.intcount < 2 ^ 32) (h : ∀ a ∈ l, ¬ a.Covers n) :
    updateIoapic n f l = some l := by
  induction l with
  | nil => rfl
  | cons a l ih =>
    have hmod := Nat.mod_eq_of_lt (hrange a (mem_cons_self ..))
    have hne : ¬ (a.irqbase ≤ n ∧ (a.irqbase + a.intcount) % 2 ^ 32 > n) := by
      rw [hmod]
      exact h a (mem_cons_self ..)
    rw [updateIoapic, if_neg hne, ih (fun b hb ↦ hrange b (mem_cons_of_mem _ hb))
      fun b hb ↦ h b (mem_cons_of_mem _ hb), map_some]

def Ioapic.range (a : Ioapic F P) : ℕ × ℕ := (a.irqbase, a.intcount)

theorem map_range_of_wired (hw : List.Forall₂ (Wired lines) l0 l) :
    l.map Ioapic.range = l0.map Ioapic.range := by
  induction hw with
  | nil => rfl
  | cons hab _ ih =>
    rw [map_cons, map_cons, ih, Ioapic.range, hab.ranges.irqbase, hab.ranges.intcount,
      Ioapic.range]

theorem Proper.of_map_range {s : Apic F P} (h : Proper s₀)
    (he : s.ioapicList.map Ioapic.range = s₀.ioapicList.map Ioapic.range) : Proper s := by
  have hmem : ∀ a ∈ s.ioapicList, ∃ b ∈ s₀.ioapicList, b.irqbase = a.irqbase ∧ b.intcount =
      a.intcount := by
    intro a ha
    obtain ⟨b, hb, hba⟩ := mem_map.mp (he ▸ mem_map_of_mem ha)
    exact ⟨b, hb, congrArg Prod.fst hba, congrArg Prod.snd hba⟩
  refine ⟨?_, ?_, ?_, ?_⟩
  · intro a ha
    obtain ⟨b, hb, -, hcount⟩ := hmem a ha
    exact hcount ▸ h.pins b hb
  · intro a ha
    obtain ⟨b, hb, hbase, hcount⟩ := hmem a ha
    exact hbase ▸ hcount ▸ h.range b hb
  · let R : ℕ × ℕ → ℕ × ℕ → Prop := fun x y ↦
      x.1 + x.2 ≤ y.1 ∨ y.1 + y.2 ≤ x.1
    have h0 : (s₀.ioapicList.map Ioapic.range).Pairwise R := pairwise_map.mpr h.disjoint
    rw [← he] at h0
    exact pairwise_map.mp h0
  · have hsum : ∀ l : List (Ioapic F P), l.map Ioapic.intcount =
        (l.map Ioapic.range).map Prod.snd := by
      intro l
      rw [List.map_map]
      rfl
    rw [hsum, he, ← hsum]
    exact h.vectors

theorem wired_congr (hw : List.Forall₂ (Wired lines) l0 l)
    (hl : ∀ a ∈ l, ∀ g, a.Covers g → lines' g = lines g) : List.Forall₂ (Wired lines') l0 l := by
  induction hw with
  | nil => exact .nil
  | cons hab _ ih =>
    exact .cons (hab.congr (hl _ (mem_cons_self ..)))
      (ih fun a ha ↦ hl a (mem_cons_of_mem _ ha))

variable {r : Request F P}

theorem step_eq {s : Apic F P} {rest : List (Ioapic F P)} (hlist : s.ioapicList = a :: rest)
    (hrange : a.irqbase + a.intcount < 2 ^ 32) (hm : a.handlers.length = a.intcount)
    (hn : a.Covers r.n) {pin : ℕ} (hpin : pin < a.intcount)
    (hg : line s.interruptOverride r.n = a.irqbase + pin) :
    s.step r = some { s with
      ioapicList := a.installed pin ⟨some r.handler, r.param, r.n⟩
        (redirect (s.interruptOverride r.n) r.leveltrig (a.reg (redirLow pin))) :: rest } := by
  have hfound : a.irqbase ≤ r.n ∧ (a.irqbase + a.intcount) % 2 ^ 32 > r.n := by
    rw [Nat.mod_eq_of_lt hrange]
    exact hn
  have hlocal : (((s.interruptOverride r.n).map Override.newirq).getD r.n +
      (2 ^ 32 - a.irqbase)) % 2 ^ 32 =
      pin := by
    rw [show ((s.interruptOverride r.n).map Override.newirq).getD r.n = a.irqbase + pin from hg]
    omega
  rw [step, apicInterruptReg, hlist, updateIoapic, if_pos hfound, hlocal, Ioapic.install,
    if_pos (hm ▸ hpin)]
  rfl

theorem Inv.step {s : Apic F P} (h : Inv s₀ s lines) (hs : Proper s) (hr : Direct s r) :
    ∃ t, s.step r = some t ∧ Inv s₀ t (rewire s₀.interruptOverride lines r) := by
  rw [← h.overrides]
  rcases hr with ⟨a, ha, hn, hg⟩ | hnone
  · obtain ⟨rest, hlist⟩ : ∃ rest, s.ioapicList = a :: rest := head?_eq_some_iff.mp ha
    have hmem : a ∈ s.ioapicList := hlist ▸ mem_cons_self ..
    have hdisj := hs.disjoint
    have hwired := h.wired
    have hmanned := h.manned
    rw [hlist, pairwise_cons] at hdisj
    rw [hlist] at hwired hmanned
    obtain ⟨a₀, rest0, hab, hw, hlist0⟩ := forall₂_cons_right_iff.mp hwired
    obtain ⟨pin, hpin⟩ := Nat.exists_eq_add_of_le hg.1
    have hlt : pin < a.intcount := by
      have := hg.2
      omega
    -- The other I/O APICs do not have the line.
    have hrest : ∀ b ∈ rest, ∀ g, b.Covers g → rewire s.interruptOverride lines r g = lines g := by
      intro b hb g hbg
      refine update_of_ne ?_ ..
      rintro rfl
      exact not_covers_of_disjoint (hdisj.1 b hb) hg hbg
    have hm := hmanned a (mem_cons_self ..)
    refine ⟨_, step_eq hlist (hs.range a hmem) hm.length hn hlt hpin, h.overrides, ?_, ?_, ?_⟩
    · rw [hlist0, rewire, hpin, ← hab.entry pin hlt]
      refine .cons (hab.installed (hs.pins a hmem) hlt _ _ (redirect_lowByte ..))
        (wired_congr hw ?_)
      rw [rewire, hpin, ← hab.entry pin hlt] at hrest
      exact hrest
    · intro b hb
      rcases mem_cons.mp hb with rfl | hb
      · rw [rewire, hpin, ← hab.entry pin hlt]
        exact hm.installed _
      · exact (hmanned b (mem_cons_of_mem _ hb)).congr (hrest b hb)
    · intro b hb
      refine h.vacant b ?_
      rw [hlist]
      exact hb
  · have hsame : s.step r = some s := by
      rw [Apic.step, apicInterruptReg,
        updateIoapic_of_not_covers hs.range fun a ha ↦ (hnone a ha).1]
      rfl
    have hlines : ∀ a ∈ s.ioapicList, ∀ g, a.Covers g →
        rewire s.interruptOverride lines r g = lines g := by
      intro a ha g hg
      refine update_of_ne ?_ ..
      rintro rfl
      exact (hnone a ha).2 hg
    exact ⟨s, hsame, h.overrides, wired_congr h.wired hlines,
      fun a ha ↦ (h.manned a ha).congr (hlines a ha), h.vacant⟩

/-! ## Whole runs -/

theorem inv_bareLines {s : Apic F P} (hs : Proper s) (hv : ∀ a ∈ s.ioapicList, Vacant a) :
    Inv s s (bareLines s) := by
  refine ⟨rfl, ?_, ?_, fun a ha ↦ hv a (mem_of_mem_tail ha)⟩
  · refine forall₂_same.mpr ?_
    intro a ha
    refine ⟨⟨rfl, rfl, rfl⟩, ?_, fun _ _ ↦ rfl, fun _ _ ↦ rfl⟩
    intro i hi
    rw [bareLines_pin hs ha hi]
  · intro a ha
    refine ⟨(hv a ha).length, ?_⟩
    intro i h hh
    have hi : i < a.intcount := (hv a ha).length ▸ (List.getElem?_eq_some_iff.mp hh).1
    rw [bareLines_pin hs ha hi, (hv a ha).handler h (mem_of_getElem? hh)]
    rfl

/-- **Direct registrations route the interrupts**: after any sequence of them, every pin's vector
gets to the handler registered for its line, and no other redirection entry has been modified. -/
theorem routed_of_direct [Zero P] {apicid : UInt8} {devices : UInt32 → UInt8 → UInt32}
    {madt : List Subtable} {s₀ : Apic F P} (hinit : initApic apicid devices madt = some s₀)
    (hs : Proper s₀) {rs : List (Request F P)} (hrs : Run.Guarded step Direct s₀ rs) :
    ∃ s, Run.exec step s₀ rs = some s ∧
      Routed s₀ s (rs.foldl (rewire s₀.interruptOverride) (bareLines s₀)) := by
  have hsum := hs.vectors
  obtain ⟨hlay, hvacant⟩ := initApic_eq_some hinit hs.pins (by omega)
  have hstep : ∀ s r lines, Inv s₀ s lines → Direct s r →
      ∃ t, s.step r = some t ∧ Inv s₀ t (rewire s₀.interruptOverride lines r) := by
    intro s r lines h hr
    exact h.step (hs.of_map_range (map_range_of_wired h.wired)) hr
  obtain ⟨s, hexec, hinv⟩ := Run.foldl_of_guarded hstep (inv_bareLines hs hvacant) hrs
  exact ⟨s, hexec, hinv.wired, hinv.handled (layout_of_wired hinv.wired hlay)⟩

def twoMadt : List Subtable := [.ioApic 1 2, .ioApic 0 0, .interruptOverride 0 1 0 (0, 0)]

/-- The state that `init_apic` leaves on this machine.  Every register of the devices has the value
`0x10000` at first: the entries are masked, and there are two pins. -/
def two : Apic ℕ ℕ := (initApic 0 (fun _ _ ↦ 0x10000) twoMadt).getD ⟨[], [], fun _ ↦ none⟩

theorem proper_two : Proper two := by
  refine ⟨?_, ?_, ?_, ?_⟩ <;> decide

theorem routed_two : let rs : List (Request ℕ ℕ) := [⟨0, 0, 7, 8⟩, ⟨5, 1, 9, 10⟩]
    initApic 0 (fun _ _ ↦ 0x10000) twoMadt = some two ∧ Proper two ∧
    Run.Guarded step Direct two rs ∧
      ∃ s, Run.exec step two rs = some s ∧
        Routed two s (rs.foldl (rewire two.interruptOverride) (bareLines two)) := by
  intro rs
  have hinit : initApic 0 (fun _ _ ↦ 0x10000) twoMadt = some two := rfl
  have hdirect : Run.Guarded step Direct two rs := by decide
  exact ⟨hinit, proper_two, hdirect, routed_of_direct hinit proper_two hdirect⟩

/-- A handler for the first pin of the second I/O APIC is not called. -/
theorem not_routed_second : let r : Request ℕ ℕ := ⟨2, 0, 7, 8⟩
    initApic 0 (fun _ _ ↦ 0x10000) twoMadt = some two ∧ Proper two ∧
      ∃ s, Run.exec step two [r] = some s ∧
        ¬ Routed two s ([r].foldl (rewire two.interruptOverride) (bareLines two)) := by
  intro r
  obtain ⟨s, hs⟩ := isSome_iff_exists.mp (show (Run.exec step two [r]).isSome by decide)
  refine ⟨rfl, proper_two, s, hs, ?_⟩
  have hlost : ∀ s ∈ Run.exec step two [r], ∃ a ∈ s.ioapicList, 0 < a.intcount ∧
      s.handleIoapicIrq (a.vector 0) ≠
        some (rewire two.interruptOverride (bareLines two) r (a.irqbase + 0)).called := by
    decide
  obtain ⟨a, ha, hpos, hne⟩ := hlost s hs
  intro h
  exact hne (h.handled a ha 0 hpos)

end ForgeOS.Apic
