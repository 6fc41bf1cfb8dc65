import Mathlib.Data.List.Nodup
import ForgeOS.Lib.Heap

/-!
# Linked segments of a heap

`Seg nx h a l q` says that following the link field `nx` from the pointer `a` goes through the
records `l` and arrives at the pointer `q`.
-/

universe u v

variable {A : Type u} [Zero A] {α : Type v} (nx pv : α → A)

def Seg (h : Heap A α) : A → List A → A → Prop
  | a, [], q => a = q
  | a, b :: l, q => a = b ∧ ∃ n, h.read a = some n ∧ Seg h (nx n) l q

def DSeg (h : Heap A α) : A → A → List A → A → Prop
  | _, a, [], q => a = q
  | p, a, b :: l, q => a = b ∧ ∃ n, h.read a = some n ∧ pv n = p ∧ DSeg h a (nx n) l q

variable {nx pv} {h h' : Heap A α} {a b p q m : A} {l l₁ l₂ : List A}

@[simp] theorem seg_nil : Seg nx h a [] q ↔ a = q := Iff.rfl

theorem seg_cons : Seg nx h a (b :: l) q ↔
    a = b ∧ ∃ n, h.read a = some n ∧ Seg nx h (nx n) l q := Iff.rfl

theorem seg_append : Seg nx h a (l₁ ++ l₂) q ↔ ∃ m, Seg nx h a l₁ m ∧ Seg nx h m l₂ q := by
  induction l₁ generalizing a with
  | nil => simp
  | cons b l₁ ih =>
    simp only [List.cons_append, seg_cons, ih]
    constructor
    · rintro ⟨rfl, n, hn, m, h1, h2⟩
      exact ⟨m, ⟨rfl, n, hn, h1⟩, h2⟩
    · rintro ⟨m, ⟨rfl, n, hn, h1⟩, h2⟩
      exact ⟨rfl, n, hn, m, h1, h2⟩

theorem Seg.frame (hl : ∀ x ∈ l, h'.read x = h.read x) (hs : Seg nx h a l q) : Seg nx h' a l q := by
  induction l generalizing a with
  | nil => exact hs
  | cons b l ih =>
    obtain ⟨rfl, n, hn, hs⟩ := hs
    exact ⟨rfl, n, (hl a (by simp)).trans hn, ih (fun x hx ↦ hl x (by simp [hx])) hs⟩

theorem Seg.read_isSome (hs : Seg nx h a l q) {x : A} (hx : x ∈ l) : ∃ n, h.read x = some n := by
  induction l generalizing a with
  | nil => simp at hx
  | cons b l ih =>
    obtain ⟨rfl, n, hn, hs⟩ := hs
    rcases List.mem_cons.mp hx with rfl | hx
    · exact ⟨n, hn⟩
    · exact ih hs hx

theorem Seg.ne_zero (hs : Seg nx h a l q) {x : A} (hx : x ∈ l) : x ≠ 0 := by
  obtain ⟨n, hn⟩ := hs.read_isSome hx
  exact Heap.ne_zero_of_read hn

theorem Seg.eq_nil_of_zero (hs : Seg nx h 0 l q) : l = [] := by
  cases l with
  | nil => rfl
  | cons b l =>
    obtain ⟨rfl, n, hn, -⟩ := hs
    exact absurd hn (by simp)

theorem Seg.exists_rest (h1 : Seg nx h a l₁ q) (h2 : Seg nx h a l₂ 0) :
    ∃ l, l₂ = l₁ ++ l ∧ Seg nx h q l 0 := by
  induction l₁ generalizing a l₂ with
  | nil => exact ⟨l₂, rfl, seg_nil.mp h1 ▸ h2⟩
  | cons b l₁ ih =>
    obtain ⟨rfl, n, hn, h1⟩ := h1
    cases l₂ with
    | nil =>
      obtain rfl := seg_nil.mp h2
      exact absurd hn (by simp)
    | cons c l₂ =>
      obtain ⟨rfl, n', hn', h2⟩ := h2
      obtain rfl : n = n' := Option.some.inj (hn.symm.trans hn')
      obtain ⟨l, rfl, hl⟩ := ih h1 h2
      exact ⟨l, rfl, hl⟩

theorem Seg.unique (h1 : Seg nx h a l₁ 0) (h2 : Seg nx h a l₂ 0) : l₁ = l₂ := by
  obtain ⟨l, rfl, hl⟩ := h1.exists_rest h2
  rw [hl.eq_nil_of_zero, List.append_nil]

theorem Seg.mem_of_ne_zero (h1 : Seg nx h a l₁ q) (h2 : Seg nx h a l₂ 0) (hq : q ≠ 0) : q ∈ l₂ := by
  obtain ⟨l, rfl, hl⟩ := h1.exists_rest h2
  cases l with
  | nil => exact absurd (seg_nil.mp hl) hq
  | cons b l => exact hl.1 ▸ List.mem_append_right _ List.mem_cons_self

theorem Seg.nodup (hs : Seg nx h a l 0) : l.Nodup := by
  induction l generalizing a with
  | nil => exact List.nodup_nil
  | cons b l ih =>
    have hb := hs
    obtain ⟨rfl, n, hn, hs⟩ := hs
    refine List.nodup_cons.mpr ⟨fun hmem ↦ ?_, ih hs⟩
    obtain ⟨l₁, l₂, rfl⟩ := List.append_of_mem hmem
    obtain ⟨m, -, hm⟩ := seg_append.mp hs
    obtain rfl : m = a := hm.1
    have hlen := congrArg List.length (hb.unique hm)
    simp at hlen
    omega

theorem Seg.next_of_infix {x y : A} (hs : Seg nx h a l q) (hxy : [x, y] <:+: l) :
    ∃ n, h.read x = some n ∧ nx n = y := by
  obtain ⟨s, t, rfl⟩ := hxy
  rw [List.append_assoc] at hs
  obtain ⟨m, -, hs⟩ := seg_append.mp hs
  obtain ⟨rfl, n, hn, rfl, -⟩ := hs
  exact ⟨n, hn, rfl⟩

theorem Seg.eq_head (hs : Seg nx h a (b :: l) q) : a = b := hs.1

@[simp] theorem dseg_nil : DSeg nx pv h p a [] q ↔ a = q := Iff.rfl

theorem dseg_cons : DSeg nx pv h p a (b :: l) q ↔
    a = b ∧ ∃ n, h.read a = some n ∧ pv n = p ∧ DSeg nx pv h a (nx n) l q := Iff.rfl

theorem DSeg.seg (hs : DSeg nx pv h p a l q) : Seg nx h a l q := by
  induction l generalizing p a with
  | nil => exact hs
  | cons b l ih =>
    obtain ⟨rfl, n, hn, -, hs⟩ := hs
    exact ⟨rfl, n, hn, ih hs⟩

theorem dseg_append : DSeg nx pv h p a (l₁ ++ l₂) q ↔
    ∃ m, DSeg nx pv h p a l₁ m ∧ DSeg nx pv h (l₁.getLastD p) m l₂ q := by
  induction l₁ generalizing p a with
  | nil => simp
  | cons b l₁ ih =>
    simp only [List.cons_append, dseg_cons, ih, List.getLastD_cons]
    constructor
    · rintro ⟨rfl, n, hn, hp, m, h1, h2⟩
      exact ⟨m, ⟨rfl, n, hn, hp, h1⟩, h2⟩
    · rintro ⟨m, ⟨rfl, n, hn, hp, h1⟩, h2⟩
      exact ⟨rfl, n, hn, hp, m, h1, h2⟩

theorem DSeg.frame (hl : ∀ x ∈ l, h'.read x = h.read x) (hs : DSeg nx pv h p a l q) :
    DSeg nx pv h' p a l q := by
  induction l generalizing p a with
  | nil => exact hs
  | cons b l ih =>
    obtain ⟨rfl, n, hn, hp, hs⟩ := hs
    exact ⟨rfl, n, (hl a (by simp)).trans hn, hp, ih (fun x hx ↦ hl x (by simp [hx])) hs⟩

theorem Seg.dseg (hs : Seg nx h a (b :: l) q) (hp : ∀ n, h.read a = some n → pv n = p)
    (hback : ∀ x y n, [x, y] <:+: b :: l → h.read y = some n → pv n = x) :
    DSeg nx pv h p a (b :: l) q := by
  induction l generalizing p a b with
  | nil =>
    obtain ⟨rfl, n, hn, hs⟩ := hs
    exact ⟨rfl, n, hn, hp n hn, hs⟩
  | cons c l ih =>
    obtain ⟨rfl, n, hn, hs⟩ := hs
    refine ⟨rfl, n, hn, hp n hn, ih hs (fun k hk ↦ ?_) fun x y k hxy ↦ ?_⟩
    · exact hback a c k ⟨[], l, rfl⟩ (hs.1 ▸ hk)
    · exact hback x y k (hxy.trans (List.suffix_cons a _).isInfix)

theorem DSeg.back (hs : DSeg nx pv h p a l q) {x y : A} (hxy : [x, y] <:+: l) :
    ∃ n k, h.read x = some n ∧ nx n = y ∧ h.read y = some k ∧ pv k = x := by
  obtain ⟨s, t, rfl⟩ := hxy
  rw [List.append_assoc] at hs
  obtain ⟨m, -, hs⟩ := dseg_append.mp hs
  obtain ⟨rfl, n, hn, -, rfl, k, hk, hkp, -⟩ := hs
  exact ⟨n, k, hn, rfl, hk, hkp⟩
