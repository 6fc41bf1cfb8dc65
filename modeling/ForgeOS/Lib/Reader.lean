import Mathlib.Data.List.Infix
import ForgeOS.Lib.Run

/-!
# Readers of a terminated text

A reader is a function `List χ → Option (α × List χ)`, with `none` for an access behind the end of
the list.
-/

namespace Reader

open List

variable {χ α β σ : Type*} {stop : χ} {R : List χ → Option (α × List χ)}

/-- A reader that respects the terminator `stop`. -/
structure Local (stop : χ) (R : List χ → Option (α × List χ)) : Prop where
  suffix {f x r} : R f = some (x, r) → r <:+ f
  append {f x r} (g) : R f = some (x, r) → R (f ++ g) = some (x, r ++ g)
  stops (f) : ∃ x g, R (f ++ [stop]) = some (x, g ++ [stop])

/-- A loop over the characters, as long as `step` accepts them. -/
def scan (step : σ → χ → Option σ) (s : σ) : List χ → Option (σ × List χ)
  | [] => none
  | c :: f =>
    match step s c with
    | some s => scan step s f
    | none => some (s, c :: f)

theorem local_pure (x : α) : Local stop fun f ↦ some (x, f) where
  suffix h := by
    obtain ⟨-, rfl⟩ := Prod.mk.inj (Option.some.inj h)
    exact suffix_rfl
  append g h := by
    obtain ⟨rfl, rfl⟩ := Prod.mk.inj (Option.some.inj h)
    rfl
  stops f := ⟨x, f, rfl⟩

theorem Local.bind {S : α → List χ → Option (β × List χ)} (hR : Local stop R)
    (hS : ∀ x, Local stop (S x)) : Local stop fun f ↦ (R f).bind fun r ↦ S r.1 r.2 where
  suffix h := by
    obtain ⟨⟨x, g⟩, hx, h⟩ := Option.bind_eq_some_iff.mp h
    exact ((hS x).suffix h).trans (hR.suffix hx)
  append g h := by
    obtain ⟨⟨x, f⟩, hx, h⟩ := Option.bind_eq_some_iff.mp h
    exact Option.bind_eq_some_iff.mpr ⟨_, hR.append g hx, (hS x).append g h⟩
  stops f := by
    obtain ⟨x, g, hx⟩ := hR.stops f
    obtain ⟨y, k, hy⟩ := (hS x).stops g
    exact ⟨y, k, Option.bind_eq_some_iff.mpr ⟨_, hx, hy⟩⟩

theorem Local.map (hR : Local stop R) (F : α → β) :
    Local stop fun f ↦ (R f).map fun r ↦ (F r.1, r.2) := by
  simpa only [Option.map_eq_bind, Function.comp_def] using hR.bind fun x ↦ local_pure (F x)

theorem Local.peek {p : χ → Prop} [DecidablePred p] {S : χ → List χ → Option (α × List χ)}
    {x : χ → α} (hS : ∀ c, Local stop (S c)) (hstop : ¬ p stop) (hnil : R [] = none)
    (hcons : ∀ c f, R (c :: f) = if p c then S c f else some (x c, c :: f)) : Local stop R where
  suffix {f y r} h := by
    cases f with
    | nil => simp [hnil] at h
    | cons c f =>
      rw [hcons] at h
      split at h
      · exact ((hS c).suffix h).trans (suffix_cons c f)
      · exact (@local_pure χ α stop (x c)).suffix h
  append {f y r} g h := by
    cases f with
    | nil => simp [hnil] at h
    | cons c f =>
      rw [hcons] at h
      rw [cons_append, hcons]
      split at h
      · rw [if_pos ‹_›, (hS c).append g h]
      · rw [if_neg ‹_›]
        exact (@local_pure χ α stop (x c)).append g h
  stops f := by
    cases f with
    | nil => exact ⟨x stop, [], by rw [nil_append, hcons, if_neg hstop]⟩
    | cons c f =>
      rw [cons_append, hcons]
      split
      · exact (hS c).stops f
      · exact ⟨x c, c :: f, rfl⟩

variable {step : σ → χ → Option σ}

theorem local_scan (hstop : ∀ s, step s stop = none) (s : σ) : Local stop (scan step s) where
  suffix {f y r} h := by
    induction f generalizing s with
    | nil => simp [scan] at h
    | cons c f ih =>
      rw [scan] at h
      split at h
      · exact (ih _ h).trans (suffix_cons c f)
      · exact (@local_pure χ σ stop s).suffix h
  append {f y r} g h := by
    induction f generalizing s with
    | nil => simp [scan] at h
    | cons c f ih =>
      rw [scan] at h
      rw [cons_append, scan]
      split at h
      · exact ih _ h
      · exact (@local_pure χ σ stop s).append g h
  stops f := by
    induction f generalizing s with
    | nil => exact ⟨s, [], by rw [nil_append, scan, hstop]⟩
    | cons c f ih =>
      rw [cons_append, scan]
      split
      · exact ih _
      · exact ⟨s, c :: f, rfl⟩

theorem Local.stop_mem (hR : Local stop R) {f r : List χ} {x : α} (h : R f = some (x, r))
    (hf : stop ∈ f) : stop ∈ r := by
  obtain ⟨f1, f2, rfl⟩ := append_of_mem hf
  obtain ⟨y, g, hy⟩ := hR.stops f1
  have happ := hR.append f2 hy
  rw [append_assoc, singleton_append, h] at happ
  obtain ⟨-, rfl⟩ := Prod.mk.inj (Option.some.inj happ)
  simp

theorem scan_append {s t : σ} {f r : List χ} {c : χ} (h : Run.exec step s f = some t)
    (hc : step t c = none) : scan step s (f ++ c :: r) = some (t, c :: r) := by
  induction f generalizing s with
  | nil =>
    cases h
    rw [nil_append, scan, hc]
  | cons x f ih =>
    obtain ⟨s', hs', h⟩ := Run.exec_cons_eq_some.mp h
    rw [cons_append, scan, hs']
    exact ih h

end Reader
