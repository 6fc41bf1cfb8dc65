import Mathlib.Data.Finmap

/-!
# Association lists as finite maps

A data structure that keeps each key once means the finite map `List.toFinmap` of its entries.
-/

universe u v

theorem Finmap.erase_of_notMem {α : Type u} {β : α → Type v} [DecidableEq α] {m : Finmap β} {a : α}
    (h : a ∉ m) : m.erase a = m := by
  refine ext_lookup fun k ↦ ?_
  by_cases hk : k = a
  · rw [hk, lookup_erase, lookup_eq_none.mpr h]
  · rw [lookup_erase_ne hk]

namespace List

open Finmap

variable {α : Type u} {β : α → Type v} [DecidableEq α] {l l₁ l₂ : List (Sigma β)} {a : α} {b : β a}

theorem toFinmap_middle (h : (l₁ ++ ⟨a, b⟩ :: l₂).NodupKeys) :
    (l₁ ++ ⟨a, b⟩ :: l₂).toFinmap = (l₁ ++ l₂).toFinmap.insert a b := by
  rw [← toFinmap_cons]
  refine ext_lookup fun k ↦ ?_
  rw [dlookup_list_toFinmap, dlookup_list_toFinmap]
  exact perm_dlookup k h perm_middle

theorem toFinmap_remove (h : (l₁ ++ ⟨a, b⟩ :: l₂).NodupKeys) :
    (l₁ ++ l₂).toFinmap = (l₁ ++ ⟨a, b⟩ :: l₂).toFinmap.erase a := by
  rw [toFinmap_middle h]
  obtain ⟨hnot, -⟩ := nodupKeys_cons.mp (nodupKeys_middle.mp h)
  refine ext_lookup fun k ↦ ?_
  by_cases hk : k = a
  · subst hk
    rw [lookup_erase, dlookup_list_toFinmap]
    exact dlookup_eq_none.mpr hnot
  · rw [lookup_erase_ne hk, lookup_insert_of_ne _ hk]

theorem keys_toFinmap : l.toFinmap.keys = l.keys.toFinset := by
  ext k
  rw [Finmap.mem_keys, mem_list_toFinmap, mem_toFinset, mem_keys]

theorem card_keys_toFinmap (h : l.NodupKeys) : l.toFinmap.keys.card = l.length := by
  rw [keys_toFinmap, toFinset_card_of_nodup h, keys, length_map]

end List
