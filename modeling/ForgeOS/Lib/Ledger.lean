import Mathlib.Data.Finset.Basic
import ForgeOS.Lib.Run

/-!
# A ledger of allocations

`post` enters one call of `malloc` or `free` into the set of the addresses that are out.
-/

namespace Ledger

open List

universe u

inductive Event (A : Type u) where
  | malloc (a : A)
  | free (a : A)
  deriving DecidableEq

variable {A : Type u} [DecidableEq A]

def post (out : Finset A) : Event A → Option (Finset A)
  | .malloc a => if a ∈ out then none else some (insert a out)
  | .free a => if a ∈ out then some (out.erase a) else none

/-- **Every block that was allocated was freed exactly once.** -/
def Settles (es : List (Event A)) : Prop := Run.exec post ∅ es = some ∅

instance (es : List (Event A)) : Decidable (Settles es) :=
  inferInstanceAs (Decidable (Run.exec post ∅ es = some ∅))

variable {a : A} {l m : List A} {out : Finset A}

theorem post_malloc (ha : a ∉ out) : post out (.malloc a) = some (insert a out) := if_neg ha

theorem post_free (ha : a ∈ out) : post out (.free a) = some (out.erase a) := if_pos ha

theorem exec_frees (hnd : (l ++ m).Nodup) :
    Run.exec post (l ++ m).toFinset (l.map .free) = some m.toFinset := by
  induction l with
  | nil => rfl
  | cons a l ih =>
    obtain ⟨ha, hnd⟩ := nodup_cons.mp hnd
    rw [map_cons]
    refine Run.exec_cons_eq_some.mpr ⟨(l ++ m).toFinset, ?_, ih hnd⟩
    rw [cons_append, toFinset_cons, post_free (Finset.mem_insert_self _ _),
      Finset.erase_insert (by rwa [mem_toFinset])]

end Ledger
