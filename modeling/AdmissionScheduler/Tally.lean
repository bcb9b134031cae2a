import Mathlib.Algebra.BigOperators.Group.Finset.Basic
import Mathlib.Algebra.Group.Int.Defs
import Mathlib.Algebra.Order.BigOperators.Group.Finset
import Mathlib.Algebra.Order.Group.Int
import Mathlib.Tactic.Common

/-!
# Sums over a family of processes

`f` reads an amount off the state of a process. The tally adds it up over the
processes that have begun; a step of one process changes it by the difference of
that process's amounts.
-/

namespace AdmissionScheduler

section
variable {ι P : Type*} [DecidableEq ι]

def tally (f : P → Int) (begun : Finset ι) (ps : ι → P) : Int := begun.sum fun i => f (ps i)

variable {f g : P → Int} {begun : Finset ι} {ps : ι → P} {i : ι} {p : P}

theorem tally_update (h : i ∈ begun) :
    tally f begun (Function.update ps i p) = tally f begun ps - f (ps i) + f p := by
  have away : ∀ k ∈ begun.erase i, f (Function.update ps i p k) = f (ps k) := fun k hk => by
    rw [Function.update_of_ne (Finset.ne_of_mem_erase hk)]
  unfold tally
  rw [← Finset.add_sum_erase _ _ h, ← Finset.add_sum_erase _ (fun k => f (ps k)) h, Finset.sum_congr rfl away,
    Function.update_self]
  omega

/-- A process that joins had nothing before. -/
theorem tally_insert (h : i ∉ begun) : tally f (insert i begun) (Function.update ps i p) = tally f begun ps + f p := by
  have away : ∀ k ∈ begun, f (Function.update ps i p k) = f (ps k) := fun k hk => by
    have ne : k ≠ i := fun e => h (e ▸ hk)
    rw [Function.update_of_ne ne]
  unfold tally
  rw [Finset.sum_insert h, Finset.sum_congr rfl away, Function.update_self, Int.add_comm]

/-- A process that begins, or begins again. -/
theorem tally_begin (h : i ∉ begun → f (ps i) = 0) :
    tally f (insert i begun) (Function.update ps i p) = tally f begun ps - f (ps i) + f p := by
  by_cases hi : i ∈ begun
  · rw [Finset.insert_eq_of_mem hi, tally_update hi]
  · rw [tally_insert hi, h hi, Int.sub_zero]

theorem tally_erase (h : i ∈ begun) : tally f begun ps = tally f (begun.erase i) ps + f (ps i) :=
  (Finset.sum_erase_add begun (fun i => f (ps i)) h).symm

omit [DecidableEq ι] in
theorem tally_add : tally (fun p => f p + g p) begun ps = tally f begun ps + tally g begun ps :=
  Finset.sum_add_distrib

omit [DecidableEq ι] in
theorem tally_nonneg (h : ∀ i, 0 ≤ f (ps i)) : 0 ≤ tally f begun ps :=
  Finset.sum_nonneg fun i _ => h i

end

end AdmissionScheduler
