import Mathlib.Data.List.Basic
import Mathlib.Order.Lattice
import Mathlib.Tactic.Common

/-!
# Groups of a list by key

The values of one key keep their order. Where the keys do not decrease, the
groups in ascending order of key make up the list again.
-/

namespace AdmissionScheduler

section
variable {κ β : Type*} [LinearOrder κ]

/-- The values with key `k`, in their order. -/
def groupOf (l : List (κ × β)) (k : κ) : List β := (l.filter fun p => p.1 = k).map Prod.snd

theorem groupOf_append (l l' : List (κ × β)) (k : κ) : groupOf (l ++ l') k = groupOf l k ++ groupOf l' k := by
  rw [groupOf, List.filter_append, List.map_append]; rfl

theorem groupOf_self (k : κ) (b : β) : groupOf [(k, b)] k = [b] := by simp [groupOf]

theorem groupOf_ne {k k' : κ} (h : k ≠ k') (b : β) : groupOf [(k, b)] k' = [] := by simp [groupOf, h]

/-- The entries of the least key come first. -/
theorem split_least {l : List (κ × β)} {k : κ} (hl : l.Pairwise fun p q => p.1 ≤ q.1) (least : ∀ p ∈ l, k ≤ p.1) :
    l = (l.filter fun p => p.1 = k) ++ l.filter fun p => !decide (p.1 = k) := by
  induction l with
  | nil => rfl
  | cons p l ih =>
    obtain ⟨hp, hl⟩ := List.pairwise_cons.mp hl
    by_cases h : p.1 = k
    · rw [List.filter_cons_of_pos (by simpa using h), List.filter_cons_of_neg (by simpa using h), List.cons_append,
        ← ih hl fun q hq => least q (List.mem_cons_of_mem _ hq)]
    · have above : ∀ q ∈ p :: l, q.1 ≠ k := by
        have hk : k < p.1 := lt_of_le_of_ne (least p (List.mem_cons_self ..)) (Ne.symm h)
        intro q hq
        rcases List.mem_cons.mp hq with rfl | hq
        · exact h
        · exact (hk.trans_le (hp q hq)).ne'
      rw [List.filter_eq_nil_iff.mpr (by simpa using above), List.filter_eq_self.mpr (by simpa using above)]; rfl

/-- Sorted by key, a list is the concatenation of its groups. -/
theorem flatMap_groupOf {l : List (κ × β)} {ks : List κ} (hl : l.Pairwise fun p q => p.1 ≤ q.1)
    (hk : ks.Pairwise (· < ·)) (all : ∀ p ∈ l, p.1 ∈ ks) : ks.flatMap (groupOf l) = l.map Prod.snd := by
  induction ks generalizing l with
  | nil =>
    have : l = [] := List.eq_nil_iff_forall_not_mem.mpr fun p hp => List.not_mem_nil (all p hp)
    subst this; rfl
  | cons k ks ih =>
    obtain ⟨above, hk⟩ := List.pairwise_cons.mp hk
    have least : ∀ p ∈ l, k ≤ p.1 := fun p hp =>
      (List.mem_cons.mp (all p hp)).elim (fun e => e ▸ le_refl _) fun h => (above _ h).le
    have rest : ks.flatMap (groupOf (l.filter fun p => !decide (p.1 = k))) = (l.filter fun p => !decide (p.1 = k)).map Prod.snd := by
      refine ih (hl.filter _) hk fun p hp => ?_
      obtain ⟨hp, hne⟩ := List.mem_filter.mp hp
      exact (List.mem_cons.mp (all p hp)).resolve_left (by simpa using hne)
    have same : ∀ k' ∈ ks, groupOf l k' = groupOf (l.filter fun p => !decide (p.1 = k)) k' := by
      intro k' hk'
      rw [groupOf, groupOf, List.filter_filter]
      refine congrArg _ (List.filter_congr fun p _ => ?_)
      by_cases h : p.1 = k'
      · simp [h, (above k' hk').ne']
      · simp [h]
    conv_rhs => rw [split_least hl least, List.map_append, ← rest]
    rw [List.flatMap_cons, List.flatMap_congr same]; rfl

end

end AdmissionScheduler
