import AdmissionScheduler.Machine
import Mathlib.Data.List.Basic

/-!
# Recorded runs

A machine that also keeps what was observed at each of its steps, and the
bookkeeping of things that one step opens and a later one closes: if each party
owes as many closings as it has opened and not closed, then as many were opened as
were closed whenever nobody owes any.
-/

namespace AdmissionScheduler

namespace Machine

section
variable {σ α β : Type*} (M : Machine σ α) (obs : σ → α → β)

def recording : Machine (σ × List β) α where
  init := (M.init, [])
  step s a := (M.step s.1 a).map fun t => (t, obs s.1 a :: s.2)

variable {M obs} {ok : σ → α → Prop}

theorem recording_step {s t : σ × List β} {a : α} (h : (M.recording obs).step s a = some t) :
    M.step s.1 a = some t.1 ∧ t.2 = obs s.1 a :: s.2 := by
  obtain ⟨u, hu, rfl⟩ := Option.map_eq_some_iff.mp h
  exact ⟨hu, rfl⟩

theorem Reach.forget {s : σ × List β} (h : (M.recording obs).Reach (fun s a => ok s.1 a) s) : M.Reach ok s.1 := by
  refine h.simulate (N := M) Prod.fst rfl fun u a v _ ha hs => ?_
  exact Leads.refl.step ha (recording_step hs).1

end

/-! ## Openings and closings -/

theorem count_filterMap_cons {β π : Type*} [DecidableEq π] (f : β → Option π) (b : β) (l : List β) (p : π) :
    ((b :: l).filterMap f).count p = (f b).toList.count p + (l.filterMap f).count p := by
  rw [List.filterMap_cons]
  cases f b with
  | none => simp
  | some q => simp [List.count_cons, Nat.add_comm]

section
variable {σ α β π : Type*} [DecidableEq π] {M : Machine σ α} {obs : σ → α → β} {ok : σ → α → Prop}
  {opens closes : β → Option π} {owed : σ → π → Nat}

/-- Every party has opened as often as it has closed and owes to. -/
theorem Reach.count_opens {s : σ} {l : List β} (h : (M.recording obs).Reach (fun s a => ok s.1 a) (s, l))
    (init : ∀ p, owed M.init p = 0)
    (step : ∀ s a t, M.Reach ok s → ok s a → M.step s a = some t → ∀ p,
      owed t p + (closes (obs s a)).toList.count p = owed s p + (opens (obs s a)).toList.count p) (p : π) :
    (l.filterMap opens).count p = (l.filterMap closes).count p + owed s p := by
  refine h.invariant (I := fun s => (s.2.filterMap opens).count p = (s.2.filterMap closes).count p + owed s.1 p)
    (by simp [recording, init]) fun u a v hu hi ha hs => ?_
  obtain ⟨hs, trace⟩ := recording_step hs
  have := step u.1 a v.1 hu.forget ha hs p
  rw [trace, count_filterMap_cons, count_filterMap_cons, hi]
  omega

/-- When nobody owes a closing, as many were opened as were closed. -/
theorem Reach.length_opens {s : σ} {l : List β} (h : (M.recording obs).Reach (fun s a => ok s.1 a) (s, l))
    (init : ∀ p, owed M.init p = 0)
    (step : ∀ s a t, M.Reach ok s → ok s a → M.step s a = some t → ∀ p,
      owed t p + (closes (obs s a)).toList.count p = owed s p + (opens (obs s a)).toList.count p)
    (settled : ∀ p, owed s p = 0) : (l.filterMap opens).length = (l.filterMap closes).length := by
  refine (List.perm_iff_count.mpr fun p => ?_).length_eq
  rw [h.count_opens init step p, settled p, Nat.add_zero]

end

end Machine

end AdmissionScheduler
