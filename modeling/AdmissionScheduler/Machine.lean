import Mathlib.Data.Option.Basic
import Mathlib.Tactic.Common

/-!
# Machines and their guarded runs

A machine is a partial step function. `Leads ok s t` says that `t` is reached
from `s` by steps that all meet `ok`; with the guard that is always true this is
plain reachability. Invariants, execution of a list of actions, and the transfer
of a run along a map between two machines are proved here once.
-/

namespace AdmissionScheduler

structure Machine (σ α : Type*) where
  init : σ
  step : σ → α → Option σ

namespace Machine

def Any {σ α : Type*} : σ → α → Prop := fun _ _ => True

instance {σ α : Type*} (s : σ) (a : α) : Decidable (Any s a) := isTrue trivial

section
variable {σ α : Type*} (M : Machine σ α)

inductive Leads (ok : σ → α → Prop) (s : σ) : σ → Prop
  | refl : Leads ok s s
  | step {t a u} : Leads ok s t → ok t a → M.step t a = some u → Leads ok s u

def Reach (ok : σ → α → Prop) (s : σ) : Prop := M.Leads ok M.init s

variable {M} {ok ok' : σ → α → Prop}

theorem Leads.trans {s t u : σ} (h₁ : M.Leads ok s t) (h₂ : M.Leads ok t u) : M.Leads ok s u := by
  induction h₂ with
  | refl => exact h₁
  | step _ hok hs ih => exact ih.step hok hs

theorem Leads.mono (hk : ∀ s a, ok s a → ok' s a) {s t : σ} (h : M.Leads ok s t) : M.Leads ok' s t := by
  induction h with
  | refl => exact .refl
  | step _ hok hs ih => exact ih.step (hk _ _ hok) hs

theorem Leads.any {s t : σ} (h : M.Leads ok s t) : M.Leads Any s t := h.mono fun _ _ _ => trivial

theorem Reach.any {s : σ} (h : M.Reach ok s) : M.Reach Any s := Leads.any h

theorem Reach.mono (hk : ∀ s a, ok s a → ok' s a) {s : σ} (h : M.Reach ok s) : M.Reach ok' s :=
  Leads.mono hk h

theorem Reach.leads {s t : σ} (h : M.Reach ok s) (h' : M.Leads ok s t) : M.Reach ok t := Leads.trans h h'

theorem Reach.next {s u : σ} {a : α} (h : M.Reach ok s) (hok : ok s a) (hs : M.step s a = some u) :
    M.Reach ok u := Leads.step h hok hs

/-- A run may be taken under another guard that holds wherever the run comes by. -/
theorem Reach.guard {s : σ} (h : M.Reach ok s) (hk : ∀ u a, M.Reach ok u → ok u a → ok' u a) : M.Reach ok' s := by
  induction h with
  | refl => exact .refl
  | step hl hok hs ih => exact ih.next (hk _ _ hl hok) hs

/-- What one allowed step keeps, a whole run keeps. -/
theorem Leads.invariant {I : σ → Prop} {s t : σ} (h : M.Leads ok s t) (h0 : I s)
    (hI : ∀ u a v, M.Leads ok s u → I u → ok u a → M.step u a = some v → I v) : I t := by
  induction h with
  | refl => exact h0
  | step hl hok hs ih => exact hI _ _ _ hl ih hok hs

theorem Reach.invariant {I : σ → Prop} {s : σ} (h : M.Reach ok s) (h0 : I M.init)
    (hI : ∀ u a v, M.Reach ok u → I u → ok u a → M.step u a = some v → I v) : I s :=
  Leads.invariant h h0 hI

/-- Of parties of which a step moves one only, all but finitely many stand where they began. -/
theorem Reach.spare {π : Type*} (party : σ → Nat → π) {s : σ} (h : M.Reach ok s)
    (hone : ∀ u a v, M.step u a = some v → ∃ l, ∀ k, k ≠ l → party v k = party u k) :
    ∃ n, ∀ k, n ≤ k → party s k = party M.init k := by
  refine h.invariant (I := fun s => ∃ n, ∀ k, n ≤ k → party s k = party M.init k) ⟨0, fun _ _ => rfl⟩
    fun u a v _ hu _ hs => ?_
  obtain ⟨n, hn⟩ := hu
  obtain ⟨l, hl⟩ := hone u a v hs
  refine ⟨n + l + 1, fun k hk => ?_⟩
  rw [hl k (by omega), hn k (by omega)]

end

/-! ## Executing a list of actions -/

section
variable {σ α : Type*} (M : Machine σ α) (ok : σ → α → Prop) [∀ s a, Decidable (ok s a)]

/-- Run the actions in order; `none` when one is disabled or not allowed. -/
def exec : σ → List α → Option σ
  | s, [] => some s
  | s, a :: l => if ok s a then (M.step s a).bind fun t => exec t l else none

variable {M ok}

theorem leads_of_exec : ∀ {l : List α} {s t : σ}, M.exec ok s l = some t → M.Leads ok s t
  | [], s, t, h => by
    simp only [exec, Option.some.injEq] at h; subst h; exact .refl
  | a :: l, s, t, h => by
    simp only [exec] at h
    split at h
    · rename_i hok
      obtain ⟨u, hu, ht⟩ := Option.bind_eq_some_iff.mp h
      exact (Leads.refl.step hok hu).trans (leads_of_exec ht)
    · cases h

/-- A computed run reaches a state with a checked property. -/
theorem leads_of_any {l : List α} {s : σ} {P : σ → Prop} [DecidablePred P]
    (h : (M.exec ok s l).any (fun t => decide (P t)) = true) : ∃ t, M.Leads ok s t ∧ P t := by
  cases hs : M.exec ok s l with
  | none => rw [hs] at h; cases h
  | some t => rw [hs] at h; exact ⟨t, leads_of_exec hs, of_decide_eq_true h⟩

variable (M ok)

theorem reach_of_exec (l : List α) (P : σ → Prop) [DecidablePred P]
    (h : (M.exec ok M.init l).any (fun s => decide (P s)) = true) : ∃ s, M.Reach ok s ∧ P s := leads_of_any h

end

/-! ## Simulation -/

section
variable {σ τ α β : Type*} {M : Machine σ α} {N : Machine τ β}
  {ok : σ → α → Prop} {ok' : τ → β → Prop}

/-- If `f` maps each allowed step of `M` to allowed steps of `N`, it maps runs to runs. -/
theorem Reach.simulate (f : σ → τ) (h0 : f M.init = N.init)
    (hf : ∀ s a t, M.Reach ok s → ok s a → M.step s a = some t → N.Leads ok' (f s) (f t)) {s : σ}
    (h : M.Reach ok s) : N.Reach ok' (f s) := by
  induction h with
  | refl => rw [h0]; exact .refl
  | step hl hok hs ih => exact ih.leads (hf _ _ _ hl hok hs)

end

end Machine

end AdmissionScheduler
