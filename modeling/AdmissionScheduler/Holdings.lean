import Mathlib.Data.Finset.Option
import Mathlib.Data.Fintype.Basic
import Mathlib.Logic.Function.Basic
import Mathlib.Tactic.Common

/-!
# What a family of processes holds

Each process of a finite family holds at most one resource, read off its local
state by `f`. `holdings` is the set of resources held; changing one process's
state adds a resource, drops one, or leaves the set as it is.
-/

namespace AdmissionScheduler

section
variable {ι P α : Type*} [Fintype ι] [DecidableEq ι] [DecidableEq α] (f : P → Option α) (ps : ι → P)

def holdings : Finset α := Finset.eraseNone (Finset.univ.image fun i => f (ps i))

def Exclusive {ι P α : Type*} (f : P → Option α) (ps : ι → P) : Prop :=
  ∀ i k a, f (ps i) = some a → f (ps k) = some a → i = k

theorem of_none {α : Type*} {P : α → Prop} (a : α) (h : none = some a) : P a := by cases h

variable {f ps}

omit [DecidableEq ι] in
@[simp] theorem mem_holdings {a : α} : a ∈ holdings f ps ↔ ∃ i, f (ps i) = some a := by
  simp [holdings, Finset.mem_eraseNone]

theorem mem_holdings_update {i : ι} {p : P} {a : α} :
    a ∈ holdings f (Function.update ps i p) ↔ f p = some a ∨ ∃ k, k ≠ i ∧ f (ps k) = some a := by
  rw [mem_holdings]
  constructor
  · rintro ⟨k, hk⟩
    by_cases hki : k = i
    · subst hki; left; simpa using hk
    · right; exact ⟨k, hki, by simpa [Function.update_of_ne hki] using hk⟩
  · rintro (h | ⟨k, hki, hk⟩)
    · exact ⟨i, by simpa using h⟩
    · exact ⟨k, by simpa [Function.update_of_ne hki] using hk⟩

theorem holdings_same {i : ι} {p : P} (h : f p = f (ps i)) :
    holdings f (Function.update ps i p) = holdings f ps := by
  ext a
  rw [mem_holdings_update, mem_holdings, h]
  constructor
  · rintro (h | ⟨k, _, hk⟩)
    · exact ⟨i, h⟩
    · exact ⟨k, hk⟩
  · rintro ⟨k, hk⟩
    by_cases hki : k = i
    · subst hki; exact .inl hk
    · exact .inr ⟨k, hki, hk⟩

theorem holdings_acquire {i : ι} {p : P} {a : α} (h0 : f (ps i) = none) (h1 : f p = some a) :
    holdings f (Function.update ps i p) = insert a (holdings f ps) := by
  ext b
  rw [mem_holdings_update, Finset.mem_insert, mem_holdings, h1]
  constructor
  · rintro (h | ⟨k, _, hk⟩)
    · exact .inl (Option.some.inj h).symm
    · exact .inr ⟨k, hk⟩
  · rintro (rfl | ⟨k, hk⟩)
    · exact .inl rfl
    · refine .inr ⟨k, fun hki => ?_, hk⟩
      subst hki; rw [h0] at hk; cases hk

theorem holdings_release (hx : Exclusive f ps) {i : ι} {p : P} {a : α} (h0 : f (ps i) = some a)
    (h1 : f p = none) : holdings f (Function.update ps i p) = (holdings f ps).erase a := by
  ext b
  rw [mem_holdings_update, Finset.mem_erase, mem_holdings, h1]
  constructor
  · rintro (h | ⟨k, hki, hk⟩)
    · cases h
    · refine ⟨fun hba => hki ?_, k, hk⟩
      subst hba; exact hx k i b hk h0
  · rintro ⟨hba, k, hk⟩
    refine .inr ⟨k, fun hki => hba ?_, hk⟩
    subst hki; rw [h0] at hk; exact (Option.some.inj hk).symm

omit [DecidableEq ι] in
theorem card_holdings_le_one {i : ι} (h : ∀ k a, f (ps k) = some a → k = i) : (holdings f ps).card ≤ 1 := by
  refine Finset.card_le_one.mpr fun a ha b hb => ?_
  obtain ⟨k, hk⟩ := mem_holdings.mp ha
  obtain ⟨l, hl⟩ := mem_holdings.mp hb
  have : k = l := (h k a hk).trans (h l b hl).symm
  subst this
  exact Option.some.inj (hk.symm.trans hl)

omit [Fintype ι] [DecidableEq α] in
/-- Exclusion survives a change that brings in no resource another process holds. -/
theorem Exclusive.update (hx : Exclusive f ps) {i : ι} {p : P}
    (hp : ∀ a, f p = some a → ∀ k, f (ps k) = some a → k = i) : Exclusive f (Function.update ps i p) := by
  intro k l a hk hl
  by_cases hki : k = i <;> by_cases hli : l = i
  · rw [hki, hli]
  · subst hki; simp only [Function.update_self, Function.update_of_ne hli] at hk hl
    exact (hp a hk l hl).symm
  · subst hli; simp only [Function.update_self, Function.update_of_ne hki] at hk hl
    exact hp a hl k hk
  · simp only [Function.update_of_ne hki, Function.update_of_ne hli] at hk hl
    exact hx k l a hk hl

end

end AdmissionScheduler
