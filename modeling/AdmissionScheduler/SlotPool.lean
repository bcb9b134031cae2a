import AdmissionScheduler.Machine
import Mathlib.Data.Finset.Card
import Mathlib.Logic.Function.Basic
import Mathlib.Data.Int.Order.Basic
import Mathlib.Tactic.Common

/-!
# A counter of slots and what it counts

A pool counts the slots in use and grants a claim while the count is below its
capacity. Holders register what they hold and give it back. A holder may also
vanish, leaving its slot counted; a repairer then gives a registered slot back
in its stead, or sets the counter outright. The counter means something only as
long as every repair is of a slot that nobody will give back himself.
-/

namespace AdmissionScheduler

@[ext] structure SlotPool (α : Type*) where
  inUse : Int
  /-- Claimed, and to be given back by the holder. -/
  held : Finset α
  registered : Finset α
  /-- Claimed and not yet given back, by the history. -/
  out : Finset α
  claims : α → Nat
  releases : α → Nat

inductive SlotAct (α : Type*) where
  | claim (a : α)
  /-- A claim whose holder never learns of it. -/
  | leak
  | register (a : α)
  | release (a : α)
  /-- The holder vanishes. -/
  | abandon (a : α)
  | reclaim (a : α)
  | reset (n : Int)

namespace SlotPool

section
variable {α : Type*} [DecidableEq α]

/-- The slots that will be given back, by their holder or by a repairer. -/
def owed (p : SlotPool α) : Finset α := p.held ∪ p.registered

def dropHolder (p : SlotPool α) (a : α) : SlotPool α := { p with held := p.held.erase a }

def giveBack (p : SlotPool α) (a : α) : SlotPool α where
  inUse := p.inUse - 1
  held := p.held
  registered := p.registered.erase a
  out := p.out.erase a
  claims := p.claims
  releases := Function.update p.releases a (p.releases a + 1)

def step (capacity : Int) (p : SlotPool α) : SlotAct α → Option (SlotPool α)
  | .claim a =>
    if p.inUse < capacity then
      some { p with inUse := p.inUse + 1, held := insert a p.held, out := insert a p.out,
                    claims := Function.update p.claims a (p.claims a + 1) }
    else none
  | .leak => if p.inUse < capacity then some { p with inUse := p.inUse + 1 } else none
  | .register a => if a ∈ p.held then some { p with registered := insert a p.registered } else none
  | .release a => if a ∈ p.held then some ((p.dropHolder a).giveBack a) else none
  | .abandon a => if a ∈ p.held then some (p.dropHolder a) else none
  | .reclaim a => some (p.giveBack a)
  | .reset n => some { p with inUse := n }

def empty : SlotPool α := ⟨0, ∅, ∅, ∅, fun _ => 0, fun _ => 0⟩

def machine (capacity : Int) : Machine (SlotPool α) (SlotAct α) := ⟨empty, step capacity⟩

/-! ## Guards -/

/-- Nobody claims twice, no holder vanishes and nothing is repaired. -/
def Calm (p : SlotPool α) : SlotAct α → Prop
  | .claim a => a ∉ p.held
  | .register _ | .release _ => True
  | .leak | .abandon _ | .reclaim _ | .reset _ => False

/-- Nobody claims twice, no holder vanishes and the counter is never set outright. -/
def Attended (p : SlotPool α) : SlotAct α → Prop
  | .claim a => a ∉ p.held
  | .register _ | .release _ | .reclaim _ => True
  | .leak | .abandon _ | .reset _ => False

/-- Every repair is of a registered slot without a holder, and no reset goes below what is owed. -/
def Safe (p : SlotPool α) : SlotAct α → Prop
  | .reclaim a => a ∈ p.registered ∧ a ∉ p.held
  | .reset n => p.owed.card ≤ n
  | .claim _ | .leak | .register _ | .release _ | .abandon _ => True

def Counted (p : SlotPool α) (a : SlotAct α) : Prop := p.Safe a ∧ ∀ n, a ≠ .reset n

/-! ## Runs -/

variable {capacity : Int} {p p' : SlotPool α} {a : SlotAct α}

theorem owed_giveBack {b : α} (hh : b ∉ p.held) : (p.giveBack b).owed = p.owed.erase b := by
  ext c
  simp only [owed, giveBack, Finset.mem_union, Finset.mem_erase]
  by_cases hc : c = b
  · subst hc; simp [hh]
  · simp [hc]

theorem owed_release (p : SlotPool α) (b : α) : ((p.dropHolder b).giveBack b).owed = p.owed.erase b := by
  ext c
  simp only [owed, giveBack, dropHolder, Finset.mem_union, Finset.mem_erase]
  tauto

theorem owed_dropHolder (p : SlotPool α) (b : α) : (p.dropHolder b).owed.card ≤ p.owed.card :=
  Finset.card_le_card (Finset.union_subset_union_left (Finset.erase_subset _ _))

theorem card_owed_claim (p : SlotPool α) (b : α) : (insert b p.held ∪ p.registered).card ≤ p.owed.card + 1 := by
  rw [Finset.insert_union]; exact Finset.card_insert_le _ _

theorem owed_register {b : α} (hb : b ∈ p.held) :
    SlotPool.owed { p with registered := insert b p.registered } = p.owed := by
  simp only [owed, Finset.union_insert]
  exact Finset.insert_eq_of_mem (Finset.mem_union_left _ hb)

structure Bounded (capacity : Int) (p : SlotPool α) : Prop where
  inUse : (p.owed.card : Int) ≤ p.inUse
  capacity : (p.owed.card : Int) ≤ capacity

theorem bounded_step (hp : Bounded capacity p) (hok : p.Safe a) (h : step capacity p a = some p') :
    Bounded capacity p' := by
  obtain ⟨hu, hc⟩ := hp
  cases a with
  | claim b =>
    simp only [step, Option.ite_none_right_eq_some, Option.some.injEq] at h
    obtain ⟨hlt, rfl⟩ := h
    have := card_owed_claim p b
    constructor <;> simp only [owed] at * <;> omega
  | leak =>
    simp only [step, Option.ite_none_right_eq_some, Option.some.injEq] at h
    obtain ⟨hlt, rfl⟩ := h
    constructor <;> simp only [owed] at * <;> omega
  | register b =>
    simp only [step, Option.ite_none_right_eq_some, Option.some.injEq] at h
    obtain ⟨hb, rfl⟩ := h
    exact ⟨by rw [owed_register hb]; exact hu, by rw [owed_register hb]; exact hc⟩
  | release b =>
    simp only [step, Option.ite_none_right_eq_some, Option.some.injEq] at h
    obtain ⟨hb, rfl⟩ := h
    have := Finset.card_erase_add_one (Finset.mem_union_left p.registered hb)
    exact ⟨by rw [owed_release]; simp only [giveBack, dropHolder, owed] at *; omega,
      by rw [owed_release]; simp only [owed] at *; omega⟩
  | abandon b =>
    simp only [step, Option.ite_none_right_eq_some, Option.some.injEq] at h
    obtain ⟨hb, rfl⟩ := h
    have := owed_dropHolder p b
    exact ⟨by simp only [dropHolder] at this ⊢; omega, by omega⟩
  | reclaim b =>
    obtain ⟨hb, hh⟩ := hok
    cases h
    have := Finset.card_erase_add_one (Finset.mem_union_right p.held hb)
    exact ⟨by rw [owed_giveBack hh]; simp only [giveBack, owed] at *; omega,
      by rw [owed_giveBack hh]; simp only [owed] at *; omega⟩
  | reset n =>
    cases h
    exact ⟨hok, hc⟩

/-- With safe repairs only, no more slots are owed than there are. -/
theorem bounded (h0 : 0 ≤ capacity) (h : (machine capacity).Reach Safe p) : Bounded capacity p :=
  h.invariant ⟨le_rfl, h0⟩ fun _ _ _ _ hp hok hs => bounded_step hp hok hs

/-- The counter counts the holders, and they are what the history has outstanding. -/
structure Exact (capacity : Int) (p : SlotPool α) : Prop where
  inUse : p.inUse = p.held.card
  capacity : p.inUse ≤ capacity
  registered : p.registered ⊆ p.held
  out : p.out = p.held

theorem exact_step (hp : Exact capacity p) (hok : p.Calm a) (h : step capacity p a = some p') :
    Exact capacity p' := by
  obtain ⟨hu, hc, hr, ho⟩ := hp
  cases a with
  | claim b =>
    simp only [step, Option.ite_none_right_eq_some, Option.some.injEq] at h
    obtain ⟨hlt, rfl⟩ := h
    have := Finset.card_insert_of_notMem hok
    exact ⟨by simp only [this]; omega, by simp only; omega, hr.trans (Finset.subset_insert _ _), by simp only [ho]⟩
  | register b =>
    simp only [step, Option.ite_none_right_eq_some, Option.some.injEq] at h
    obtain ⟨hb, rfl⟩ := h
    exact ⟨hu, hc, Finset.insert_subset hb hr, ho⟩
  | release b =>
    simp only [step, Option.ite_none_right_eq_some, Option.some.injEq] at h
    obtain ⟨hb, rfl⟩ := h
    have := Finset.card_erase_add_one hb
    exact ⟨by simp only [giveBack, dropHolder]; omega, by simp only [giveBack, dropHolder]; omega,
      Finset.erase_subset_erase _ hr, by simp only [giveBack, dropHolder, ho]⟩
  | leak | abandon b | reclaim b | reset n => exact absurd hok not_false

/-- Without losses and repairs the counter is exact. -/
theorem exact (h0 : 0 ≤ capacity) (h : (machine capacity).Reach Calm p) : Exact capacity p :=
  h.invariant ⟨rfl, h0, Finset.Subset.refl _, rfl⟩ fun _ _ _ _ hp hok hs => exact_step hp hok hs

/-- What the counter has beyond the slots that will be given back. -/
def leaked (p : SlotPool α) : Int := p.inUse - p.owed.card

def Dutiful (_ : SlotPool α) : SlotAct α → Prop
  | .register _ | .release _ => True
  | .claim _ | .leak | .abandon _ | .reclaim _ | .reset _ => False

theorem leaked_step (hok : p.Dutiful a) (h : step capacity p a = some p') : p'.leaked = p.leaked := by
  cases a with
  | register b =>
    simp only [step, Option.ite_none_right_eq_some, Option.some.injEq] at h
    obtain ⟨hb, rfl⟩ := h
    rw [leaked, owed_register hb, leaked]
  | release b =>
    simp only [step, Option.ite_none_right_eq_some, Option.some.injEq] at h
    obtain ⟨hb, rfl⟩ := h
    have := Finset.card_erase_add_one (Finset.mem_union_left p.registered hb)
    rw [leaked, owed_release, leaked]
    simp only [giveBack, dropHolder, owed] at *
    omega
  | claim b | leak | abandon b | reclaim b | reset n => exact absurd hok not_false

/-- Holders at their duty neither leak a slot nor mend a leak. -/
theorem leaked_of_leads (h : (machine capacity).Leads Dutiful p p') : p'.leaked = p.leaked :=
  h.invariant (I := fun q => q.leaked = p.leaked) rfl fun _ _ _ _ hq hok hs => (leaked_step hok hs).trans hq

theorem attended_step (hp : p.inUse ≤ p.held.card) (hok : p.Attended a) (h : step capacity p a = some p') :
    p'.inUse ≤ p'.held.card := by
  cases a with
  | claim b =>
    simp only [step, Option.ite_none_right_eq_some, Option.some.injEq] at h
    obtain ⟨-, rfl⟩ := h
    have := Finset.card_insert_of_notMem hok
    simp only [this]; omega
  | register b =>
    simp only [step, Option.ite_none_right_eq_some, Option.some.injEq] at h
    obtain ⟨-, rfl⟩ := h; exact hp
  | release b =>
    simp only [step, Option.ite_none_right_eq_some, Option.some.injEq] at h
    obtain ⟨hb, rfl⟩ := h
    have := Finset.card_erase_add_one hb
    simp only [giveBack, dropHolder]; omega
  | reclaim b => cases h; simp only [giveBack]; omega
  | leak | abandon b | reset n => exact absurd hok not_false

/-- As long as every holder gives back what it holds, each slot in use has a holder. -/
theorem inUse_le_held (h : (machine capacity).Reach Attended p) : p.inUse ≤ p.held.card :=
  h.invariant (I := fun p => p.inUse ≤ p.held.card) le_rfl fun _ _ _ _ hp hok hs => attended_step hp hok hs

/-- No slot has been given back more often than it was claimed, and an owed one less often. -/
structure Balanced (p : SlotPool α) : Prop where
  inUse : (p.owed.card : Int) ≤ p.inUse
  releases : ∀ a, p.releases a ≤ p.claims a
  owed : ∀ a ∈ p.owed, p.releases a < p.claims a

/-- Giving back what is owed once keeps the balance. -/
theorem Balanced.giveBack {q : SlotPool α} {b : α} (hp : Balanced p) (hb : b ∈ p.owed)
    (inUse : q.inUse = p.inUse - 1) (claims : q.claims = p.claims)
    (releases : q.releases = Function.update p.releases b (p.releases b + 1)) (owed : q.owed = p.owed.erase b) :
    Balanced q := by
  have hu := hp.inUse
  have hcard := Finset.card_erase_add_one hb
  refine ⟨by rw [owed, inUse]; omega, fun c => ?_, fun c hc => ?_⟩ <;> rw [releases, claims]
  · by_cases he : c = b
    · subst he; rw [Function.update_self]; exact hp.owed c hb
    · rw [Function.update_of_ne he]; exact hp.releases c
  · rw [owed, Finset.mem_erase] at hc
    rw [Function.update_of_ne hc.1]; exact hp.owed c hc.2

theorem balanced_step (hp : Balanced p) (hok : p.Counted a) (h : step capacity p a = some p') : Balanced p' := by
  have hu := hp.inUse
  cases a with
  | claim b =>
    simp only [step, Option.ite_none_right_eq_some, Option.some.injEq] at h
    obtain ⟨hlt, rfl⟩ := h
    have := card_owed_claim p b
    refine ⟨by simp only [owed] at *; omega, fun c => ?_, fun c hc => ?_⟩ <;> simp only [Function.update_apply]
    · split
      · rename_i hb; subst hb; exact Nat.le_succ_of_le (hp.releases c)
      · exact hp.releases c
    · split
      · rename_i hb; subst hb; exact Nat.lt_succ_of_le (hp.releases c)
      · rename_i hb
        simp only [owed, Finset.insert_union, Finset.mem_insert, hb, false_or] at hc
        exact hp.owed c hc
  | leak =>
    simp only [step, Option.ite_none_right_eq_some, Option.some.injEq] at h
    obtain ⟨hlt, rfl⟩ := h
    exact ⟨by simp only [owed] at *; omega, hp.releases, hp.owed⟩
  | register b =>
    simp only [step, Option.ite_none_right_eq_some, Option.some.injEq] at h
    obtain ⟨hb, rfl⟩ := h
    exact ⟨by rw [owed_register hb]; exact hu, hp.releases, by rw [owed_register hb]; exact hp.owed⟩
  | release b =>
    simp only [step, Option.ite_none_right_eq_some, Option.some.injEq] at h
    obtain ⟨hb, rfl⟩ := h
    exact hp.giveBack (Finset.mem_union_left _ hb) rfl rfl rfl (owed_release p b)
  | abandon b =>
    simp only [step, Option.ite_none_right_eq_some, Option.some.injEq] at h
    obtain ⟨hb, rfl⟩ := h
    have := owed_dropHolder p b
    exact ⟨by simp only [dropHolder] at this ⊢; omega, hp.releases, fun c hc =>
      hp.owed c (Finset.union_subset_union_left (Finset.erase_subset _ _) hc)⟩
  | reclaim b =>
    obtain ⟨⟨hb, hh⟩, -⟩ := hok
    cases h
    exact hp.giveBack (Finset.mem_union_right _ hb) rfl rfl rfl (owed_giveBack hh)
  | reset n => exact absurd rfl (hok.2 n)

theorem balanced (h : (machine capacity).Reach Counted p) : Balanced p :=
  h.invariant ⟨le_rfl, fun _ => le_rfl, fun _ h => absurd h (Finset.notMem_empty _)⟩
    fun _ _ _ _ hp hok hs => balanced_step hp hok hs

end

end SlotPool

end AdmissionScheduler
