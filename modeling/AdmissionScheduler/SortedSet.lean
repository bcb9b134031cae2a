import Mathlib.Data.Finset.Card
import Mathlib.Data.List.Sort
import Mathlib.Order.Defs.LinearOrder
import Mathlib.Tactic.Common

/-!
# Sorted sets

A sorted set keeps each member once, with a score, in ascending order of score
and, among equal scores, of member. Both facts are fields, so the first entry is
the least one by construction.
-/

namespace AdmissionScheduler

section
variable {σ α : Type*} [LinearOrder σ] [LinearOrder α]

/-- Order of entries: by score, then by member. -/
def Before (p q : σ × α) : Prop := p.1 < q.1 ∨ (p.1 = q.1 ∧ p.2 ≤ q.2)

instance : DecidableRel (Before (σ := σ) (α := α)) := fun p q =>
  inferInstanceAs (Decidable (p.1 < q.1 ∨ (p.1 = q.1 ∧ p.2 ≤ q.2)))

instance : Std.Total (Before (σ := σ) (α := α)) where
  total p q := by
    unfold Before
    rcases lt_trichotomy p.1 q.1 with h | h | h
    · exact .inl (.inl h)
    · rcases le_total p.2 q.2 with h' | h'
      · exact .inl (.inr ⟨h, h'⟩)
      · exact .inr (.inr ⟨h.symm, h'⟩)
    · exact .inr (.inl h)

instance : IsTrans (σ × α) Before where
  trans p q r := by
    rintro (h | ⟨h, h'⟩) (k | ⟨k, k'⟩)
    · exact .inl (h.trans k)
    · exact .inl (k ▸ h)
    · exact .inl (h ▸ k)
    · exact .inr ⟨h.trans k, h'.trans k'⟩

end

structure SortedSet (σ α : Type*) [LinearOrder σ] [LinearOrder α] where
  entries : List (σ × α)
  sorted : entries.Pairwise Before
  nodup : (entries.map Prod.snd).Nodup

namespace SortedSet

section
variable {σ α : Type*} [LinearOrder σ] [LinearOrder α] (z : SortedSet σ α)

def empty : SortedSet σ α := ⟨[], .nil, .nil⟩

def members : Finset α := ⟨z.entries.map Prod.snd, z.nodup⟩

instance : Membership α (SortedSet σ α) := ⟨fun z a => a ∈ z.members⟩

instance (a : α) : Decidable (a ∈ z) := inferInstanceAs (Decidable (a ∈ z.members))

def card : Nat := z.entries.length

def remove (a : α) : SortedSet σ α where
  entries := z.entries.filter fun p => p.2 ≠ a
  sorted := z.sorted.filter _
  nodup := z.nodup.sublist (List.filter_sublist.map _)

theorem mem_iff {a : α} : a ∈ z ↔ ∃ x, (x, a) ∈ z.entries := by
  change a ∈ z.entries.map Prod.snd ↔ _
  simp

/-- Insert the member, or move it to its new score. -/
def add (a : α) (x : σ) : SortedSet σ α where
  entries := (z.remove a).entries.orderedInsert Before (x, a)
  sorted := (z.remove a).sorted.orderedInsert _ _
  nodup := by
    have hp := ((z.remove a).entries.perm_orderedInsert Before (x, a)).map Prod.snd
    rw [hp.nodup_iff, List.map_cons, List.nodup_cons]
    refine ⟨fun h => ?_, (z.remove a).nodup⟩
    simp [remove] at h

def popMin? : Option (σ × α × SortedSet σ α) :=
  match z with
  | ⟨[], _, _⟩ => none
  | ⟨p :: rest, hs, hn⟩ =>
    some (p.1, p.2, ⟨rest, (List.pairwise_cons.mp hs).2, (List.nodup_cons.mp hn).2⟩)

def rangeByScore (lo hi : σ) : List α :=
  (z.entries.filter fun p => lo ≤ p.1 ∧ p.1 ≤ hi).map Prod.snd

def rank? (a : α) : Option Nat := z.entries.findIdx? fun p => p.2 = a

/-- How many entries stand before the one of `a` with score `x`. -/
def ahead (x : σ) (a : α) : Nat := z.entries.countP fun p => Before p (x, a) ∧ p.2 ≠ a

/-! ## Membership -/

variable {z}

theorem mem_members {a : α} : a ∈ z.members ↔ a ∈ z := Iff.rfl

@[simp] theorem card_members : z.members.card = z.card :=
  List.length_map _

@[simp] theorem notMem_empty (a : α) : a ∉ (empty : SortedSet σ α) := by simp [mem_iff, empty]

@[simp] theorem members_empty : (empty : SortedSet σ α).members = ∅ := rfl

@[simp] theorem mem_remove {a b : α} : b ∈ z.remove a ↔ b ≠ a ∧ b ∈ z := by
  simp only [mem_iff, remove, List.mem_filter, decide_eq_true_eq]
  constructor
  · rintro ⟨x, hx, hb⟩; exact ⟨hb, x, hx⟩
  · rintro ⟨hb, x, hx⟩; exact ⟨x, hx, hb⟩

@[simp] theorem mem_add {a b : α} {x : σ} : b ∈ z.add a x ↔ b = a ∨ b ∈ z := by
  have : b ∈ z.add a x ↔ b = a ∨ b ∈ z.remove a := by
    simp only [mem_iff, add, List.mem_orderedInsert, Prod.mk.injEq]
    constructor
    · rintro ⟨y, ⟨-, hb⟩ | hy⟩
      · exact .inl hb
      · exact .inr ⟨y, hy⟩
    · rintro (hb | ⟨y, hy⟩)
      · exact ⟨x, .inl ⟨rfl, hb⟩⟩
      · exact ⟨y, .inr hy⟩
  rw [this, mem_remove]
  by_cases h : b = a <;> simp [h]

@[simp] theorem members_remove (a : α) : (z.remove a).members = z.members.erase a := by
  ext b; simp [mem_members]

@[simp] theorem members_add (a : α) (x : σ) : (z.add a x).members = insert a z.members := by
  ext b; simp [mem_members]

theorem mem_entries_add {a : α} {x : σ} {p : σ × α} (h : p ∈ (z.add a x).entries) : p = (x, a) ∨ p ∈ z.entries := by
  simp only [add, List.mem_orderedInsert, remove, List.mem_filter] at h
  exact h.imp id And.left

theorem mem_entries_remove {a : α} {p : σ × α} (h : p ∈ (z.remove a).entries) : p ∈ z.entries :=
  (List.mem_filter.mp h).1

theorem entries_of_popMin {x : σ} {a : α} {z' : SortedSet σ α} (h : z.popMin? = some (x, a, z')) :
    z.entries = (x, a) :: z'.entries := by
  obtain ⟨l, hs, hn⟩ := z
  cases l with
  | nil => simp [popMin?] at h
  | cons p rest =>
    simp only [popMin?, Option.some.injEq, Prod.mk.injEq] at h
    obtain ⟨rfl, rfl, rfl⟩ := h
    rfl

theorem popMin_of_entries {x : σ} {a : α} {l : List (σ × α)} (h : z.entries = (x, a) :: l) :
    ∃ z' : SortedSet σ α, z'.entries = l ∧ z.popMin? = some (x, a, z') := by
  obtain ⟨_, hs, hn⟩ := z
  subst h
  exact ⟨_, rfl, rfl⟩

theorem mem_of_popMin {x : σ} {a : α} {z' : SortedSet σ α} (h : z.popMin? = some (x, a, z')) (b : α) :
    b ∈ z ↔ b = a ∨ b ∈ z' := by
  simp only [mem_iff, entries_of_popMin h, List.mem_cons, Prod.mk.injEq]
  constructor
  · rintro ⟨y, ⟨-, hb⟩ | hy⟩
    · exact .inl hb
    · exact .inr ⟨y, hy⟩
  · rintro (hb | ⟨y, hy⟩)
    · exact ⟨x, .inl ⟨rfl, hb⟩⟩
    · exact ⟨y, .inr hy⟩

theorem popped_notMem {x : σ} {a : α} {z' : SortedSet σ α} (h : z.popMin? = some (x, a, z')) : a ∉ z' := by
  have hn := z.nodup
  rw [entries_of_popMin h, List.map_cons, List.nodup_cons] at hn
  exact hn.1

/-- The popped entry comes before every entry that stays. -/
theorem popMin_least {x : σ} {a : α} {z' : SortedSet σ α} (h : z.popMin? = some (x, a, z')) :
    ∀ p ∈ z'.entries, Before (x, a) p := by
  have hs := z.sorted
  rw [entries_of_popMin h] at hs
  exact (List.pairwise_cons.mp hs).1

theorem score_unique {x y : σ} {a : α} (hx : (x, a) ∈ z.entries) (hy : (y, a) ∈ z.entries) : x = y :=
  congrArg Prod.fst (List.inj_on_of_nodup_map z.nodup hx hy rfl)

section
variable {x y : σ} {a b : α} {z' : SortedSet σ α}

theorem rank?_eq (h : (x, a) ∈ z.entries) : z.rank? a = some (z.ahead x a) := by
  obtain ⟨l, sorted, nodup⟩ := z
  change (x, a) ∈ l at h
  change l.findIdx? (fun p => decide (p.2 = a)) = some (l.countP fun p => Before p (x, a) ∧ p.2 ≠ a)
  induction l with
  | nil => cases h
  | cons p l ih =>
    obtain ⟨before, sorted⟩ := List.pairwise_cons.mp sorted
    obtain ⟨fresh, nodup⟩ := List.nodup_cons.mp nodup
    rcases List.mem_cons.mp h with rfl | h
    · have none_ahead : l.countP (fun p => Before p (x, a) ∧ p.2 ≠ a) = 0 := by
        refine List.countP_eq_zero.mpr fun q hq hb => ?_
        obtain ⟨hle, hne⟩ := of_decide_eq_true hb
        rcases before q hq with hlt | ⟨heq, hmem⟩ <;> rcases hle with hlt' | ⟨heq', hmem'⟩
        · exact lt_asymm hlt hlt'
        · exact lt_irrefl _ (heq' ▸ hlt)
        · exact lt_irrefl _ (heq ▸ hlt')
        · exact hne (le_antisymm hmem' hmem)
      rw [List.findIdx?_cons, List.countP_cons_of_neg (by simp), none_ahead]
      exact if_pos (decide_eq_true rfl)
    · have hne : p.2 ≠ a := fun e => fresh (e ▸ List.mem_map_of_mem h)
      rw [List.findIdx?_cons, ih sorted nodup h, List.countP_cons_of_pos (by simp [before _ h, hne])]
      simp [hne]

/-- A pop that leaves `a` takes an entry that stood before it. -/
theorem ahead_of_popMin (h : z.popMin? = some (y, b, z')) (ha : (x, a) ∈ z'.entries) :
    z.ahead x a = z'.ahead x a + 1 := by
  have hne : b ≠ a := by
    rintro rfl
    exact popped_notMem h ((mem_iff _).mpr ⟨x, ha⟩)
  unfold ahead
  rw [entries_of_popMin h, List.countP_cons_of_pos]
  simp [popMin_least h _ ha, hne]

theorem ahead_remove_le : (z.remove b).ahead x a ≤ z.ahead x a := List.filter_sublist.countP_le

theorem ahead_add_le : (z.add b y).ahead x a ≤ z.ahead x a + if Before (y, b) (x, a) then 1 else 0 := by
  have hp := (z.remove b).entries.perm_orderedInsert Before (y, b)
  have hle : (z.remove b).ahead x a ≤ z.ahead x a := ahead_remove_le
  unfold ahead at hle ⊢
  rw [add, hp.countP_eq, List.countP_cons]
  refine Nat.add_le_add hle ?_
  by_cases hb : Before (y, b) (x, a)
  · rw [if_pos hb]
    split <;> omega
  · simp [hb]

end

/-- The one member's entry is strictly before the other's. -/
def Ahead (z : SortedSet σ α) (a b : α) : Prop :=
  ∃ x y, (x, a) ∈ z.entries ∧ (y, b) ∈ z.entries ∧ (x < y ∨ x = y ∧ a < b)

/-- While both are there the later one is not popped. -/
theorem popMin_ne_of_ahead {a b c : α} {w : σ} {z' : SortedSet σ α} (h : z.Ahead a b)
    (hp : z.popMin? = some (w, c, z')) : c ≠ b := by
  obtain ⟨x, y, hx, hy, hlt⟩ := h
  rintro rfl
  have hw : (w, c) ∈ z.entries := by rw [entries_of_popMin hp]; exact List.mem_cons_self ..
  have := score_unique hw hy
  subst this
  rw [entries_of_popMin hp] at hx
  rcases List.mem_cons.mp hx with he | hx
  · cases he
    exact hlt.elim (lt_irrefl _) fun h => lt_irrefl _ h.2
  · rcases popMin_least hp _ hx with h | ⟨h, h'⟩
    · rcases hlt with hlt | ⟨hlt, -⟩
      · exact lt_asymm h hlt
      · exact absurd hlt.symm h.ne
    · rcases hlt with hlt | ⟨-, hlt⟩
      · exact absurd h.symm hlt.ne
      · exact absurd hlt (not_lt.mpr h')

theorem card_of_popMin {x : σ} {a : α} {z' : SortedSet σ α} (h : z.popMin? = some (x, a, z')) :
    z.card = z'.card + 1 := by
  rw [card, entries_of_popMin h, List.length_cons, card]

theorem card_add (a : α) (x : σ) : (z.add a x).card ≤ z.card + 1 := by
  rw [← card_members, ← card_members, members_add]; exact Finset.card_insert_le _ _

theorem card_remove (a : α) : (z.remove a).card ≤ z.card := by
  rw [← card_members, ← card_members, members_remove]; exact Finset.card_erase_le

theorem popMin_eq_none : z.popMin? = none ↔ ∀ a, a ∉ z := by
  obtain ⟨l, hs, hn⟩ := z
  cases l with
  | nil => simp [popMin?, mem_iff]
  | cons p rest =>
    simp only [popMin?, mem_iff, reduceCtorEq, false_iff, not_forall, not_not]
    exact ⟨p.2, p.1, List.mem_cons_self ..⟩

theorem mem_rangeByScore {lo hi : σ} {a : α} :
    a ∈ z.rangeByScore lo hi ↔ ∃ x, (x, a) ∈ z.entries ∧ lo ≤ x ∧ x ≤ hi := by
  simp [rangeByScore]

theorem mem_of_rangeByScore {lo hi : σ} {a : α} (h : a ∈ z.rangeByScore lo hi) : a ∈ z := by
  obtain ⟨x, hx, -⟩ := mem_rangeByScore.mp h
  exact (mem_iff z).mpr ⟨x, hx⟩

theorem rangeByScore_all {lo hi : σ} (h : ∀ p ∈ z.entries, lo ≤ p.1 ∧ p.1 ≤ hi) :
    z.rangeByScore lo hi = z.entries.map Prod.snd := by
  rw [rangeByScore, List.filter_eq_self.mpr]
  simpa using h

end

end SortedSet

end AdmissionScheduler
