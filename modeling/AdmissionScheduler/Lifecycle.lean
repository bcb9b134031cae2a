import Mathlib.Data.List.Basic
import Mathlib.Data.Nat.Basic
import Mathlib.Logic.Function.Basic
import Mathlib.Tactic.Common

/-!
# Lifecycles of objects, read off a trace

Some events of a trace move an object from one stage to a later one. `stage`
reads the stage of an object off a trace (newest event first) and `Legal` says
that each event found its object at the stage it moves from. Ranks strictly
increase along a move, so a legal trace leaves each stage at most once.
-/

namespace AdmissionScheduler

structure Lifecycle (E K S : Type*) where
  init : S
  /-- The object an event moves, the stage it leaves and the stage it enters. -/
  move : E → Option (K × S × S)
  rank : S → Nat
  rank_lt : ∀ {e k s t}, move e = some (k, s, t) → rank s < rank t

namespace Lifecycle

section
variable {E K S : Type*} [DecidableEq K] (L : Lifecycle E K S)

def stage : List E → K → S
  | [], _ => L.init
  | e :: l, k =>
    match L.move e with
    | some (k', _, t) => if k' = k then t else stage l k
    | none => stage l k

def Legal : List E → Prop
  | [] => True
  | e :: l => (∀ k s t, L.move e = some (k, s, t) → L.stage l k = s) ∧ Legal l

/-- The event moves `k` out of a stage of rank `n`. -/
def crosses (n : Nat) (k : K) (e : E) : Bool :=
  match L.move e with
  | some (k', s, _) => k' = k ∧ L.rank s = n
  | none => false

variable {L}

theorem stage_cons_none {e : E} {l : List E} (h : L.move e = none) (k : K) :
    L.stage (e :: l) k = L.stage l k := by simp [stage, h]

theorem stage_cons_self {e : E} {l : List E} {k : K} {s t : S} (h : L.move e = some (k, s, t)) :
    L.stage (e :: l) k = t := by simp [stage, h]

theorem stage_cons_ne {e : E} {l : List E} {k k' : K} {s t : S} (h : L.move e = some (k', s, t))
    (hk : k' ≠ k) : L.stage (e :: l) k = L.stage l k := by simp [stage, h, hk]

theorem legal_cons_none {e : E} {l : List E} (h : L.move e = none) (hl : L.Legal l) : L.Legal (e :: l) :=
  ⟨fun _ _ _ hm => absurd (h.symm.trans hm) nofun, hl⟩

theorem legal_cons {e : E} {l : List E} {k : K} {s t : S} (h : L.move e = some (k, s, t))
    (hs : L.stage l k = s) (hl : L.Legal l) : L.Legal (e :: l) := by
  refine ⟨fun k' s' t' hm => ?_, hl⟩
  rw [h, Option.some.injEq, Prod.mk.injEq, Prod.mk.injEq] at hm
  obtain ⟨rfl, rfl, -⟩ := hm
  exact hs

theorem crosses_iff {n : Nat} {k : K} {e : E} :
    L.crosses n k e = true ↔ ∃ s t, L.move e = some (k, s, t) ∧ L.rank s = n := by
  unfold crosses
  cases h : L.move e with
  | none => simp
  | some m =>
    obtain ⟨k', s, t⟩ := m
    simp only [decide_eq_true_eq, Option.some.injEq, Prod.mk.injEq]
    constructor
    · rintro ⟨rfl, rfl⟩; exact ⟨s, t, ⟨rfl, rfl, rfl⟩, rfl⟩
    · rintro ⟨_, _, ⟨rfl, rfl, rfl⟩, hn⟩; exact ⟨rfl, hn⟩

/-- Along a legal trace the rank of an object's stage does not go down. -/
theorem rank_stage_le {e : E} {l : List E} (hl : L.Legal (e :: l)) (k : K) :
    L.rank (L.stage l k) ≤ L.rank (L.stage (e :: l) k) := by
  cases hm : L.move e with
  | none => rw [stage_cons_none hm]
  | some m =>
    obtain ⟨k', s, t⟩ := m
    by_cases hk : k' = k
    · subst hk
      rw [stage_cons_self hm, hl.1 _ _ _ hm]
      exact Nat.le_of_lt (L.rank_lt hm)
    · rw [stage_cons_ne hm hk]

/-- An object never gets behind the stage an earlier event moved it to. -/
theorem rank_le_of_mem {k : K} {s t : S} : ∀ {l : List E}, L.Legal l → ∀ {e : E}, e ∈ l →
    L.move e = some (k, s, t) → L.rank t ≤ L.rank (L.stage l k)
  | e' :: l, hl, e, he, hm => by
    rcases List.mem_cons.mp he with rfl | he
    · rw [stage_cons_self hm]
    · exact Nat.le_trans (rank_le_of_mem hl.2 he hm) (rank_stage_le hl k)

/-- An object away from its initial stage was moved there. -/
theorem exists_move_of_stage {k : K} {t : S} : ∀ {l : List E}, L.stage l k = t → t ≠ L.init →
    ∃ e ∈ l, ∃ s, L.move e = some (k, s, t)
  | [], h, hne => absurd h.symm hne
  | e :: l, h, hne => by
    cases hm : L.move e with
    | none =>
      rw [stage_cons_none hm] at h
      obtain ⟨e', he', hs⟩ := exists_move_of_stage h hne
      exact ⟨e', List.mem_cons_of_mem _ he', hs⟩
    | some m =>
      obtain ⟨k', s, t'⟩ := m
      by_cases hk : k' = k
      · subst hk
        rw [stage_cons_self hm] at h; subst h
        exact ⟨e, List.mem_cons_self .., s, hm⟩
      · rw [stage_cons_ne hm hk] at h
        obtain ⟨e', he', hs⟩ := exists_move_of_stage h hne
        exact ⟨e', List.mem_cons_of_mem _ he', hs⟩

/-- An event found its object at the stage it left, so that stage had been entered before. -/
theorem exists_move_before {k : K} {s t : S} : ∀ {l : List E}, L.Legal l → ∀ {e : E}, e ∈ l →
    L.move e = some (k, s, t) → s ≠ L.init → ∃ e' ∈ l, ∃ r, L.move e' = some (k, r, s)
  | e' :: l, hl, e, he, hm, hne => by
    rcases List.mem_cons.mp he with rfl | he
    · obtain ⟨e'', he'', hr⟩ := exists_move_of_stage (hl.1 _ _ _ hm) hne
      exact ⟨e'', List.mem_cons_of_mem _ he'', hr⟩
    · obtain ⟨e'', he'', hr⟩ := exists_move_before hl.2 he hm hne
      exact ⟨e'', List.mem_cons_of_mem _ he'', hr⟩

/-- Once an object has left a rank it stays above it. -/
theorem lt_of_crosses {n : Nat} {k : K} {l : List E} (hl : L.Legal l) {e : E} (he : e ∈ l)
    (hc : L.crosses n k e = true) : n < L.rank (L.stage l k) := by
  obtain ⟨s, t, hm, rfl⟩ := crosses_iff.mp hc
  exact Nat.lt_of_lt_of_le (L.rank_lt hm) (rank_le_of_mem hl he hm)

/-- A legal trace moves an object out of each rank at most once. -/
theorem count_crosses_le_one {n : Nat} {k : K} : ∀ {l : List E}, L.Legal l → l.countP (L.crosses n k) ≤ 1
  | [], _ => Nat.zero_le _
  | e :: l, hl => by
    rw [List.countP_cons]
    split
    · rename_i he
      obtain ⟨s, t, hm, rfl⟩ := crosses_iff.mp he
      have : l.countP (L.crosses (L.rank s) k) = 0 := by
        rw [List.countP_eq_zero]
        intro f hf hc
        have := lt_of_crosses hl.2 hf hc
        rw [hl.1 _ _ _ hm] at this; omega
      omega
    · exact count_crosses_le_one hl.2

/-- Two events of a legal trace that move an object out of one rank are one event. -/
theorem crosses_unique {n : Nat} {k : K} : ∀ {l : List E}, L.Legal l → ∀ {e e' : E}, e ∈ l → e' ∈ l →
    L.crosses n k e = true → L.crosses n k e' = true → e = e'
  | f :: l, hl, e, e', he, he', hc, hc' => by
    have past : ∀ {g : E}, g ∈ l → L.crosses n k g = true → L.crosses n k f = true → False := by
      intro g hg hcg hcf
      obtain ⟨s, t, hm, rfl⟩ := crosses_iff.mp hcf
      have := lt_of_crosses hl.2 hg hcg
      rw [hl.1 _ _ _ hm] at this; omega
    rcases List.mem_cons.mp he with rfl | hf <;> rcases List.mem_cons.mp he' with rfl | hf'
    · rfl
    · exact absurd (past hf' hc' hc) not_false
    · exact absurd (past hf hc hc') not_false
    · exact crosses_unique hl.2 hf hf' hc hc'

/-- If each move out of a stage with `P` enters one with `P`, then an object that had it keeps it. -/
theorem stage_append_keep {P : S → Prop} (hP : ∀ {e k s t}, L.move e = some (k, s, t) → P s → P t) {k : K} :
    ∀ {es l : List E}, L.Legal (es ++ l) → P (L.stage l k) → P (L.stage (es ++ l) k)
  | [], _, _, h => h
  | e :: es, l, hl, h => by
    have ih := stage_append_keep hP hl.2 h
    cases hm : L.move e with
    | none => rwa [List.cons_append, stage_cons_none hm]
    | some m =>
      obtain ⟨k', s, t⟩ := m
      by_cases hk : k' = k
      · subst hk
        have hs : L.stage (es ++ l) k' = s := hl.1 _ _ _ hm
        rw [List.cons_append, stage_cons_self hm]
        exact hP hm (hs ▸ ih)
      · rwa [List.cons_append, stage_cons_ne hm hk]

/-- If each move into a stage with `P` leaves a stage with `P`, then an object that has it now had it before. -/
theorem stage_append_back {P : S → Prop} (hP : ∀ {e k s t}, L.move e = some (k, s, t) → P t → P s) {k : K}
    {es l : List E} (hl : L.Legal (es ++ l)) (h : P (L.stage (es ++ l) k)) : P (L.stage l k) := by
  by_contra hn
  exact stage_append_keep (P := fun x => ¬P x) (fun hm hs ht => hs (hP hm ht)) hl hn h

/-! ## Events that make at most one move -/

theorem stage_append_none {es l : List E} (h : es.filterMap L.move = []) (k : K) :
    L.stage (es ++ l) k = L.stage l k := by
  induction es with
  | nil => rfl
  | cons e es ih =>
    cases hm : L.move e with
    | none => rw [List.filterMap_cons_none hm] at h; rw [List.cons_append, stage_cons_none hm, ih h]
    | some m => rw [List.filterMap_cons_some hm] at h; cases h

theorem legal_append_none {es l : List E} (h : es.filterMap L.move = []) (hl : L.Legal l) :
    L.Legal (es ++ l) := by
  induction es with
  | nil => exact hl
  | cons e es ih =>
    cases hm : L.move e with
    | none => rw [List.filterMap_cons_none hm] at h; exact legal_cons_none hm (ih h)
    | some m => rw [List.filterMap_cons_some hm] at h; cases h

theorem stage_append_move {es l : List E} {k : K} {s t : S} (h : es.filterMap L.move = [(k, s, t)]) :
    L.stage (es ++ l) = Function.update (L.stage l) k t := by
  funext k'
  induction es with
  | nil => cases h
  | cons e es ih =>
    cases hm : L.move e with
    | none => rw [List.filterMap_cons_none hm] at h; rw [List.cons_append, stage_cons_none hm, ih h]
    | some m =>
      rw [List.filterMap_cons_some hm, List.cons.injEq] at h
      obtain ⟨rfl, hn⟩ := h
      by_cases hk : k' = k
      · subst hk; rw [List.cons_append, stage_cons_self hm, Function.update_self]
      · rw [List.cons_append, stage_cons_ne hm (Ne.symm hk), stage_append_none hn, Function.update_of_ne hk]

theorem legal_append_move {es l : List E} {k : K} {s t : S} (h : es.filterMap L.move = [(k, s, t)])
    (hs : L.stage l k = s) (hl : L.Legal l) : L.Legal (es ++ l) := by
  induction es with
  | nil => cases h
  | cons e es ih =>
    cases hm : L.move e with
    | none => rw [List.filterMap_cons_none hm] at h; exact legal_cons_none hm (ih h)
    | some m =>
      rw [List.filterMap_cons_some hm, List.cons.injEq] at h
      obtain ⟨rfl, hn⟩ := h
      exact legal_cons hm ((stage_append_none hn k).trans hs) (legal_append_none hn hl)

end

end Lifecycle

end AdmissionScheduler
