import Mathlib.Data.List.Infix
import Mathlib.Tactic.Common

/-!
# Glob patterns

What `fnmatch` makes of a pattern without character classes: `*` stands for any
run of symbols, separators included, `?` for one symbol, and every other symbol
for itself.
-/

namespace AdmissionScheduler.Glob

inductive Piece (α : Type) where
  | lit (c : α)
  | any
  | star
  deriving DecidableEq

section
variable {α : Type} [DecidableEq α]

def fits : List (Piece α) → List α → Bool
  | [], s => s.isEmpty
  | .lit _ :: _, [] => false
  | .lit c :: p, x :: s => x == c && fits p s
  | .any :: _, [] => false
  | .any :: p, _ :: s => fits p s
  | .star :: p, s => s.tails.any fun r => fits p r

variable {p : List (Piece α)} {a b s : List α}

theorem fits_star : fits (.star :: p) s = true ↔ ∃ m r, s = m ++ r ∧ fits p r = true := by
  simp only [fits, List.any_eq_true, List.mem_tails]
  constructor
  · rintro ⟨r, ⟨m, rfl⟩, hr⟩
    exact ⟨m, r, rfl, hr⟩
  · rintro ⟨m, r, rfl, hr⟩
    exact ⟨r, List.suffix_append m r, hr⟩

theorem fits_lits : fits (a.map .lit ++ p) s = true ↔ ∃ r, s = a ++ r ∧ fits p r = true := by
  induction a generalizing s with
  | nil => simp
  | cons c a ih =>
    cases s with
    | nil => simp [fits]
    | cons x s =>
      simp only [List.map_cons, List.cons_append, fits, Bool.and_eq_true, beq_iff_eq, ih, List.cons.injEq]
      constructor
      · rintro ⟨rfl, r, rfl, hr⟩; exact ⟨r, ⟨rfl, rfl⟩, hr⟩
      · rintro ⟨r, ⟨rfl, rfl⟩, hr⟩; exact ⟨rfl, r, rfl, hr⟩

theorem fits_lit : fits (a.map .lit) s = true ↔ s = a := by
  have h := fits_lits (p := []) (a := a) (s := s)
  rw [List.append_nil] at h
  simp [h, fits]

/-- One star: a prefix and a suffix that do not overlap. -/
theorem fits_around : fits (a.map .lit ++ .star :: b.map .lit) s = true ↔ ∃ m, s = a ++ m ++ b := by
  rw [fits_lits]
  constructor
  · rintro ⟨r, rfl, hr⟩
    obtain ⟨m, e, rfl, he⟩ := fits_star.mp hr
    exact ⟨m, by rw [fits_lit.mp he, List.append_assoc]⟩
  · rintro ⟨m, rfl⟩
    exact ⟨m ++ b, List.append_assoc .., fits_star.mpr ⟨m, b, rfl, fits_lit.mpr rfl⟩⟩

end

/-! ## Patterns as text -/

def compile (pattern : List Char) : List (Piece Char) :=
  pattern.map fun c => if c = '*' then .star else if c = '?' then .any else .lit c

def fnmatch (name pattern : List Char) : Bool := fits (compile pattern) name

def Literal (c : Char) : Prop := c ≠ '*' ∧ c ≠ '?'

instance (c : Char) : Decidable (Literal c) := inferInstanceAs (Decidable (_ ∧ _))

def Literals (a : List Char) : Prop := ∀ c ∈ a, Literal c

-- not by going through all characters
instance (a : List Char) : Decidable (Literals a) := List.decidableBAll _ a

section
variable {a b s : List Char}

theorem compile_literal (ha : ∀ c ∈ a, Literal c) : compile a = a.map .lit :=
  List.map_congr_left fun c hc => by rw [if_neg (ha c hc).1, if_neg (ha c hc).2]

theorem fnmatch_literal (ha : ∀ c ∈ a, Literal c) : fnmatch s a = true ↔ s = a := by
  rw [fnmatch, compile_literal ha, fits_lit]

theorem fnmatch_around (ha : ∀ c ∈ a, Literal c) (hb : ∀ c ∈ b, Literal c) :
    fnmatch s (a ++ '*' :: b) = true ↔ ∃ m, s = a ++ m ++ b := by
  have h : compile (a ++ '*' :: b) = a.map .lit ++ .star :: b.map .lit := by
    rw [← compile_literal ha, ← compile_literal hb, compile, List.map_append]; rfl
  rw [fnmatch, h, fits_around]

end

end AdmissionScheduler.Glob
