import Mathlib.Data.List.Infix
import Mathlib.Tactic.Common

/-!
# Paths

An absolute path is its list of components. `join` is pathlib's `/`: it drops
empty components and `.`, and an absolute right operand replaces the left. `..`
is left to the file system, whose `resolve` has no symbolic links to follow.
-/

namespace AdmissionScheduler

abbrev Path := List (List Char)

namespace PosixPath

def parts (s : List Char) : Path := (s.splitOn '/').filter fun c => c ≠ [] ∧ c ≠ ['.']

def isAbsolute (s : List Char) : Bool := s.head? = some '/'

def join (base : Path) (s : List Char) : Path := if isAbsolute s then parts s else base ++ parts s

def enter (at_ : Path) (c : List Char) : Path := if c = ['.', '.'] then at_.dropLast else at_ ++ [c]

def resolve (p : Path) : Path := p.foldl enter []

def text (p : Path) : List Char := List.intercalate ['/'] p

def relativeTo (base p : Path) : Option Path := if base <+: p then some (p.drop base.length) else none

/-- A relative path that is its own normal form. -/
def Plain (s : List Char) : Prop := ∀ c ∈ s.splitOn '/', c ≠ [] ∧ c ≠ ['.'] ∧ c ≠ ['.', '.']

instance (s : List Char) : Decidable (Plain s) := inferInstanceAs (Decidable (∀ _ ∈ _, _))

variable {base p q : Path} {s : List Char}

theorem foldl_enter (h : ['.', '.'] ∉ q) : q.foldl enter p = p ++ q := by
  induction q generalizing p with
  | nil => simp
  | cons c q ih =>
    rw [List.foldl_cons, enter, if_neg fun e => h (by simp [e]), ih fun hc => h (by simp [hc]), List.append_assoc]
    rfl

theorem resolve_append (h : ['.', '.'] ∉ q) : resolve (p ++ q) = resolve p ++ q := by
  rw [resolve, List.foldl_append, foldl_enter h]
  rfl

@[simp] theorem relativeTo_append : relativeTo base (base ++ p) = some p := by simp [relativeTo]

namespace Plain

theorem parts_eq (h : Plain s) : parts s = s.splitOn '/' :=
  List.filter_eq_self.mpr fun c hc => decide_eq_true ⟨(h c hc).1, (h c hc).2.1⟩

theorem not_isAbsolute (h : Plain s) : isAbsolute s = false := by
  cases s with
  | nil => rfl
  | cons c s =>
    refine decide_eq_false fun e => ?_
    obtain rfl : c = '/' := by simpa using e
    exact (h [] (by simp [List.splitOn, List.splitOnP_cons_eq_if_modifyHead])).1 rfl

/-- A plain path leads where it says. -/
theorem resolve_join (h : Plain s) : resolve (join base s) = resolve base ++ s.splitOn '/' := by
  rw [join, h.not_isAbsolute, if_neg Bool.false_ne_true, h.parts_eq]
  exact resolve_append fun hc => (h _ hc).2.2 rfl

end Plain

theorem text_splitOn : text (s.splitOn '/') = s := List.intercalate_splitOn '/'

end PosixPath

end AdmissionScheduler
