import Mathlib.Data.List.DropRight
import Mathlib.Tactic.Common

/-!
# Python's text functions

On lists of characters: `strip`, `lstrip`, `splitlines` and `in`, with Python's
own sets of white space and line breaks.
-/

namespace AdmissionScheduler.PyText

def isSpace (c : Char) : Bool :=
  let n := c.toNat
  (9 ≤ n && n ≤ 13) || (28 ≤ n && n ≤ 32) || n == 0x85 || n == 0xa0 || n == 0x1680 ||
    (0x2000 ≤ n && n ≤ 0x200a) || n == 0x2028 || n == 0x2029 || n == 0x202f || n == 0x205f || n == 0x3000

def isLineBreak (c : Char) : Bool :=
  let n := c.toNat
  (10 ≤ n && n ≤ 13) || (28 ≤ n && n ≤ 30) || n == 0x85 || n == 0x2028 || n == 0x2029

def stripSpace (s : List Char) : List Char := (s.dropWhile isSpace).rdropWhile isSpace

def lstrip (c : Char) (s : List Char) : List Char := s.dropWhile (· == c)

def occursIn (needle s : List Char) : Bool := s.tails.any needle.isPrefixOf

def clip (n : Nat) (s : String) : String := String.ofList (s.toList.take n)

def splitlines : List Char → List (List Char)
  | [] => []
  | '\r' :: '\n' :: s => [] :: splitlines s
  | c :: s =>
    if isLineBreak c then [] :: splitlines s
    else match splitlines s with
      | [] => [[c]]
      | l :: ls => (c :: l) :: ls

def indent (line : List Char) : List Char := line.takeWhile fun c => c = ' ' ∨ c = '\t'

def commonPrefix : List Char → List Char → List Char
  | c :: s, d :: t => if c = d then c :: commonPrefix s t else []
  | _, _ => []

def dedent (s : String) : String :=
  let lines := (s.toList.splitOn '\n').map fun l => if indent l = l then [] else l
  let margins := (lines.filter (· ≠ [])).map indent
  let margin := margins.tail.foldl commonPrefix (margins.headD [])
  String.ofList (List.intercalate ['\n'] (lines.map (List.drop margin.length)))

def hexDigits (n : Nat) : List Char := [Nat.digitChar (n / 16), Nat.digitChar (n % 16)]

/-- `repr` of a string; characters beyond ASCII are taken to be printable. -/
def pyRepr (s : String) : String :=
  let quote := if '\x27' ∈ s.toList ∧ '\x22' ∉ s.toList then '\x22' else '\x27'
  String.ofList (quote :: (s.toList.flatMap fun c =>
    if c = quote ∨ c = '\\' then ['\\', c]
    else if c = '\n' then ['\\', 'n']
    else if c = '\r' then ['\\', 'r']
    else if c = '\t' then ['\\', 't']
    else if c.toNat < 32 ∨ c.toNat = 127 then ['\\', 'x'] ++ hexDigits c.toNat
    else [c]) ++ [quote])

def reprList (items : List String) : String := "[" ++ ", ".intercalate items ++ "]"

/-! ## Trimming -/

section
variable {p : Char → Bool} {a b m : List Char}

theorem dropWhile_between (hne : a ++ b ≠ []) (hf : ∀ x ∈ (a ++ b).head?, p x = false) :
    ∃ m', (a ++ m ++ b).dropWhile p = a ++ m' ++ b ∧ (m = [] → m' = []) := by
  cases a with
  | cons c a => exact ⟨m, by simp [hf c rfl], id⟩
  | nil =>
    obtain ⟨x, b, rfl⟩ := List.exists_cons_of_ne_nil hne
    refine ⟨m.dropWhile p, ?_, fun h => by simp [h]⟩
    induction m with
    | nil => simp [hf x rfl]
    | cons c m ih => by_cases hc : p c = true <;> simp_all

theorem rdropWhile_between (hne : a ++ b ≠ []) (hl : ∀ x ∈ (a ++ b).getLast?, p x = false) :
    ∃ m', (a ++ m ++ b).rdropWhile p = a ++ m' ++ b ∧ (m = [] → m' = []) := by
  obtain ⟨m', h, hm⟩ := dropWhile_between (p := p) (a := b.reverse) (m := m.reverse) (b := a.reverse)
    (by simpa [and_comm] using hne) (by rwa [← List.reverse_append, List.head?_reverse])
  refine ⟨m'.reverse, ?_, fun e => by simp [hm (by simp [e])]⟩
  rw [List.rdropWhile, List.reverse_append, List.reverse_append, ← List.append_assoc, h]
  simp

/-- Trimming only eats into what stands between a first and a last character that are kept. -/
theorem trim_between (hne : a ++ b ≠ []) (hf : ∀ x ∈ (a ++ b).head?, isSpace x = false ∧ x ≠ '/')
    (hl : ∀ x ∈ (a ++ b).getLast?, isSpace x = false) :
    ∃ m', lstrip '/' (stripSpace (a ++ m ++ b)) = a ++ m' ++ b ∧ (m = [] → m' = []) := by
  obtain ⟨m₁, h₁, e₁⟩ := dropWhile_between (m := m) hne fun x hx => (hf x hx).1
  obtain ⟨m₂, h₂, e₂⟩ := rdropWhile_between (m := m₁) hne hl
  obtain ⟨m₃, h₃, e₃⟩ := dropWhile_between (p := (· == '/')) (m := m₂) hne fun x hx => by simpa using (hf x hx).2
  exact ⟨m₃, by rw [stripSpace, h₁, h₂, lstrip, h₃], e₃ ∘ e₂ ∘ e₁⟩

end

/-! ## Lines -/

section
variable {c : Char} {s : List Char}

theorem splitlines_cons (hc : isLineBreak c = false) :
    splitlines (c :: s) = (c :: (splitlines s).headD []) :: (splitlines s).tail := by
  rw [splitlines, if_neg (by simp [hc])]
  · cases splitlines s <;> rfl
  · rintro s' rfl
    exact absurd hc (by decide)

theorem splitlines_lf : splitlines ('\n' :: s) = [] :: splitlines s := by
  rw [splitlines, if_pos (by decide)]
  intro _ h
  exact absurd h (by decide)

/-- A carriage return in front of a line feed is part of the same break. -/
theorem splitlines_break (hc : isLineBreak c = true) :
    splitlines (c :: s) = if c = '\r' ∧ s.head? = some '\n' then splitlines s else [] :: splitlines s := by
  by_cases h : c = '\r' ∧ s.head? = some '\n'
  · obtain ⟨rfl, hs⟩ := h
    obtain ⟨s', rfl⟩ := List.head?_eq_some_iff.mp hs
    rw [if_pos ⟨rfl, rfl⟩, splitlines, splitlines_lf]
  · rw [if_neg h, splitlines, if_pos hc]
    rintro s' rfl rfl
    exact h ⟨rfl, rfl⟩

theorem splitlines_ne_nil (h : s ≠ []) : splitlines s ≠ [] := by
  fun_cases splitlines s <;> simp_all

end

/-- A line feed ends a line wherever it stands. -/
theorem splitlines_append (a b : List Char) :
    splitlines (a ++ '\n' :: b) = splitlines (a ++ ['\n']) ++ splitlines b := by
  induction a with
  | nil => simp [splitlines_lf, splitlines]
  | cons c s ih =>
    simp only [List.cons_append]
    by_cases hc : isLineBreak c = true
    · have hh : (s ++ '\n' :: b).head? = (s ++ ['\n']).head? := by cases s <;> rfl
      rw [splitlines_break hc, splitlines_break hc, hh, ih]
      split <;> rfl
    · rw [splitlines_cons (by simpa using hc), splitlines_cons (by simpa using hc), ih]
      obtain ⟨l, ls, h⟩ := List.exists_cons_of_ne_nil (splitlines_ne_nil (List.append_ne_nil_of_right_ne_nil s
        (List.cons_ne_nil '\n' [])))
      rw [h]
      rfl

/-- Ending a text with a line feed adds an empty line at most. -/
theorem splitlines_snoc (a : List Char) :
    splitlines (a ++ ['\n']) = splitlines a ∨ splitlines (a ++ ['\n']) = splitlines a ++ [[]] := by
  induction a with
  | nil => exact .inr splitlines_lf
  | cons c s ih =>
    rw [List.cons_append]
    by_cases hc : isLineBreak c = true
    · rw [splitlines_break hc, splitlines_break hc]
      cases s with
      | nil => by_cases hr : c = '\r' <;> simp [hr, splitlines_lf, splitlines]
      | cons d s =>
        have hh : (d :: s ++ ['\n']).head? = (d :: s).head? := rfl
        rw [hh]
        by_cases hr : c = '\r' ∧ (d :: s).head? = some '\n'
        · rwa [if_pos hr, if_pos hr]
        · rw [if_neg hr, if_neg hr]
          rcases ih with h | h <;> rw [h] <;> simp
    · rw [splitlines_cons (by simpa using hc), splitlines_cons (by simpa using hc)]
      cases s with
      | nil => simp [splitlines_lf, splitlines]
      | cons d s =>
        obtain ⟨l, ls, h⟩ := List.exists_cons_of_ne_nil (splitlines_ne_nil (List.cons_ne_nil d s))
        rw [h] at ih ⊢
        rcases ih with h | h <;> rw [h] <;> simp

variable {P : List Char → Bool}

/-- Looking for a line that is not empty, the text may be cut at its line feeds first. -/
theorem any_splitlines (hP : P [] = false) (s : List Char) :
    (splitlines s).any P = (s.splitOn '\n').any fun g => (splitlines g).any P := by
  have hlines : ∀ gs : List (List Char), gs ≠ [] →
      (splitlines (['\n'].intercalate gs)).any P = gs.any fun g => (splitlines g).any P := by
    intro gs hne
    induction gs with
    | nil => exact absurd rfl hne
    | cons g gs ih =>
      by_cases hgs : gs = []
      · simp [hgs, List.intercalate]
      · have hcut : ['\n'].intercalate (g :: gs) = g ++ '\n' :: ['\n'].intercalate gs := by
          rw [List.intercalate_cons_of_ne_nil hgs, List.append_assoc, List.singleton_append]
        rw [hcut, splitlines_append, List.any_append, ih hgs, List.any_cons]
        rcases splitlines_snoc g with h | h <;> simp [h, hP]
  rw [← hlines _ (List.splitOn_ne_nil _ _), List.intercalate_splitOn]

end AdmissionScheduler.PyText
