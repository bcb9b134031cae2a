import AdmissionScheduler.PyText
import Mathlib.Logic.Function.Basic

/-!
# The environment file

`_load_dotenv` of `orchestrator/config.py`. A line sets a variable that is not
set yet; what the process was started with comes first, and then the first line
that names the variable. A file written in any layout the loader knows is read
back as it was meant.
-/

namespace AdmissionScheduler.Orchestrator.Dotenv

open PyText

/-! ## The loader -/

abbrev Environ := List Char → Option (List Char)

def strip (p : Char → Bool) (s : List Char) : List Char := (s.dropWhile p).rdropWhile p

def isQuote (c : Char) : Bool := c = '\x27' || c = '\x22'

def assignment (line : List Char) : Option (List Char × List Char) :=
  let line := stripSpace line
  if line = [] ∨ line.head? = some '#' ∨ '=' ∉ line then none
  else
    let k := line.takeWhile (· ≠ '=')
    let v := (line.dropWhile (· ≠ '=')).tail
    some (stripSpace k, strip isQuote (stripSpace v))

inductive Refused where
  /-- `ValueError: embedded null byte` -/
  | nullByte
  /-- `OSError` for an empty name -/
  | invalidArgument
  deriving DecidableEq

def setdefault (env : Environ) (k v : List Char) : Except Refused Environ :=
  if (env k).isSome then .ok env
  else if '\x00' ∈ k ∨ '\x00' ∈ v then .error .nullByte
  else if k = [] then .error .invalidArgument
  else .ok (Function.update env k (some v))

def setAll : List (List Char × List Char) → Environ → Except Refused Environ
  | [], env => .ok env
  | (k, v) :: l, env => (setdefault env k v).bind (setAll l)

/-- `_load_dotenv`; `none` when there is no file. -/
def loadDotenv (envfile : Option (List Char)) (env : Environ) : Except Refused Environ :=
  match envfile with
  | none => .ok env
  | some text => setAll ((splitlines text).filterMap assignment) env

/-! ## Which value a variable gets -/

def merged (env : Environ) (l : List (List Char × List Char)) : Environ := fun k => (env k).or (l.lookup k)

section
variable {env env' : Environ} {k v : List Char} {l : List (List Char × List Char)}

theorem setdefault_ok (h : setdefault env k v = .ok env') : env' = merged env [(k, v)] := by
  funext x
  unfold setdefault at h
  split at h
  · rename_i hk
    cases h
    by_cases hx : x = k
    · subst hx
      obtain ⟨w, hw⟩ := Option.isSome_iff_exists.mp hk
      simp [merged, hw]
    · simp [merged, List.lookup_cons, beq_eq_false_iff_ne.mpr hx]
  · rename_i hk
    split at h
    · cases h
    split at h
    · cases h
    cases h
    have hnone : env k = none := Option.not_isSome_iff_eq_none.mp hk
    by_cases hx : x = k
    · subst hx
      simp [merged, hnone]
    · simp [merged, List.lookup_cons, beq_eq_false_iff_ne.mpr hx, Function.update_of_ne hx]

theorem merged_merged : merged (merged env [(k, v)]) l = merged env ((k, v) :: l) := by
  funext x
  by_cases hx : x = k
  · subst hx
    simp [merged]
  · simp [merged, List.lookup_cons, beq_eq_false_iff_ne.mpr hx]

theorem setdefault_clean (hk : k ≠ []) (hz : '\x00' ∉ k ∧ '\x00' ∉ v) : ∃ env', setdefault env k v = .ok env' := by
  unfold setdefault
  by_cases hs : (env k).isSome = true
  · rw [if_pos hs]
    exact ⟨_, rfl⟩
  · rw [if_neg hs, if_neg (not_or.mpr hz), if_neg hk]
    exact ⟨_, rfl⟩

theorem setAll_clean : ∀ {l : List (List Char × List Char)} {env : Environ},
    (∀ p ∈ l, p.1 ≠ [] ∧ '\x00' ∉ p.1 ∧ '\x00' ∉ p.2) → setAll l env = .ok (merged env l)
  | [], env, _ => by
    simp only [setAll, Except.ok.injEq]
    funext x
    simp [merged]
  | (k, v) :: l, env, h => by
    obtain ⟨⟨hk, hz⟩, hl⟩ := List.forall_mem_cons.mp h
    obtain ⟨env₁, hs⟩ : ∃ env₁, setdefault env k v = .ok env₁ := setdefault_clean hk hz
    rw [setAll, hs]
    refine (setAll_clean hl).trans ?_
    rw [setdefault_ok hs, merged_merged]

end

/-! ## Layouts -/

structure Blank where
  text : List Char
  space : ∀ c ∈ text, isSpace c = true ∧ isLineBreak c = false

structure Name where
  text : List Char
  nonempty : text ≠ []
  ends : (∀ c ∈ text.head?, isSpace c = false ∧ c ≠ '#') ∧ ∀ c ∈ text.getLast?, isSpace c = false
  plain : ∀ c ∈ text, isLineBreak c = false ∧ c ≠ '=' ∧ c ≠ '\x00'

/-- A value and the quotes around it, possibly none. White space at an end of the value needs a quote there. -/
structure Value where
  opening : List Char
  text : List Char
  closing : List Char
  quotes : (∀ c ∈ opening, isQuote c = true) ∧ ∀ c ∈ closing, isQuote c = true
  ends : (∀ c ∈ text.head?, isQuote c = false) ∧ ∀ c ∈ text.getLast?, isQuote c = false
  tight : (∀ c ∈ (opening ++ text ++ closing).head?, isSpace c = false) ∧
    ∀ c ∈ (opening ++ text ++ closing).getLast?, isSpace c = false
  plain : ∀ c ∈ text, isLineBreak c = false ∧ c ≠ '\x00'

inductive Line where
  | comment (indent : Blank) (text : List Char) (h : ∀ c ∈ text, isLineBreak c = false)
  /-- no `=`: ignored, as are empty lines -/
  | other (text : List Char) (h : ∀ c ∈ text, isLineBreak c = false ∧ c ≠ '=')
  | define (indent : Blank) (name : Name) (before after : Blank) (value : Value) (trail : Blank)

namespace Line

def render : Line → List Char
  | comment indent text _ => indent.text ++ '#' :: text
  | other text _ => text
  | define indent name before after value trail =>
    indent.text ++ (name.text ++ before.text) ++
      '=' :: (after.text ++ (value.opening ++ value.text ++ value.closing) ++ trail.text)

def meaning : Line → Option (List Char × List Char)
  | comment .. | other .. => none
  | define _ name _ _ value _ => some (name.text, value.text)

end Line

/-- The last line needs no line break; it is empty where the file ends in one. -/
def renderFile (lines : List Line) (last : Line) : List Char :=
  (lines.flatMap fun l => l.render ++ ['\n']) ++ last.render

/-! ## Reading a layout back -/

section
variable {p : Char → Bool} {a b m s : List Char}

theorem dropWhile_pad (ha : ∀ c ∈ a, p c = true) (hf : ∀ c ∈ m.head?, p c = false) : (a ++ m).dropWhile p = m := by
  rw [List.dropWhile_append_of_pos ha]
  cases m with
  | nil => rfl
  | cons c m => exact List.dropWhile_cons_of_neg (by simp [hf c rfl])

theorem rdropWhile_pad (hb : ∀ c ∈ b, p c = true) (hl : ∀ c ∈ m.getLast?, p c = false) :
    (m ++ b).rdropWhile p = m := by
  rw [List.rdropWhile, List.reverse_append, dropWhile_pad, List.reverse_reverse]
  · exact fun c hc => hb c (List.mem_reverse.mp hc)
  · rwa [List.head?_reverse]

/-- What is stripped stands on the two sides of what is not. -/
theorem strip_between (ha : ∀ c ∈ a, p c = true) (hb : ∀ c ∈ b, p c = true) (hf : ∀ c ∈ m.head?, p c = false)
    (hl : ∀ c ∈ m.getLast?, p c = false) : strip p (a ++ m ++ b) = m := by
  unfold strip
  cases m with
  | nil =>
    have hall : ∀ c ∈ a ++ [] ++ b, p c = true := by
      intro c hc
      rw [List.append_nil] at hc
      exact (List.mem_append.mp hc).elim (ha c) (hb c)
    rw [List.dropWhile_eq_nil_iff.mpr hall]
    rfl
  | cons c m =>
    have hfront : (a ++ (c :: m ++ b)).dropWhile p = c :: m ++ b := dropWhile_pad ha hf
    rw [List.append_assoc, hfront, rdropWhile_pad hb hl]

/-- Stripping the end first changes nothing. -/
theorem strip_rdropWhile (ha : ∀ c ∈ a, p c = true) (hb : ∀ c ∈ b, p c = true) (hf : ∀ c ∈ m.head?, p c = false)
    (hl : ∀ c ∈ m.getLast?, p c = false) : strip p ((a ++ m ++ b).rdropWhile p) = m := by
  by_cases hm : m = []
  · subst hm
    have hall : ∀ c ∈ a ++ b, p c = true := fun c hc => (List.mem_append.mp hc).elim (ha c) (hb c)
    rw [List.append_nil, List.rdropWhile_eq_nil_iff.mpr hall]
    rfl
  · have hend : ∀ c ∈ (a ++ m).getLast?, p c = false := by
      rwa [List.getLast?_append_of_ne_nil a hm]
    rw [rdropWhile_pad hb hend]
    have hstrip := strip_between (b := []) ha (fun _ h => absurd h List.not_mem_nil) hf hl
    rwa [List.append_nil] at hstrip

theorem mem_of_mem_strip {c : Char} (h : c ∈ strip p s) : c ∈ s :=
  (List.dropWhile_suffix _).subset ((List.rdropWhile_prefix _ _).subset h)

theorem splitlines_line (h : ∀ c ∈ a, isLineBreak c = false) : splitlines (a ++ '\n' :: s) = a :: splitlines s := by
  induction a with
  | nil => exact splitlines_lf
  | cons c a ih =>
    obtain ⟨hc, ha⟩ := List.forall_mem_cons.mp h
    rw [List.cons_append, splitlines_cons hc, ih ha]
    rfl

theorem splitlines_last (h : ∀ c ∈ a, isLineBreak c = false) : splitlines a = if a = [] then [] else [a] := by
  induction a with
  | nil => rfl
  | cons c a ih =>
    obtain ⟨hc, ha⟩ := List.forall_mem_cons.mp h
    rw [splitlines_cons hc, ih ha]
    by_cases hnil : a = []
    · subst hnil
      rfl
    · rw [if_neg hnil, if_neg (List.cons_ne_nil c a)]
      rfl

theorem splitlines_lines {lines : List (List Char)} (h : ∀ l ∈ lines, ∀ c ∈ l, isLineBreak c = false) :
    splitlines ((lines.flatMap fun l => l ++ ['\n']) ++ s) = lines ++ splitlines s := by
  induction lines with
  | nil => rfl
  | cons l lines ih =>
    obtain ⟨hl, hlines⟩ := List.forall_mem_cons.mp h
    rw [List.flatMap_cons, List.append_assoc, List.append_assoc, List.singleton_append, splitlines_line hl, ih hlines,
      List.cons_append]

theorem not_break_of_quote {c : Char} (h : isQuote c = true) : isLineBreak c = false := by
  simp only [isQuote, Bool.or_eq_true, decide_eq_true_eq] at h
  rcases h with rfl | rfl <;> decide

theorem ne_eq_of_space {c : Char} (h : isSpace c = true) : c ≠ '=' := by
  rintro rfl
  exact absurd h (by decide)

theorem assignment_other {text : List Char} (h : ∀ c ∈ text, isLineBreak c = false ∧ c ≠ '=') :
    assignment text = none := by
  have hno : '=' ∉ stripSpace text := fun hm => (h '=' (mem_of_mem_strip hm)).2 rfl
  exact if_pos (.inr (.inr hno))

theorem assignment_comment (indent : Blank) (text : List Char) : assignment (indent.text ++ '#' :: text) = none := by
  have hhead : (stripSpace (indent.text ++ '#' :: text)).head? = some '#' := by
    unfold stripSpace
    have hash : ∀ c ∈ some '#', isSpace c = false := by
      intro c hc
      cases hc
      rfl
    rw [dropWhile_pad (m := '#' :: text) (fun c hc => (indent.space c hc).1) hash]
    obtain ⟨m', hm, -⟩ := rdropWhile_between (p := isSpace) (a := ['#']) (m := text) (b := []) (by decide) hash
    rw [List.append_nil, List.append_nil, List.singleton_append] at hm
    rw [hm]
    rfl
  exact if_pos (.inr (.inl hhead))

/-- The line stripped: up to the `=` the name stands as written. -/
theorem stripSpace_define (indent : Blank) (name : Name) (before : Blank) :
    stripSpace (indent.text ++ (name.text ++ before.text) ++ '=' :: s) =
      name.text ++ before.text ++ '=' :: s.rdropWhile isSpace := by
  unfold stripSpace
  have hfront : (indent.text ++ (name.text ++ before.text ++ '=' :: s)).dropWhile isSpace =
      name.text ++ before.text ++ '=' :: s := by
    apply dropWhile_pad fun c hc => (indent.space c hc).1
    obtain ⟨c, t, hname⟩ := List.exists_cons_of_ne_nil name.nonempty
    have hhead := name.ends.1
    rw [hname] at hhead ⊢
    exact fun x hx => (hhead x hx).1
  have hback : ∀ t : List Char, (t ++ '=' :: s).rdropWhile isSpace = t ++ '=' :: s.rdropWhile isSpace := by
    intro t
    have heq : isSpace '=' = false := by decide
    rw [List.rdropWhile, List.rdropWhile, List.reverse_append, List.reverse_cons, List.append_assoc,
      List.dropWhile_append]
    split
    · rename_i hnil
      rw [List.isEmpty_iff.mp hnil, List.singleton_append, List.dropWhile_cons_of_neg (by simp [heq])]
      simp
    · simp
  rw [List.append_assoc, hfront, hback]

theorem assignment_define (indent : Blank) (name : Name) (before after : Blank) (value : Value) (trail : Blank) :
    assignment (Line.define indent name before after value trail).render = some (name.text, value.text) := by
  have hkey : ∀ c ∈ name.text ++ before.text, decide (c ≠ '=') = true := by
    intro c hc
    rcases List.mem_append.mp hc with hc | hc
    · exact decide_eq_true (name.plain c hc).2.1
    · exact decide_eq_true (ne_eq_of_space (before.space c hc).1)
  have hname : stripSpace (name.text ++ before.text) = name.text :=
    strip_between (a := []) (fun _ h => absurd h List.not_mem_nil) (fun c hc => (before.space c hc).1)
      (fun x hx => (name.ends.1 x hx).1) name.ends.2
  have hquoted : stripSpace ((after.text ++ (value.opening ++ value.text ++ value.closing) ++ trail.text).rdropWhile
      isSpace) = value.opening ++ value.text ++ value.closing :=
    strip_rdropWhile (fun c hc => (after.space c hc).1) (fun c hc => (trail.space c hc).1) value.tight.1 value.tight.2
  have hvalue : strip isQuote (value.opening ++ value.text ++ value.closing) = value.text :=
    strip_between value.quotes.1 value.quotes.2 value.ends.1 value.ends.2
  have hcore : ∀ t : List Char, ¬(name.text ++ before.text ++ '=' :: t = [] ∨
      (name.text ++ before.text ++ '=' :: t).head? = some '#' ∨ '=' ∉ name.text ++ before.text ++ '=' :: t) := by
    rintro t (h | h | h)
    · exact absurd h (by simp)
    · obtain ⟨c, u, hu⟩ := List.exists_cons_of_ne_nil name.nonempty
      have hhead := name.ends.1
      rw [hu] at hhead h
      cases h
      exact (hhead '#' rfl).2 rfl
    · exact h (by simp)
  unfold assignment Line.render
  simp only [stripSpace_define]
  rw [if_neg (hcore _), List.takeWhile_append_of_pos hkey, List.dropWhile_append_of_pos hkey,
    List.takeWhile_cons_of_neg (by decide), List.dropWhile_cons_of_neg (by decide), List.append_nil, hname,
    List.tail_cons, hquoted, hvalue]

theorem assignment_render (l : Line) : assignment l.render = l.meaning := by
  cases l with
  | comment indent text h => exact assignment_comment indent text
  | other text h => exact assignment_other h
  | define indent name before after value trail => exact assignment_define ..

/-- A line is written on one line. -/
theorem render_line (l : Line) : ∀ c ∈ l.render, isLineBreak c = false := by
  intro c hc
  cases l with
  | comment indent text h =>
    simp only [Line.render, List.mem_append, List.mem_cons] at hc
    rcases hc with hc | rfl | hc
    · exact (indent.space c hc).2
    · decide
    · exact h c hc
  | other text h => exact (h c hc).1
  | define indent name before after value trail =>
    simp only [Line.render, List.mem_append, List.mem_cons] at hc
    rcases hc with (hc | hc | hc) | rfl | (hc | (hc | hc) | hc) | hc
    · exact (indent.space c hc).2
    · exact (name.plain c hc).1
    · exact (before.space c hc).2
    · decide
    · exact (after.space c hc).2
    · exact not_break_of_quote (value.quotes.1 c hc)
    · exact (value.plain c hc).1
    · exact not_break_of_quote (value.quotes.2 c hc)
    · exact (trail.space c hc).2

theorem assignment_lines (lines : List Line) (last : Line) :
    (splitlines (renderFile lines last)).filterMap assignment = (lines ++ [last]).filterMap Line.meaning := by
  have hread : ∀ l : List Line, (l.map Line.render).filterMap assignment = l.filterMap Line.meaning := by
    intro l
    rw [List.filterMap_map]
    exact congrArg (List.filterMap · l) (funext assignment_render)
  have hlast : (splitlines last.render).filterMap assignment = [last].filterMap Line.meaning := by
    rw [splitlines_last (render_line last), ← hread]
    by_cases hnil : last.render = []
    · rw [if_pos hnil, List.map_singleton, hnil]
      rfl
    · rw [if_neg hnil, List.map_singleton]
  have hbreaks : ∀ l ∈ lines.map Line.render, ∀ c ∈ l, isLineBreak c = false := by
    intro l hl
    obtain ⟨line, -, rfl⟩ := List.mem_map.mp hl
    exact render_line line
  rw [renderFile, ← List.flatMap_map (f := Line.render) (g := fun l => l ++ ['\n']), splitlines_lines hbreaks,
    List.filterMap_append, hread, hlast, ← List.filterMap_append]

end

/-- **The file is read back.** However its lines are laid out, indented, padded, quoted or not, and mixed with
comments and other lines, the loader raises nothing and gives each variable what its first line means, unless the
environment has it already. -/
theorem dotenv_read_back (lines : List Line) (last : Line) (env : Environ) :
    loadDotenv (some (renderFile lines last)) env = .ok (merged env ((lines ++ [last]).filterMap Line.meaning)) := by
  rw [loadDotenv, assignment_lines]
  refine setAll_clean fun p hp => ?_
  obtain ⟨line, -, hline⟩ := List.mem_filterMap.mp hp
  cases line with
  | comment | other => cases hline
  | define indent name before after value trail =>
    cases hline
    exact ⟨name.nonempty, fun h => (name.plain _ h).2.2 rfl, fun h => (value.plain _ h).2 rfl⟩

end AdmissionScheduler.Orchestrator.Dotenv
