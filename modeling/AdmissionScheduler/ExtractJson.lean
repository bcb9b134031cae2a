import AdmissionScheduler.JsonText

/-!
# The answer in a reply

`orchestrator/roles/triage.py`: the reply of the model is searched for an object by
a regular expression, and what the expression found is read as JSON. The
expression knows of no strings, so that a closing brace inside one is taken for
the end of the object.
-/

namespace AdmissionScheduler.Orchestrator.TriageAgent

open JsonDecoder

/-- `.*?` and a closing brace: as little as there is up to one. -/
def upToClosing : List Char → Option (List Char)
  | [] => none
  | c :: cs => if c = '\x7d' then some [c] else (upToClosing cs).map (c :: ·)

/-- `JSON_RE.search`: the first place at which the expression matches. -/
def searchJson : List Char → Option (List Char)
  | [] => none
  | c :: cs =>
    if c = '\x7b' then match upToClosing cs with
      | some m => some (c :: m)
      | none => searchJson cs
    else searchJson cs

section
variable (headroom : Nat) (float : List Char → PyFloat)

def extractJson (text : String) : Except LoadsError (Option Json) :=
  match searchJson text.toList with
  | none => .ok none
  | some m => match loads headroom float m with
    | .ok v => .ok (some v)
    | .error .decode => .ok none
    | .error e => .error e

end

/-! ## What is found -/

section
variable {p t s cs m : List Char} {kvs : List (String × Json)}

theorem upToClosing_append (h : '\x7d' ∉ p) : upToClosing (p ++ '\x7d' :: s) = some (p ++ ['\x7d']) := by
  induction p with
  | nil => rfl
  | cons c p ih =>
    have hc : c ≠ '\x7d' := fun he => h (he ▸ .head _)
    rw [List.cons_append, upToClosing, if_neg hc, ih fun hm => h (.tail _ hm)]
    rfl

theorem searchJson_append (h : '\x7b' ∉ p) : searchJson (p ++ cs) = searchJson cs := by
  induction p with
  | nil => rfl
  | cons c p ih =>
    have hc : c ≠ '\x7b' := fun he => h (he ▸ .head _)
    rw [List.cons_append, searchJson, if_neg hc, ih fun hm => h (.tail _ hm)]

/-- The search ends at the first closing brace after the first opening one. -/
theorem searchJson_eq (hp : '\x7b' ∉ p) (ht : '\x7d' ∉ t) :
    searchJson (p ++ '\x7b' :: (t ++ '\x7d' :: s)) = some ('\x7b' :: (t ++ ['\x7d'])) := by
  rw [searchJson_append hp, searchJson, if_pos rfl, upToClosing_append ht]

/-- A text that stands in braces. -/
theorem braces_of_objectText (h : ObjectText kvs t) : ∃ u, t = '\x7b' :: (u ++ ['\x7d']) := by
  cases h with
  | empty _ => exact ⟨_, rfl⟩
  | members _ => exact ⟨_, rfl⟩

/-- What is written for an object is found in a reply, and read, exactly when its only closing brace
is the last character. -/
theorem extractJson_iff {headroom : Nat} {float : List Char → PyFloat} {text : String} (ht : ObjectText kvs t)
    (hp : '\x7b' ∉ p) (htext : text.toList = p ++ t ++ s) :
    extractJson headroom float text = .ok (some (.obj kvs)) ↔ '\x7d' ∉ t.dropLast := by
  obtain ⟨u, rfl⟩ := braces_of_objectText ht
  have hread : loads headroom float ('\x7b' :: (u ++ ['\x7d'])) = .ok (.obj kvs) := loads_object ht
  have hlast : ('\x7b' :: (u ++ ['\x7d'])).dropLast = '\x7b' :: u := by
    rw [← List.cons_append, List.dropLast_concat]
  rw [hlast]
  by_cases hu : '\x7d' ∈ u
  · refine iff_of_false ?_ fun h => h (.tail _ hu)
    obtain ⟨a, b, rfl, ha⟩ := List.eq_append_cons_of_mem hu
    have hfound : searchJson text.toList = some ('\x7b' :: (a ++ ['\x7d'])) := by
      rw [htext]
      simpa using searchJson_eq (s := b ++ '\x7d' :: s) hp ha
    unfold extractJson
    rw [hfound]
    intro h
    cases hcut : loads headroom float ('\x7b' :: (a ++ ['\x7d'])) with
    | error e =>
      simp only [hcut] at h
      cases e <;> cases h
    | ok v =>
      -- the rest of the text ends in a brace and would have to be blank
      have hblank : Blank (b ++ ['\x7d']) := loads_complete hcut (by simpa using hread)
      exact absurd (hblank '\x7d' (by simp)) (by decide)
  · refine iff_of_true ?_ (by simp [hu])
    have hfound : searchJson text.toList = some ('\x7b' :: (u ++ ['\x7d'])) := by
      rw [htext]
      simpa using searchJson_eq (s := s) hp hu
    unfold extractJson
    rw [hfound]
    simp only [hread]

end

/-! ## Two replies -/

/-- Characters that are written as they are. -/
def Plain (cs : List Char) : Prop := ∀ c ∈ cs, c ≠ '"' ∧ c ≠ '\\' ∧ ¬c < ' '

instance (cs : List Char) : Decidable (Plain cs) := List.decidableBAll _ cs

theorem charsText_self {cs : List Char} (h : Plain cs) : CharsText cs cs := by
  induction cs with
  | nil => exact .nil
  | cons c cs ih =>
    obtain ⟨hq, hb, hs⟩ := h c (.head _)
    exact .cons (.raw hq hb hs) (ih fun d hd => h d (.tail _ hd))

theorem stringText_self {s : String} (h : Plain s.toList) : StringText s ('"' :: (s.toList ++ ['"'])) := ⟨_, charsText_self h, rfl⟩

/-- One member, written without blanks. -/
theorem objectText_one {k : String} {v : Json} {u : List Char} (hk : Plain k.toList) (hv : FlatText v u) :
    ObjectText [(k, v)] ('\x7b' :: (('"' :: (k.toList ++ ['"'])) ++ ':' :: u ++ ['\x7d'])) := by
  have hno : Blank [] := fun c hc => by cases hc
  exact .members (.one ⟨_, _, [], [], [], [], stringText_self hk, hv, hno, hno, hno, hno, by simp⟩)

def readyText : List Char := "\x7b\"ready\":true\x7d".toList

theorem readyText_written : ObjectText [("ready", .bool true)] readyText := objectText_one (by decide +kernel) .true

theorem extract_ready : extractJson 0 (fun _ => .nan) "Voici : \x7b\"ready\":true\x7d." =
      .ok (some (.obj [("ready", .bool true)])) ↔ '\x7d' ∉ readyText.dropLast :=
  extractJson_iff (p := "Voici : ".toList) (s := ['.']) readyText_written (by decide +kernel) (by decide +kernel)

def bracedText : List Char := "\x7b\"missing_info\":\"\x7d\"\x7d".toList

theorem bracedText_written : ObjectText [("missing_info", .str "\x7d")] bracedText :=
  objectText_one (by decide +kernel) (.str (stringText_self (by decide +kernel)))

/-- An answer that names a brace is lost. -/
theorem braced_answer_lost : ¬ ∀ (headroom : Nat) (float : List Char → PyFloat) (kvs : List (String × Json))
    (p t s : List Char) (text : String), ObjectText kvs t → ('\x7b' ∉ p ∧ '\x7d' ∉ p) → ('\x7b' ∉ s ∧ '\x7d' ∉ s) →
      text.toList = p ++ t ++ s → extractJson headroom float text = .ok (some (.obj kvs)) := by
  intro h
  have hfound := h 0 (fun _ => .nan) _ [] bracedText [] (String.ofList bracedText) bracedText_written (by simp) (by simp)
    (by simp)
  exact absurd hfound (by decide +kernel)

end AdmissionScheduler.Orchestrator.TriageAgent
