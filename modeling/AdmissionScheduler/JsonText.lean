import AdmissionScheduler.JsonDecoder

/-!
# Texts that are read

What may be written for an object whose values are strings and booleans, whatever
wrote it: with blanks or without, with a character as it is or escaped. All of it
is read back (`loads_object`), and nothing is read from an object that is cut
short (`loads_complete`).
-/

namespace AdmissionScheduler.JsonDecoder

/-! ## The grammar -/

def Blank (cs : List Char) : Prop := ∀ c ∈ cs, blank c = true

def HexText (n : Nat) (ds : List Char) : Prop :=
  ∃ a b c d, ds.map hexDigit? = [some a, some b, some c, some d] ∧ n = 16 * (16 * (16 * (16 * 0 + a) + b) + c) + d

inductive CharText : Char → List Char → Prop where
  | raw {c : Char} : c ≠ '"' → c ≠ '\\' → ¬c < ' ' → CharText c [c]
  | short {e c : Char} : escapes.lookup e = some c → CharText c ['\\', e]
  | unicode {c : Char} {ds : List Char} : HexText c.toNat ds → CharText c ('\\' :: 'u' :: ds)
  | pair {c : Char} {hi lo : Nat} {dh dl : List Char} : isHigh hi = true → isLow lo = true → joined hi lo = c.toNat →
      HexText hi dh → HexText lo dl → CharText c ('\\' :: 'u' :: (dh ++ '\\' :: 'u' :: dl))

inductive CharsText : List Char → List Char → Prop where
  | nil : CharsText [] []
  | cons {c : Char} {cs t u : List Char} : CharText c t → CharsText cs u → CharsText (c :: cs) (t ++ u)

def StringText (s : String) (t : List Char) : Prop := ∃ u, CharsText s.toList u ∧ t = '"' :: (u ++ ['"'])

inductive FlatText : Json → List Char → Prop where
  | str {s : String} {t : List Char} : StringText s t → FlatText (.str s) t
  | true : FlatText (.bool true) ['t', 'r', 'u', 'e']
  | false : FlatText (.bool false) ['f', 'a', 'l', 's', 'e']

def MemberText (m : String × Json) (t : List Char) : Prop :=
  ∃ k v b₁ b₂ b₃ b₄, StringText m.1 k ∧ FlatText m.2 v ∧ Blank b₁ ∧ Blank b₂ ∧ Blank b₃ ∧ Blank b₄ ∧
    t = b₁ ++ (k ++ (b₂ ++ ':' :: (b₃ ++ (v ++ b₄))))

inductive MembersText : List (String × Json) → List Char → Prop where
  | one {m : String × Json} {t : List Char} : MemberText m t → MembersText [m] t
  | cons {m : String × Json} {ms : List (String × Json)} {t u : List Char} :
      MemberText m t → MembersText ms u → MembersText (m :: ms) (t ++ ',' :: u)

inductive ObjectText : List (String × Json) → List Char → Prop where
  | empty {b : List Char} : Blank b → ObjectText [] ('\x7b' :: (b ++ ['\x7d']))
  | members {kvs : List (String × Json)} {t : List Char} : MembersText kvs t → ObjectText kvs ('\x7b' :: (t ++ ['\x7d']))

/-! ## Runs -/

section
variable {headroom : Nat} {float : List Char → PyFloat} {s s' s'' : State} {c : Char} {cs ds : List Char}

def Reads (headroom : Nat) (float : List Char → PyFloat) (s : State) (cs : List Char) (s' : State) : Prop :=
  run headroom float s cs = .ok s'

theorem run_append : run headroom float s (cs ++ ds) = run headroom float s cs >>= fun s => run headroom float s ds :=
  List.foldlM_append

theorem run_cons : run headroom float s (c :: cs) = step headroom float s c >>= fun s => run headroom float s cs :=
  List.foldlM_cons

theorem bind_eq_ok {α β : Type} {x : Except LoadsError α} {f : α → Except LoadsError β} {b : β} :
    x >>= f = .ok b ↔ ∃ a, x = .ok a ∧ f a = .ok b := by
  cases x with
  | error e => simp [bind, Except.bind]
  | ok a => simp [bind, Except.bind]

theorem Reads.nil : Reads headroom float s [] s := rfl

theorem Reads.cons (h : step headroom float s c = .ok s') (h' : Reads headroom float s' cs s'') :
    Reads headroom float s (c :: cs) s'' := by
  unfold Reads
  rw [run_cons, h]
  exact h'

theorem Reads.append (h : Reads headroom float s cs s') (h' : Reads headroom float s' ds s'') :
    Reads headroom float s (cs ++ ds) s'' := by
  unfold Reads
  rw [run_append, h]
  exact h'

theorem Reads.single (h : step headroom float s c = .ok s') : Reads headroom float s [c] s' := .cons h .nil

/-- A state in which blanks say nothing. -/
def Skips (headroom : Nat) (float : List Char → PyFloat) (s : State) : Prop :=
  ∀ c, blank c = true → step headroom float s c = .ok s

theorem Skips.reads (hs : Skips headroom float s) (hb : Blank cs) : Reads headroom float s cs s := by
  induction cs with
  | nil => exact .nil
  | cons c cs ih => exact .cons (hs c (hb c (.head _))) (ih fun d hd => hb d (.tail _ hd))

theorem skips_value {st : List Frame} : Skips headroom float (.value st) := by
  intro c hc
  simp [step, hc]

theorem skips_colon {kvs : List (String × Json)} {k : String} {st : List Frame} :
    Skips headroom float (.colon kvs k st) := by
  intro c hc
  simp [step, hc]

theorem skips_afterMember {kvs : List (String × Json)} {st : List Frame} :
    Skips headroom float (.afterMember kvs st) := by
  intro c hc
  simp [step, stepMember, hc]

/-! ## Strings -/

variable {t : Target} {n hi : Nat} {acc : List Char}

theorem run_hex (h : HexText n ds) : run headroom float (.string t acc (.hex 0 4)) ds = endHex t acc n := by
  obtain ⟨a, b, c, d, hds, rfl⟩ := h
  simp only [List.map_eq_cons_iff, List.map_eq_nil_iff] at hds
  obtain ⟨c₁, _, rfl, h₁, c₂, _, rfl, h₂, c₃, _, rfl, h₃, c₄, _, rfl, h₄, rfl⟩ := hds
  simp only [run_cons, step, stepString, h₁, h₂, h₃, h₄]
  exact bind_pure (m := Except LoadsError) _

theorem run_low (h : HexText n ds) : run headroom float (.string t acc (.low hi 0 4)) ds = endLow t acc hi n := by
  obtain ⟨a, b, c, d, hds, rfl⟩ := h
  simp only [List.map_eq_cons_iff, List.map_eq_nil_iff] at hds
  obtain ⟨c₁, _, rfl, h₁, c₂, _, rfl, h₂, c₃, _, rfl, h₃, c₄, _, rfl, h₄, rfl⟩ := hds
  simp only [run_cons, step, stepString, h₁, h₂, h₃, h₄]
  exact bind_pure (m := Except LoadsError) _

/-- No character is half of a surrogate pair. -/
theorem not_surrogate (c : Char) : isHigh c.toNat = false ∧ isLow c.toNat = false := by
  have hc : c.toNat < 0xd800 ∨ 0xdfff < c.toNat ∧ c.toNat < 0x110000 := c.valid
  simp only [isHigh, isLow, decide_eq_false_iff_not]
  omega

theorem reads_u : Reads headroom float (.string t acc .none) ['\\', 'u'] (.string t acc (.hex 0 4)) :=
  .cons rfl (.single rfl)

theorem reads_char (h : CharText c cs) :
    Reads headroom float (.string t acc .none) cs (.string t (acc ++ [c]) .none) := by
  cases h with
  | raw hq hb hs => exact .single (by simp [step, stepString, hq, hb, hs])
  | @short e _ he =>
    have hu : e ≠ 'u' := by
      rintro rfl
      cases he
    exact .cons rfl (.single (by simp [step, stepString, hu, he]))
  | unicode h =>
    refine reads_u.append ((run_hex h).trans ?_)
    obtain ⟨hhi, hlo⟩ := not_surrogate c
    simp [endHex, hhi, hlo, Char.ofNat_toNat]
  | @pair _ hi lo _ _ hhi hlo hc hh hl =>
    have hfirst : endHex t acc hi = .ok (.string t acc (.high hi)) := by simp [endHex, hhi]
    have hlast : endLow t acc hi lo = .ok (.string t (acc ++ [c]) .none) := by
      simp [endLow, hlo, hc, Char.ofNat_toNat]
    have hread : Reads headroom float (.string t acc (.hex 0 4)) _ _ := (run_hex hh).trans hfirst
    exact reads_u.append (hread.append (.cons rfl (.cons rfl ((run_low hl).trans hlast))))

theorem reads_chars {u : List Char} (h : CharsText cs u) :
    Reads headroom float (.string t acc .none) u (.string t (acc ++ cs) .none) := by
  induction h generalizing acc with
  | nil => simpa using Reads.nil
  | @cons c cs _ u hc _ ih =>
    have hrest : Reads headroom float (.string t (acc ++ [c]) .none) u (.string t (acc ++ [c] ++ cs) .none) := ih
    rw [List.append_assoc] at hrest
    exact (reads_char hc).append hrest

theorem reads_string {k : String} {u : List Char} (h : CharsText k.toList u) :
    Reads headroom float (.string t [] .none) (u ++ ['"']) (endString k t) := by
  refine (reads_chars h).append (.single ?_)
  simp [step, stepString]

/-! ## Objects -/

theorem reads_flat {v : Json} {st : List Frame} (h : FlatText v cs) :
    Reads headroom float (.value st) cs (endValue v st) := by
  cases h with
  | str h =>
    obtain ⟨u, hu, rfl⟩ := h
    exact .cons rfl (reads_string hu)
  | true => exact .cons rfl (.cons rfl (.cons rfl (.single rfl)))
  | false => exact .cons rfl (.cons rfl (.cons rfl (.cons rfl (.single rfl))))

/-- A key is next, after the members `kvs`. -/
def AtKey (headroom : Nat) (float : List Char → PyFloat) (kvs : List (String × Json)) (st : List Frame) (s : State) :
    Prop :=
  Skips headroom float s ∧ step headroom float s '"' = .ok (.string (.key kvs st) [] .none)

variable {kvs ms : List (String × Json)} {m : String × Json} {st : List Frame}

theorem atKey_first : AtKey headroom float [] st (.firstKey st) := ⟨fun c hc => by simp [step, hc], rfl⟩

theorem atKey_next : AtKey headroom float kvs st (.key kvs st) := ⟨fun c hc => by simp [step, hc], rfl⟩

theorem reads_member (hs : AtKey headroom float kvs st s) (h : MemberText m cs) :
    Reads headroom float s cs (.afterMember (kvs ++ [m]) st) := by
  obtain ⟨k, v, b₁, b₂, b₃, b₄, ⟨u, hu, rfl⟩, hv, hb₁, hb₂, hb₃, hb₄, rfl⟩ := h
  have hkey : Reads headroom float s ('"' :: (u ++ ['"'])) (.colon kvs m.1 st) := .cons hs.2 (reads_string hu)
  have hvalue : Reads headroom float (.value (.member kvs m.1 :: st)) v (.afterMember (kvs ++ [m]) st) := reads_flat hv
  refine (hs.1.reads hb₁).append (hkey.append ((skips_colon.reads hb₂).append (.cons rfl ?_)))
  exact (skips_value.reads hb₃).append (hvalue.append (skips_afterMember.reads hb₄))

theorem reads_members (hs : AtKey headroom float kvs st s) (h : MembersText ms cs) :
    Reads headroom float s cs (.afterMember (kvs ++ ms) st) := by
  induction h generalizing kvs s with
  | one hm => exact reads_member hs hm
  | @cons m ms _ u hm _ ih =>
    have hrest : Reads headroom float (.key (kvs ++ [m]) st) u (.afterMember (kvs ++ [m] ++ ms) st) := ih atKey_next
    rw [List.append_assoc] at hrest
    exact (reads_member hs hm).append (.cons rfl hrest)

/-- Every text of an object is read as that object. -/
theorem loads_object (h : ObjectText kvs cs) : loads headroom float cs = .ok (.obj kvs) := by
  have hread : Reads headroom float (.value []) cs (.done (.obj kvs)) := by
    cases h with
    | empty hb => exact .cons rfl ((atKey_first.1.reads hb).append (.single rfl))
    | members hm => exact .cons rfl ((reads_members atKey_first hm).append (.single rfl))
  unfold loads
  rw [hread]
  rfl

/-! ## Texts that are cut short -/

def Target.depth : Target → Nat
  | .value st => st.length
  | .key _ st => st.length + 1

/-- The containers that are open; a value that is over counts as one. -/
def State.depth : State → Nat
  | .value st | .literal _ _ _ st | .number _ _ st => st.length
  | .firstItem st | .afterItem _ st | .firstKey st | .key _ st | .colon _ _ st | .afterMember _ st => st.length + 1
  | .string t _ _ => t.depth
  | .done _ => 1

/-- The machine stops here, or goes on with a container open. -/
def Deep (x : Except LoadsError State) : Prop := ∀ s, x = .ok s → 0 < s.depth

variable {x y : Except LoadsError State} {v : Json}

theorem Deep.ok (h : 0 < s.depth) : Deep (.ok s) := by
  rintro _ ⟨⟩
  exact h

theorem Deep.error {e : LoadsError} : Deep (.error e) := by
  intro s h
  cases h

theorem Deep.ite {p : Prop} [Decidable p] (hx : Deep x) (hy : Deep y) : Deep (if p then x else y) := by
  by_cases hp : p
  · rwa [if_pos hp]
  · rwa [if_neg hp]

theorem Deep.bind {α : Type} {x : Except LoadsError α} {f : α → Except LoadsError State} (hf : ∀ a, Deep (f a)) :
    Deep (x >>= f) := by
  cases x with
  | ok a => exact hf a
  | error e => exact .error

theorem depth_endValue : 0 < (endValue v st).depth := by
  rcases st with _ | ⟨xs | ⟨kvs, k⟩, st⟩ <;> exact Nat.succ_pos _

theorem depth_endString {k : String} : 0 < (endString k t).depth := by
  cases t with
  | value st => exact depth_endValue
  | key kvs st => exact Nat.succ_pos _

theorem deep_endHex (ht : 0 < t.depth) : Deep (endHex t acc n) := .ite (.ok ht) (.ite .error (.ok ht))

theorem deep_endLow (ht : 0 < t.depth) : Deep (endLow t acc hi n) := .ite (.ok ht) .error

theorem deep_stepString {e : Escape} (ht : 0 < t.depth) : Deep (stepString t acc c e) := by
  cases e with
  | none => exact .ite (.ok depth_endString) (.ite (.ok ht) (.ite .error (.ok ht)))
  | backslash =>
    refine .ite (.ok ht) ?_
    cases escapes.lookup c with
    | none => exact .error
    | some d => exact .ok ht
  | hex n left =>
    unfold stepString
    cases hexDigit? c with
    | none => exact .error
    | some d => exact .ite (deep_endHex ht) (.ok ht)
  | high hi => exact .ite (.ok ht) .error
  | highBackslash hi => exact .ite (.ok ht) .error
  | low hi n left =>
    unfold stepString
    cases hexDigit? c with
    | none => exact .error
    | some d => exact .ite (deep_endLow ht) (.ok ht)

theorem deep_stepItem {xs : List Json} : Deep (stepItem xs st c) :=
  .ite (.ok (Nat.succ_pos _)) (.ite (.ok (Nat.succ_pos _)) (.ite (.ok depth_endValue) .error))

theorem deep_stepMember : Deep (stepMember kvs st c) :=
  .ite (.ok (Nat.succ_pos _)) (.ite (.ok (Nat.succ_pos _)) (.ite (.ok depth_endValue) .error))

theorem deep_stepAfter : Deep (stepAfter v c st) := by
  rcases st with _ | ⟨xs | ⟨kvs, k⟩, st⟩
  · exact .ite (.ok Nat.one_pos) .error
  · exact deep_stepItem
  · exact deep_stepMember

theorem deep_startValue (hst : 0 < st.length) : Deep (startValue headroom c st) := by
  have hopen : ∀ s : State, s.depth = st.length + 1 → Deep (if st.length ≤ headroom then .ok s else .error .recursion) :=
    fun s hs => .ite (.ok (hs ▸ Nat.succ_pos _)) .error
  have hlit : ∀ d ds v, Deep (.ok (.literal d ds v st)) := fun _ _ _ => .ok hst
  have hnum : ∀ p cs, Deep (.ok (.number p cs st)) := fun _ _ => .ok hst
  refine .ite (.ok hst) (.ite (hopen _ rfl) (.ite (hopen _ rfl) ?_))
  refine .ite (hlit _ _ _) (.ite (hlit _ _ _) (.ite (hlit _ _ _) (.ite (hlit _ _ _) (.ite (hlit _ _ _) ?_))))
  exact .ite (hnum _ _) (.ite (hnum _ _) (.ite (hnum _ _) .error))

/-- Once a container stands open the text is not over before it is closed. -/
theorem deep_step (hs : 0 < s.depth) : Deep (step headroom float s c) := by
  cases s with
  | value st => exact .ite (.ok hs) (deep_startValue hs)
  | firstItem st => exact .ite (.ok hs) (.ite (.ok depth_endValue) (deep_startValue (Nat.succ_pos _)))
  | afterItem xs st => exact deep_stepItem
  | firstKey st => exact .ite (.ok hs) (.ite (.ok depth_endValue) (.ite (.ok (Nat.succ_pos _)) .error))
  | key kvs st => exact .ite (.ok hs) (.ite (.ok (Nat.succ_pos _)) .error)
  | colon kvs k st => exact .ite (.ok hs) (.ite (.ok (Nat.succ_pos _)) .error)
  | afterMember kvs st => exact deep_stepMember
  | string t cs e => exact deep_stepString hs
  | literal next rest v st =>
    refine .ite .error ?_
    cases rest with
    | nil => exact .ok depth_endValue
    | cons d ds => exact .ok hs
  | number p cs st =>
    simp only [step]
    cases p.next c with
    | some q => exact .ok hs
    | none =>
      cases p with
      | minus => exact .ite (.ok hs) .error
      | _ => exact .bind fun _ => deep_stepAfter
  | done v => exact .ite (.ok hs) .error

theorem depth_run (hs : 0 < s.depth) (h : Reads headroom float s cs s') : 0 < s'.depth := by
  induction cs generalizing s with
  | nil =>
    cases h
    exact hs
  | cons c cs ih =>
    unfold Reads at h
    rw [run_cons] at h
    obtain ⟨s₁, h₁, h⟩ := bind_eq_ok.mp h
    exact ih (deep_step hs s₁ h₁) h

/-- The text ends with an open container or with the value. -/
theorem finish_depth (hs : 0 < s.depth) (h : finish float s = .ok v) : s = .done v := by
  cases s with
  | done w =>
    cases h
    rfl
  | number p cs st =>
    obtain ⟨w, -, h⟩ := bind_eq_ok.mp h
    cases st with
    | nil => cases hs
    | cons f st => cases h
  | _ => cases h

/-- Nothing but blanks follows a value. -/
theorem blank_of_done (h : Reads headroom float (.done v) cs s) : Blank cs := by
  induction cs with
  | nil =>
    intro c hc
    cases hc
  | cons c cs ih =>
    unfold Reads at h
    rw [run_cons] at h
    simp only [step] at h
    by_cases hc : blank c = true
    · rw [if_pos hc] at h
      intro d hd
      cases hd with
      | head => exact hc
      | tail _ hd => exact ih h d hd
    · rw [if_neg hc] at h
      cases h

/-- The text of an object is over once: what can follow it is blank. -/
theorem loads_complete {w : Json} (h : loads headroom float ('\x7b' :: cs) = .ok v)
    (h' : loads headroom float ('\x7b' :: cs ++ ds) = .ok w) : Blank ds := by
  obtain ⟨s, hs, hfin⟩ := bind_eq_ok.mp h
  obtain ⟨s', hs', -⟩ := bind_eq_ok.mp h'
  have hopen : Reads headroom float (.firstKey []) cs s := hs
  have hdone : s = .done v := finish_depth (depth_run (s := .firstKey []) Nat.one_pos hopen) hfin
  rw [run_append, hs, hdone] at hs'
  exact blank_of_done hs'

end

end AdmissionScheduler.JsonDecoder
