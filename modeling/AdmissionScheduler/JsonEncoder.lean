import AdmissionScheduler.FixedWidth
import AdmissionScheduler.JsonText

/-!
# Writing JSON

`json.dumps` with the separators it uses by default. A text that it writes is
read by `loads` as the value it was written for (`loads_dumps`), and holds no
control character, so no line break either.
-/

namespace AdmissionScheduler

/-! ## The text of a value -/

namespace JsonEncoder

open FixedWidth

def shortEscapes : List (Char × Char) :=
  [('\\', '\\'), ('"', '"'), ('\x08', 'b'), ('\x0c', 'f'), ('\n', 'n'), ('\r', 'r'), ('\t', 't')]

/-- `'\\u{0:04x}'.format(n)` -/
def unicodeEscape (n : Nat) : List Char := '\\' :: 'u' :: numeral Nat.digitChar 16 4 n

/-- A character of a string. Beyond the basic plane an escape is the two halves of a surrogate pair. -/
def encodeChar (ensureAscii : Bool) (c : Char) : List Char :=
  match shortEscapes.lookup c with
  | some e => ['\\', e]
  | none =>
    if c < ' ' ∨ ensureAscii = true ∧ '~' < c then
      if c.toNat < 0x10000 then unicodeEscape c.toNat
      else
        unicodeEscape (0xd800 + (c.toNat - 0x10000) / 0x400) ++ unicodeEscape (0xdc00 + (c.toNat - 0x10000) % 0x400)
    else [c]

def encodeString (ensureAscii : Bool) (s : String) : List Char :=
  '"' :: (s.toList.flatMap (encodeChar ensureAscii) ++ ['"'])

def encodeFloat : PyFloat → List Char
  | .nan => ['N', 'a', 'N']
  | .inf neg => PyFloat.signText neg ++ ['I', 'n', 'f', 'i', 'n', 'i', 't', 'y']
  | .finite neg digits decpt => (PyFloat.finite neg digits decpt).repr.toList

mutual
def encode (ensureAscii : Bool) : Json → List Char
  | .null => ['n', 'u', 'l', 'l']
  | .bool true => ['t', 'r', 'u', 'e']
  | .bool false => ['f', 'a', 'l', 's', 'e']
  | .int n => (toString n).toList
  | .float x => encodeFloat x
  | .str s => encodeString ensureAscii s
  | .arr [] => ['[', ']']
  | .arr (x :: xs) => '[' :: (encode ensureAscii x ++ (encodeItems ensureAscii xs ++ [']']))
  | .obj [] => ['\x7b', '\x7d']
  | .obj ((k, x) :: kvs) =>
    '\x7b' :: (encodeString ensureAscii k ++
      ':' :: ' ' :: (encode ensureAscii x ++ (encodeMembers ensureAscii kvs ++ ['\x7d'])))
def encodeItems (ensureAscii : Bool) : List Json → List Char
  | [] => []
  | x :: xs => ',' :: ' ' :: (encode ensureAscii x ++ encodeItems ensureAscii xs)
def encodeMembers (ensureAscii : Bool) : List (String × Json) → List Char
  | [] => []
  | (k, x) :: kvs =>
    ',' :: ' ' :: (encodeString ensureAscii k ++ ':' :: ' ' :: (encode ensureAscii x ++ encodeMembers ensureAscii kvs))
end

mutual
/-- No `ValueError` about an integer of more than 4300 digits and no `RecursionError`, where the
interpreter lets `room` containers stand open. -/
def fits (room : Nat) : Json → Bool
  | .null | .bool _ | .float _ | .str _ => true
  | .int n => (Nat.toDigits 10 n.natAbs).length ≤ 4300
  | .arr xs => 0 < room && fitsItems (room - 1) xs
  | .obj kvs => 0 < room && fitsMembers (room - 1) kvs
def fitsItems (room : Nat) : List Json → Bool
  | [] => true
  | x :: xs => fits room x && fitsItems room xs
def fitsMembers (room : Nat) : List (String × Json) → Bool
  | [] => true
  | (_, x) :: kvs => fits room x && fitsMembers room kvs
end

/-- `json.dumps`; `none` is an exception. -/
def dumps (ensureAscii : Bool) (room : Nat) (v : Json) : Option (List Char) :=
  if fits room v then some (encode ensureAscii v) else none

/-! ## Strings -/

open JsonDecoder

theorem hexDigit?_digitChar {d : Nat} (h : d < 16) : hexDigit? (Nat.digitChar d) = some d := by
  have hall : ∀ d < 16, hexDigit? (Nat.digitChar d) = some d := by decide
  exact hall d h

theorem hexText_numeral {n : Nat} (h : n < 0x10000) : HexText n (numeral Nat.digitChar 16 4 n) := by
  refine ⟨n / 16 ^ 3, n % 16 ^ 3 / 16 ^ 2, n % 16 ^ 3 % 16 ^ 2 / 16 ^ 1, n % 16 ^ 3 % 16 ^ 2 % 16 ^ 1, ?_, by omega⟩
  have hlow : n % 16 ^ 3 % 16 ^ 2 % 16 ^ 1 / 16 ^ 0 = n % 16 ^ 3 % 16 ^ 2 % 16 ^ 1 := Nat.div_one _
  simp only [numeral, List.map_cons, List.map_nil, hlow]
  rw [hexDigit?_digitChar (by omega), hexDigit?_digitChar (by omega), hexDigit?_digitChar (by omega),
    hexDigit?_digitChar (by omega)]

theorem lookup_escapes {c e : Char} (h : shortEscapes.lookup c = some e) : escapes.lookup e = some c := by
  have hall : ∀ p ∈ shortEscapes, escapes.lookup p.2 = some p.1 := by decide
  obtain ⟨l₁, l₂, hl, -⟩ := List.lookup_eq_some_iff.mp h
  exact hall (c, e) (by rw [hl]; exact List.mem_append_right _ (.head _))

theorem charText_encodeChar (ensureAscii : Bool) (c : Char) : CharText c (encodeChar ensureAscii c) := by
  unfold encodeChar
  cases he : shortEscapes.lookup c with
  | some e => exact .short (lookup_escapes he)
  | none =>
    have hq : c ≠ '"' := by
      intro h
      rw [h] at he
      cases he
    have hb : c ≠ '\\' := by
      intro h
      rw [h] at he
      cases he
    have hc : c.toNat < 0xd800 ∨ 0xdfff < c.toNat ∧ c.toNat < 0x110000 := c.valid
    by_cases hs : c < ' ' ∨ ensureAscii = true ∧ '~' < c
    · simp only [if_pos hs]
      by_cases hn : c.toNat < 0x10000
      · rw [if_pos hn]
        exact .unicode (hexText_numeral hn)
      · rw [if_neg hn]
        refine .pair ?_ ?_ ?_ (hexText_numeral ?_) (hexText_numeral ?_)
        · simp only [isHigh, decide_eq_true_eq]
          omega
        · simp only [isLow, decide_eq_true_eq]
          omega
        · unfold joined
          omega
        · omega
        · omega
    · simp only [if_neg hs]
      exact .raw hq hb fun h => hs (.inl h)

theorem charsText_encode (ensureAscii : Bool) (cs : List Char) : CharsText cs (cs.flatMap (encodeChar ensureAscii)) := by
  induction cs with
  | nil => exact .nil
  | cons c cs ih => exact .cons (charText_encodeChar ensureAscii c) ih

/-! ## Numbers -/

def phaseAfter (p : Phase) (cs : List Char) : Option Phase := cs.foldlM (fun p c => p.next c) p

section
variable {headroom : Nat} {float : List Char → PyFloat} {st : List Frame} {p q : Phase} {c : Char} {b : Bool}
  {cs ds acc : List Char}

theorem phaseAfter_cons (h : p.next c = some q) : phaseAfter p (c :: cs) = phaseAfter q cs := by
  unfold phaseAfter
  rw [List.foldlM_cons, h]
  rfl

theorem phaseAfter_append (h : phaseAfter p cs = some q) : phaseAfter p (cs ++ ds) = phaseAfter q ds := by
  unfold phaseAfter at h ⊢
  rw [List.foldlM_append, h]
  rfl

theorem phaseAfter_digits (hp : ∀ c, c.isDigit = true → p.next c = some p) (hd : ∀ c ∈ cs, c.isDigit = true) :
    phaseAfter p cs = some p := by
  induction cs with
  | nil => rfl
  | cons c cs ih =>
    rw [phaseAfter_cons (hp c (hd c (.head _)))]
    exact ih fun d hd' => hd d (.tail _ hd')

theorem phaseAfter_some_digits (hp : ∀ c, c.isDigit = true → p.next c = some q)
    (hq : ∀ c, c.isDigit = true → q.next c = some q) (hd : ∀ c ∈ cs, c.isDigit = true) (hne : cs ≠ []) :
    phaseAfter p cs = some q := by
  cases cs with
  | nil => exact absurd rfl hne
  | cons c cs =>
    rw [phaseAfter_cons (hp c (hd c (.head _)))]
    exact phaseAfter_digits hq fun d hd' => hd d (.tail _ hd')

theorem next_int (c : Char) (hc : c.isDigit = true) : Phase.int.next c = some .int := by simp [Phase.next, hc]

theorem next_dot (c : Char) (hc : c.isDigit = true) : Phase.dot.next c = some .frac := by simp [Phase.next, hc]

theorem next_frac (c : Char) (hc : c.isDigit = true) : Phase.frac.next c = some .frac := by simp [Phase.next, hc]

theorem next_expSign (b : Bool) (c : Char) (hc : c.isDigit = true) : (Phase.expSign b).next c = some .expDigits := by
  simp [Phase.next, hc]

theorem next_expDigits (c : Char) (hc : c.isDigit = true) : Phase.expDigits.next c = some .expDigits := by
  simp [Phase.next, hc]

theorem reads_number (h : phaseAfter p cs = some q) :
    Reads headroom float (.number p acc st) cs (.number q (acc ++ cs) st) := by
  induction cs generalizing p acc with
  | nil =>
    cases h
    rw [List.append_nil]
    exact .nil
  | cons c cs ih =>
    cases hn : p.next c with
    | none =>
      unfold phaseAfter at h
      rw [List.foldlM_cons, hn] at h
      cases h
    | some p' =>
      rw [phaseAfter_cons hn] at h
      have hstep : step headroom float (.number p acc st) c = .ok (.number p' (acc ++ [c]) st) := by simp [step, hn]
      have hrest : Reads headroom float (.number p' (acc ++ [c]) st) cs (.number q (acc ++ [c] ++ cs) st) := ih h
      rw [List.append_assoc] at hrest
      exact .cons hstep hrest

theorem ne_of_isDigit {d : Char} (hc : c.isDigit = true) (hd : d.isDigit = false) : c ≠ d := by
  intro h
  rw [h, hd] at hc
  cases hc

/-- A value whose text is `cs` is begun, and `s` reached at the end of the text. -/
def Starts (headroom : Nat) (float : List Char → PyFloat) (st : List Frame) (cs : List Char) (s : State) : Prop :=
  ∃ c ds s₀, cs = c :: ds ∧ startValue headroom c st = .ok s₀ ∧ Reads headroom float s₀ ds s

variable {s s₀ : State}

theorem Starts.cons (h : startValue headroom c st = .ok s₀) (hr : Reads headroom float s₀ cs s) :
    Starts headroom float st (c :: cs) s := ⟨c, cs, s₀, rfl, h, hr⟩

theorem startValue_head (h : startValue headroom c st = .ok s) : blank c = false ∧ c ≠ ']' := by
  constructor
  · by_contra hb
    have hblank : c = ' ' ∨ c = '\t' ∨ c = '\n' ∨ c = '\r' := by
      simpa [blank, or_assoc] using Bool.eq_true_of_not_eq_false hb
    rcases hblank with rfl | rfl | rfl | rfl <;> cases h
  · rintro rfl
    cases h

theorem Starts.value (h : Starts headroom float st cs s) : Reads headroom float (.value st) cs s := by
  obtain ⟨c, ds, s₀, rfl, hstart, hr⟩ := h
  obtain ⟨hb, -⟩ := startValue_head hstart
  exact .cons (by simp [step, hb, hstart]) hr

theorem Starts.firstItem (h : Starts headroom float (.arr [] :: st) cs s) : Reads headroom float (.firstItem st) cs s := by
  obtain ⟨c, ds, s₀, rfl, hstart, hr⟩ := h
  obtain ⟨hb, hc⟩ := startValue_head hstart
  exact .cons (by simp [step, hb, hc, hstart]) hr

theorem startValue_number (h : Phase.minus.next c = some q) : startValue headroom c st = .ok (.number q [c] st) := by
  have hc : c.isDigit = true := by
    by_cases h0 : c = '0'
    · rw [h0]
      decide
    · by_contra hd
      simp [Phase.next, h0, hd] at h
  have hne : ∀ d ∈ ['"', '\x7b', '[', 'n', 't', 'f', 'N', 'I', '-'], c ≠ d :=
    fun d hd => ne_of_isDigit hc (by revert d; simp)
  simp only [List.mem_cons, List.not_mem_nil, or_false, forall_eq_or_imp, forall_eq] at hne
  by_cases h0 : c = '0'
  · subst h0
    cases h
    rfl
  · have hq : q = .int := by simpa [Phase.next, h0, hc, eq_comm] using h
    rw [hq]
    simp [startValue, hne, h0, hc]

/-- A number is read up to the phase its text ends in. -/
theorem starts_signed (neg : Bool) (h : phaseAfter .minus cs = some p) (hne : cs ≠ []) :
    Starts headroom float st (PyFloat.signText neg ++ cs) (.number p (PyFloat.signText neg ++ cs) st) := by
  cases neg with
  | true => exact .cons rfl (reads_number h)
  | false =>
    cases cs with
    | nil => exact absurd rfl hne
    | cons c cs =>
      cases hn : Phase.minus.next c with
      | none =>
        unfold phaseAfter at h
        rw [List.foldlM_cons, hn] at h
        cases h
      | some q =>
        rw [phaseAfter_cons hn] at h
        exact .cons (startValue_number hn) (reads_number h)

/-! ## Integers -/

theorem isDigit_toDigits {n : Nat} : ∀ c ∈ Nat.toDigits 10 n, c.isDigit = true := fun _ hc =>
  Nat.isDigit_of_mem_toDigits (by decide) (by decide) hc

theorem phaseAfter_toDigits (n : Nat) : phaseAfter .minus (Nat.toDigits 10 n) = some (if n = 0 then .zero else .int) := by
  induction n using Nat.strongRecOn with
  | ind n ih =>
    by_cases hn : n < 10
    · have hall : ∀ d < 10, d = 0 ∨ (Nat.digitChar d).isDigit = true ∧ Nat.digitChar d ≠ '0' := by decide
      rw [Nat.toDigits_of_lt_base hn]
      rcases hall n hn with rfl | ⟨hd, h0⟩
      · rfl
      · have hne : n ≠ 0 := by
          rintro rfl
          exact h0 rfl
        rw [if_neg hne, phaseAfter_cons (q := .int) (by simp [Phase.next, hd, h0])]
        rfl
    · have hpos : n / 10 ≠ 0 := by omega
      have hhead := ih (n / 10) (by omega)
      rw [if_neg hpos] at hhead
      have hlast : (Nat.digitChar (n % 10)).isDigit = true :=
        isDigit_toDigits (n := n % 10) _ (by rw [Nat.toDigits_of_lt_base (Nat.mod_lt _ (by decide))]; exact .head _)
      rw [Nat.toDigits_of_base_le (by decide) (by omega), phaseAfter_append hhead, phaseAfter_cons (next_int _ hlast),
        if_neg (by omega)]
      rfl

theorem toList_int (n : Int) : (toString n).toList = PyFloat.signText (n < 0) ++ Nat.toDigits 10 n.natAbs := by
  rw [Int.toString_eq_repr, Int.repr_eq_if]
  by_cases h : 0 ≤ n
  · have habs : n.toNat = n.natAbs := by omega
    have hneg : ¬n < 0 := by omega
    rw [if_pos h, Nat.toList_repr, habs]
    simp [PyFloat.signText, hneg]
  · have habs : (-n).toNat = n.natAbs := by omega
    have hneg : n < 0 := by omega
    rw [if_neg h, String.toList_append, Nat.toList_repr, habs]
    simp [PyFloat.signText, hneg]

theorem readInt_text {n : Int} (h : (Nat.toDigits 10 n.natAbs).length ≤ 4300) :
    readInt (PyFloat.signText (n < 0) ++ Nat.toDigits 10 n.natAbs) = .ok (.int n) := by
  have hdigits : (Nat.toDigits 10 n.natAbs).foldl (fun n c => 10 * n + (c.toNat - 48)) 0 = n.natAbs :=
    Nat.ofDigitChars_ten_toDigits
  have hlen : ¬4300 < (Nat.toDigits 10 n.natAbs).length := by omega
  by_cases hneg : n < 0
  · simp [readInt, PyFloat.signText, hneg, hlen, hdigits, abs_of_neg hneg]
  · have hhead : (Nat.toDigits 10 n.natAbs).head? ≠ some '-' := by
      intro hm
      have := isDigit_toDigits '-' (List.mem_of_head? hm)
      cases this
    simp [readInt, PyFloat.signText, hneg, hlen, hdigits, hhead, abs_of_nonneg (Int.not_lt.mp hneg)]

/-! ## Floats -/

/-- The digits that `repr` writes: none of them is a zero in front, but for zero itself. -/
def Normal (digits : List (Fin 10)) (decpt : Int) : Prop :=
  digits.map Fin.val = [0] ∧ decpt = 1 ∨ ∃ d ds, digits = d :: ds ∧ d.val ≠ 0

/-- `float` gives back the number that a text was written for. -/
def Faithful (float : List Char → PyFloat) : PyFloat → Prop
  | .finite neg digits decpt =>
    Normal digits decpt ∧ float (PyFloat.finite neg digits decpt).repr.toList = .finite neg digits decpt
  | .inf _ | .nan => True

theorem isDigit_digitText {digits : List (Fin 10)} : ∀ c ∈ PyFloat.digitText digits, c.isDigit = true := by
  have hall : ∀ d < 10, (Nat.digitChar d).isDigit = true := by decide
  intro c hc
  obtain ⟨d, -, rfl⟩ := List.mem_map.mp hc
  exact hall d.val d.isLt

theorem isDigit_zeros {n : Nat} : ∀ c ∈ List.replicate n '0', c.isDigit = true := by
  intro c hc
  rw [List.eq_of_mem_replicate hc]
  decide

theorem next_minus {d : Fin 10} (hd : d.val ≠ 0) : Phase.minus.next (Nat.digitChar d.val) = some .int := by
  have hall : ∀ d < 10, d ≠ 0 → (Nat.digitChar d).isDigit = true ∧ Nat.digitChar d ≠ '0' := by decide
  obtain ⟨hdigit, hzero⟩ := hall d.val d.isLt hd
  simp [Phase.next, hdigit, hzero]

theorem phaseAfter_digitText {d : Fin 10} {digits : List (Fin 10)} (hd : d.val ≠ 0) :
    phaseAfter .minus (PyFloat.digitText (d :: digits)) = some .int := by
  rw [PyFloat.digitText, List.map_cons, phaseAfter_cons (next_minus hd)]
  exact phaseAfter_digits next_int isDigit_digitText

theorem phaseAfter_point (hd : ∀ c ∈ cs, c.isDigit = true) (hne : cs ≠ []) :
    phaseAfter .int ('.' :: cs) = some .frac := by
  rw [phaseAfter_cons (q := .dot) rfl]
  exact phaseAfter_some_digits next_dot next_frac hd hne

theorem phaseAfter_exp (hp : p.next 'e' = some (.exp b)) (hd : ∀ c ∈ cs, c.isDigit = true) (hne : cs ≠ [])
    (sign : Char) (hs : sign = '-' ∨ sign = '+') : phaseAfter p ('e' :: sign :: cs) = some .expDigits := by
  have hsign : (Phase.exp b).next sign = some (.expSign b) := by
    rcases hs with rfl | rfl <;> rfl
  rw [phaseAfter_cons hp, phaseAfter_cons hsign]
  exact phaseAfter_some_digits (next_expSign b) next_expDigits hd hne

def Fractional (neg : Bool) (text : List Char) : Prop :=
  ∃ cs p, text = PyFloat.signText neg ++ cs ∧ cs ≠ [] ∧ phaseAfter .minus cs = some p ∧ (p = .frac ∨ p = .expDigits)

theorem fractional_fixed {neg : Bool} {d : Fin 10} {ds : List (Fin 10)} {decpt : Int} (hd : d.val ≠ 0)
    (hfix : -4 < decpt ∧ decpt ≤ 16) : Fractional neg (PyFloat.finite neg (d :: ds) decpt).repr.toList := by
  by_cases hsmall : decpt ≤ 0
  · refine ⟨'0' :: '.' :: (List.replicate (-decpt).toNat '0' ++ PyFloat.digitText (d :: ds)), .frac, ?_, by simp, ?_,
      .inl rfl⟩
    · simp [PyFloat.repr, hfix, hsmall]
    · refine phaseAfter_some_digits (p := .dot) next_dot next_frac ?_ (by simp [PyFloat.digitText])
      intro c hc
      rcases List.mem_append.mp hc with hc | hc
      · exact isDigit_zeros c hc
      · exact isDigit_digitText c hc
  · by_cases hlong : (d :: ds).length ≤ decpt.toNat
    · refine ⟨PyFloat.digitText (d :: ds) ++ (List.replicate (decpt.toNat - (d :: ds).length) '0' ++ ['.', '0']), .frac,
        ?_, by simp [PyFloat.digitText], ?_, .inl rfl⟩
      · simp only [PyFloat.repr, hfix, hsmall, hlong, and_self, if_true, if_false, String.toList_ofList]
      · rw [phaseAfter_append (phaseAfter_digitText hd), phaseAfter_append (phaseAfter_digits next_int isDigit_zeros)]
        rfl
    · obtain ⟨k, hk⟩ : ∃ k, decpt.toNat = k + 1 := ⟨decpt.toNat - 1, by omega⟩
      refine ⟨PyFloat.digitText ((d :: ds).take decpt.toNat) ++ '.' :: PyFloat.digitText ((d :: ds).drop decpt.toNat),
        .frac, ?_, by simp, ?_, .inl rfl⟩
      · simp only [PyFloat.repr, hfix, hsmall, hlong, and_self, if_true, if_false, String.toList_ofList]
      · rw [hk] at hlong
        rw [hk, List.take_succ_cons, phaseAfter_append (phaseAfter_digitText hd)]
        refine phaseAfter_point isDigit_digitText ?_
        simp only [PyFloat.digitText, ne_eq, List.map_eq_nil_iff, List.drop_eq_nil_iff]
        omega

def expText (x : Nat) : List Char := (if x < 10 then ['0'] else []) ++ Nat.toDigits 10 x

theorem isDigit_expText {x : Nat} : ∀ c ∈ expText x, c.isDigit = true := by
  intro c hc
  unfold expText at hc
  rcases List.mem_append.mp hc with hc | hc
  · by_cases hx : x < 10
    · rw [if_pos hx] at hc
      rw [List.mem_singleton.mp hc]
      decide
    · rw [if_neg hx] at hc
      cases hc
  · exact isDigit_toDigits c hc

theorem fractional_scientific {neg : Bool} {d : Fin 10} {ds : List (Fin 10)} {decpt : Int} (hd : d.val ≠ 0)
    (hfix : ¬(-4 < decpt ∧ decpt ≤ 16)) : Fractional neg (PyFloat.finite neg (d :: ds) decpt).repr.toList := by
  have hne : expText (decpt - 1).natAbs ≠ [] := List.append_ne_nil_of_right_ne_nil _ Nat.toDigits_ne_nil
  have hsign : (if decpt < 1 then '-' else '+') = '-' ∨ (if decpt < 1 then '-' else '+') = '+' := by
    by_cases hs : decpt < 1
    · exact .inl (if_pos hs)
    · exact .inr (if_neg hs)
  refine ⟨PyFloat.digitText [d] ++ ((if (d :: ds).length ≤ 1 then [] else '.' :: PyFloat.digitText ds) ++
    'e' :: (if decpt < 1 then '-' else '+') :: expText (decpt - 1).natAbs), .expDigits, ?_,
    by simp [PyFloat.digitText], ?_, .inr rfl⟩
  · simp [PyFloat.repr, hfix, expText]
  · rw [phaseAfter_append (phaseAfter_digitText hd)]
    by_cases hshort : (d :: ds).length ≤ 1
    · rw [if_pos hshort]
      exact phaseAfter_exp (b := false) rfl isDigit_expText hne _ hsign
    · have hds : PyFloat.digitText ds ≠ [] := by
        simp only [PyFloat.digitText, ne_eq, List.map_eq_nil_iff]
        rintro rfl
        exact hshort (Nat.le_refl 1)
      rw [if_neg hshort, phaseAfter_append (phaseAfter_point isDigit_digitText hds)]
      exact phaseAfter_exp (b := true) rfl isDigit_expText hne _ hsign

theorem fractional_repr (neg : Bool) {digits : List (Fin 10)} {decpt : Int} (h : Normal digits decpt) :
    Fractional neg (PyFloat.finite neg digits decpt).repr.toList := by
  rcases h with ⟨hzero, rfl⟩ | ⟨d, ds, rfl, hd⟩
  · have htext : PyFloat.digitText digits = (digits.map Fin.val).map Nat.digitChar := by
      rw [List.map_map]
      rfl
    have hlen : digits.length = (digits.map Fin.val).length := (List.length_map _).symm
    rw [hzero] at htext hlen
    exact ⟨['0', '.', '0'], .frac, by simp [PyFloat.repr, hlen, htext], by simp, rfl, .inl rfl⟩
  · by_cases hfix : -4 < decpt ∧ decpt ≤ 16
    · exact fractional_fixed hd hfix
    · exact fractional_scientific hd hfix

/-! ## Values -/

def Closes (c : Char) : Prop := c = ',' ∨ c = ']' ∨ c = '\x7d'

/-- The value has been read; a number may still go on. -/
def Over (headroom : Nat) (float : List Char → PyFloat) (v : Json) (st : List Frame) (s : State) : Prop :=
  (∀ c, Closes c → step headroom float s c = stepAfter v c st) ∧ (st = [] → finish float s = .ok v)

variable {v x : Json} {xs ys : List Json} {k : String} {kvs ms : List (String × Json)} {a : Bool} {room : Nat}

theorem over_endValue : Over headroom float v st (endValue v st) := by
  refine ⟨fun c hc => ?_, ?_⟩
  · rcases st with _ | ⟨xs | ⟨kvs, k⟩, st⟩ <;> rfl
  · rintro rfl
    rfl

theorem over_number (h : endNumber float cs p = .ok v) (hp : p = .zero ∨ p = .int ∨ p = .frac ∨ p = .expDigits) :
    Over headroom float v st (.number p cs st) := by
  refine ⟨fun c hc => ?_, ?_⟩
  · have hnext : p.next c = none := by
      rcases hc with rfl | rfl | rfl <;> rcases hp with rfl | rfl | rfl | rfl <;> rfl
    have hstep : step headroom float (.number p cs st) c = endNumber float cs p >>= fun v => stepAfter v c st := by
      simp only [step, hnext]
      rcases hp with rfl | rfl | rfl | rfl <;> rfl
    rw [hstep, h]
    rfl
  · rintro rfl
    simp only [finish, h]
    rfl

theorem starts_int {n : Int} (h : (Nat.toDigits 10 n.natAbs).length ≤ 4300) :
    ∃ s, Starts headroom float st (toString n).toList s ∧ Over headroom float (.int n) st s := by
  rw [toList_int]
  refine ⟨_, starts_signed _ (phaseAfter_toDigits _) Nat.toDigits_ne_nil, ?_⟩
  by_cases hn : n.natAbs = 0
  · rw [if_pos hn]
    exact over_number (readInt_text h) (.inl rfl)
  · rw [if_neg hn]
    exact over_number (readInt_text h) (.inr (.inl rfl))

theorem starts_float {x : PyFloat} (h : Faithful float x) :
    ∃ s, Starts headroom float st (encodeFloat x) s ∧ Over headroom float (.float x) st s := by
  cases x with
  | nan => exact ⟨_, .cons rfl (.cons rfl (.single rfl)), over_endValue⟩
  | inf neg =>
    have hword : Reads headroom float (.literal 'n' ['f', 'i', 'n', 'i', 't', 'y'] (.float (.inf neg)) st)
        ['n', 'f', 'i', 'n', 'i', 't', 'y'] (endValue (.float (.inf neg)) st) :=
      .cons rfl (.cons rfl (.cons rfl (.cons rfl (.cons rfl (.cons rfl (.single rfl))))))
    refine ⟨_, ?_, over_endValue⟩
    cases neg with
    | true => exact .cons rfl (.cons rfl hword)
    | false => exact .cons rfl hword
  | finite neg digits decpt =>
    obtain ⟨hnormal, hfloat⟩ := h
    obtain ⟨cs, p, htext, hne, hphase, hp⟩ := fractional_repr neg hnormal
    have hread : Starts headroom float st (PyFloat.signText neg ++ cs) _ := starts_signed neg hphase hne
    rw [← htext] at hread
    refine ⟨_, hread, ?_⟩
    have hend : endNumber float (PyFloat.finite neg digits decpt).repr.toList p =
        .ok (.float (.finite neg digits decpt)) := by
      rcases hp with rfl | rfl
      · unfold endNumber
        rw [hfloat]
      · unfold endNumber
        rw [hfloat]
    exact over_number hend (.inr (.inr hp))

mutual
def floats : Json → List PyFloat
  | .null | .bool _ | .int _ | .str _ => []
  | .float x => [x]
  | .arr xs => floatsOfItems xs
  | .obj kvs => floatsOfMembers kvs
def floatsOfItems : List Json → List PyFloat
  | [] => []
  | x :: xs => floats x ++ floatsOfItems xs
def floatsOfMembers : List (String × Json) → List PyFloat
  | [] => []
  | (_, x) :: kvs => floats x ++ floatsOfMembers kvs
end

theorem Over.comma_item (h : Over headroom float x (.arr xs :: st) s) :
    Reads headroom float s [',', ' '] (.value (.arr (xs ++ [x]) :: st)) :=
  .cons (h.1 _ (.inl rfl)) (.single rfl)

theorem Over.close_items (h : Over headroom float x (.arr xs :: st) s) :
    Reads headroom float s [']'] (endValue (.arr (xs ++ [x])) st) := .single (h.1 _ (.inr (.inl rfl)))

theorem Over.comma_member (h : Over headroom float x (.member kvs k :: st) s) :
    Reads headroom float s [',', ' '] (.key (kvs ++ [(k, x)]) st) := .cons (h.1 _ (.inl rfl)) (.single rfl)

theorem Over.close_members (h : Over headroom float x (.member kvs k :: st) s) :
    Reads headroom float s ['\x7d'] (endValue (.obj (kvs ++ [(k, x)])) st) := .single (h.1 _ (.inr (.inr rfl)))

theorem reads_key {s' : State} (hs : AtKey headroom float kvs st s)
    (h : Reads headroom float (.value (.member kvs k :: st)) cs s') :
    Reads headroom float s (encodeString a k ++ ':' :: ' ' :: cs) s' := by
  have hkey : Reads headroom float s (encodeString a k) (.colon kvs k st) :=
    .cons hs.2 (reads_string (charsText_encode a k.toList))
  exact hkey.append (.cons rfl (.cons rfl h))

theorem startValue_array (h : st.length ≤ headroom) : startValue headroom '[' st = .ok (.firstItem st) := if_pos h

theorem startValue_object (h : st.length ≤ headroom) : startValue headroom '\x7b' st = .ok (.firstKey st) := if_pos h

theorem fitsItems_cons : fitsItems room (x :: xs) = true ↔ fits room x = true ∧ fitsItems room xs = true := by
  rw [fitsItems, Bool.and_eq_true]

theorem fitsMembers_cons : fitsMembers room ((k, x) :: kvs) = true ↔ fits room x = true ∧ fitsMembers room kvs = true := by
  rw [fitsMembers, Bool.and_eq_true]

theorem fits_arr : fits room (.arr xs) = true ↔ 0 < room ∧ fitsItems (room - 1) xs = true := by
  rw [fits, Bool.and_eq_true, decide_eq_true_eq]

theorem fits_obj : fits room (.obj kvs) = true ↔ 0 < room ∧ fitsMembers (room - 1) kvs = true := by
  rw [fits, Bool.and_eq_true, decide_eq_true_eq]

mutual
/-- The text of a value, whatever containers stand open around it. -/
theorem starts_encode : ∀ (v : Json) (st : List Frame) {room : Nat}, fits room v = true → st.length + room ≤ headroom + 1 →
    (∀ x ∈ floats v, Faithful float x) → ∃ s, Starts headroom float st (encode a v) s ∧ Over headroom float v st s
  | .null, _, _, _, _, _ => ⟨_, .cons rfl (.cons rfl (.cons rfl (.single rfl))), over_endValue⟩
  | .bool true, _, _, _, _, _ => ⟨_, .cons rfl (.cons rfl (.cons rfl (.single rfl))), over_endValue⟩
  | .bool false, _, _, _, _, _ => ⟨_, .cons rfl (.cons rfl (.cons rfl (.cons rfl (.single rfl)))), over_endValue⟩
  | .int n, _, _, hfit, _, _ => starts_int (of_decide_eq_true hfit)
  | .float x, _, _, _, _, hf => starts_float (hf x (.head _))
  | .str s, _, _, _, _, _ => ⟨_, .cons rfl (reads_string (charsText_encode a s.toList)), over_endValue⟩
  | .arr [], st, room, hfit, hroom, _ => by
    obtain ⟨hpos, -⟩ := fits_arr.mp hfit
    exact ⟨_, .cons (startValue_array (by omega)) (.single rfl), over_endValue⟩
  | .arr (x :: xs), st, room, hfit, hroom, hf => by
    obtain ⟨hpos, hfit⟩ := fits_arr.mp hfit
    obtain ⟨hx, hxs⟩ := fitsItems_cons.mp hfit
    have hlen : st.length + 1 + (room - 1) ≤ headroom + 1 := by omega
    obtain ⟨s, hs, hover⟩ := starts_encode x (.arr [] :: st) hx hlen fun y hy => hf y (List.mem_append_left _ hy)
    have hrest := reads_encodeItems xs hxs hlen (fun y hy => hf y (List.mem_append_right _ hy)) hover
    exact ⟨_, .cons (startValue_array (by omega)) (hs.firstItem.append hrest), over_endValue⟩
  | .obj [], st, room, hfit, hroom, _ => by
    obtain ⟨hpos, -⟩ := fits_obj.mp hfit
    exact ⟨_, .cons (startValue_object (by omega)) (.single rfl), over_endValue⟩
  | .obj ((k, x) :: kvs), st, room, hfit, hroom, hf => by
    obtain ⟨hpos, hfit⟩ := fits_obj.mp hfit
    obtain ⟨hx, hkvs⟩ := fitsMembers_cons.mp hfit
    have hlen : st.length + 1 + (room - 1) ≤ headroom + 1 := by omega
    obtain ⟨s, hs, hover⟩ := starts_encode x (.member [] k :: st) hx hlen fun y hy => hf y (List.mem_append_left _ hy)
    have hrest := reads_encodeMembers kvs hkvs hlen (fun y hy => hf y (List.mem_append_right _ hy)) hover
    exact ⟨_, .cons (startValue_object (by omega)) (reads_key atKey_first (hs.value.append hrest)), over_endValue⟩
theorem reads_encodeItems : ∀ (ys : List Json) {x : Json} {xs : List Json} {st : List Frame} {s : State} {room : Nat},
    fitsItems room ys = true → st.length + 1 + room ≤ headroom + 1 → (∀ x ∈ floatsOfItems ys, Faithful float x) →
    Over headroom float x (.arr xs :: st) s →
    Reads headroom float s (encodeItems a ys ++ [']']) (endValue (.arr (xs ++ x :: ys)) st)
  | [], _, _, _, _, _, _, _, _, hs => hs.close_items
  | y :: ys, x, xs, st, s, room, hfit, hroom, hf, hs => by
    obtain ⟨hy, hys⟩ := fitsItems_cons.mp hfit
    obtain ⟨s', hs', hover⟩ := starts_encode y (.arr (xs ++ [x]) :: st) hy hroom fun z hz =>
      hf z (List.mem_append_left _ hz)
    have hrest := reads_encodeItems ys hys hroom (fun z hz => hf z (List.mem_append_right _ hz)) hover
    have hread := hs.comma_item.append (hs'.value.append hrest)
    rw [List.append_assoc, List.singleton_append] at hread
    rw [encodeItems, List.cons_append, List.cons_append, List.append_assoc]
    exact hread
theorem reads_encodeMembers : ∀ (ms : List (String × Json)) {k : String} {x : Json} {kvs : List (String × Json)}
    {st : List Frame} {s : State} {room : Nat}, fitsMembers room ms = true → st.length + 1 + room ≤ headroom + 1 →
    (∀ x ∈ floatsOfMembers ms, Faithful float x) → Over headroom float x (.member kvs k :: st) s →
    Reads headroom float s (encodeMembers a ms ++ ['\x7d']) (endValue (.obj (kvs ++ (k, x) :: ms)) st)
  | [], _, _, _, _, _, _, _, _, _, hs => hs.close_members
  | (l, y) :: ms, k, x, kvs, st, s, room, hfit, hroom, hf, hs => by
    obtain ⟨hy, hms⟩ := fitsMembers_cons.mp hfit
    obtain ⟨s', hs', hover⟩ := starts_encode y (.member (kvs ++ [(k, x)]) l :: st) hy hroom fun z hz =>
      hf z (List.mem_append_left _ hz)
    have hrest := reads_encodeMembers ms hms hroom (fun z hz => hf z (List.mem_append_right _ hz)) hover
    have hread := hs.comma_member.append (reads_key (a := a) atKey_next (hs'.value.append hrest))
    rw [List.append_assoc, List.singleton_append] at hread
    rw [encodeMembers, List.cons_append, List.cons_append, List.append_assoc, List.cons_append, List.cons_append,
      List.append_assoc]
    exact hread
end

/-- What `dumps` writes, `loads` reads. -/
theorem loads_dumps {text : List Char} (hroom : room ≤ headroom + 1) (hf : ∀ x ∈ floats v, Faithful float x)
    (h : dumps a room v = some text) : loads headroom float text = .ok v := by
  unfold dumps at h
  by_cases hfit : fits room v = true
  · rw [if_pos hfit] at h
    cases h
    obtain ⟨s, hs, hover⟩ := starts_encode (a := a) v [] hfit (by simpa using hroom) hf
    unfold loads
    rw [show run headroom float (.value []) (encode a v) = .ok s from hs.value]
    exact hover.2 rfl
  · rw [if_neg hfit] at h
    cases h

/-! ## No control characters -/

def Printable (cs : List Char) : Prop := ∀ c ∈ cs, ' ' ≤ c

instance : Decidable (Printable cs) := List.decidableBAll _ _

theorem Printable.append (h : Printable cs) (h' : Printable ds) : Printable (cs ++ ds) := by
  intro c hc
  rcases List.mem_append.mp hc with hc | hc
  · exact h c hc
  · exact h' c hc

theorem Printable.cons (hc : ' ' ≤ c) (h : Printable cs) : Printable (c :: cs) := List.forall_mem_cons.mpr ⟨hc, h⟩

theorem Printable.nil : Printable [] := by
  intro c hc
  cases hc

theorem not_lt_of_isDigit (hc : c.isDigit = true) : ' ' ≤ c := by
  have hle : '0' ≤ c := of_decide_eq_true ((Bool.and_eq_true _ _).mp hc).1
  exact Char.le_trans (by decide) hle

theorem printable_next (h : p.next c = some q) : ' ' ≤ c := by
  by_cases hc : c.isDigit = true
  · exact not_lt_of_isDigit hc
  · have hword : c ∈ ['0', '.', 'e', 'E', '+', '-'] := by
      by_contra hno
      simp only [List.mem_cons, List.not_mem_nil, or_false, not_or] at hno
      cases p <;> simp [Phase.next, hc, hno] at h
    have hall : ∀ d ∈ ['0', '.', 'e', 'E', '+', '-'], ' ' ≤ d := by simp
    exact hall c hword

theorem printable_phaseAfter (h : phaseAfter p cs = some q) : Printable cs := by
  induction cs generalizing p with
  | nil => exact .nil
  | cons c cs ih =>
    cases hn : p.next c with
    | none =>
      unfold phaseAfter at h
      rw [List.foldlM_cons, hn] at h
      cases h
    | some p' =>
      rw [phaseAfter_cons hn] at h
      exact .cons (printable_next hn) (ih h)

theorem printable_sign (neg : Bool) : Printable (PyFloat.signText neg) := by
  cases neg with
  | false => exact .nil
  | true => exact .cons (by decide) .nil

theorem printable_unicodeEscape {n : Nat} (h : n < 16 ^ 4) : Printable (unicodeEscape n) := by
  have hall : ∀ i < 16, ' ' ≤ Nat.digitChar i := by decide
  refine .cons (by decide) (.cons (by decide) fun c hc => ?_)
  obtain ⟨i, hi, rfl⟩ := mem_numeral h hc
  exact hall i hi

theorem printable_encodeChar : Printable (encodeChar a c) := by
  unfold encodeChar
  cases he : shortEscapes.lookup c with
  | some e =>
    have hall : ∀ p ∈ shortEscapes, ' ' ≤ p.2 := by decide
    obtain ⟨l₁, l₂, hl, -⟩ := List.lookup_eq_some_iff.mp he
    exact .cons (by decide) (.cons (hall (c, e) (by rw [hl]; exact List.mem_append_right _ (.head _))) .nil)
  | none =>
    have hc : c.toNat < 0xd800 ∨ 0xdfff < c.toNat ∧ c.toNat < 0x110000 := c.valid
    by_cases hs : c < ' ' ∨ a = true ∧ '~' < c
    · simp only [if_pos hs]
      by_cases hn : c.toNat < 0x10000
      · rw [if_pos hn]
        exact printable_unicodeEscape hn
      · rw [if_neg hn]
        exact (printable_unicodeEscape (by omega)).append (printable_unicodeEscape (by omega))
    · simp only [if_neg hs]
      exact .cons (Char.not_lt.mp fun h => hs (.inl h)) .nil

theorem printable_encodeString : Printable (encodeString a k) := by
  refine .cons (by decide) (.append (fun c hc => ?_) (.cons (by decide) .nil))
  obtain ⟨d, -, hd⟩ := List.mem_flatMap.mp hc
  exact printable_encodeChar c hd

theorem printable_float {x : PyFloat} (h : Faithful float x) : Printable (encodeFloat x) := by
  cases x with
  | nan => exact (by decide : Printable ['N', 'a', 'N'])
  | inf neg =>
    have hword : Printable ['I', 'n', 'f', 'i', 'n', 'i', 't', 'y'] := by decide
    exact (printable_sign neg).append hword
  | finite neg digits decpt =>
    obtain ⟨cs, p, htext, -, hphase, -⟩ := fractional_repr neg h.1
    have hprintable := (printable_sign neg).append (printable_phaseAfter hphase)
    rw [← htext] at hprintable
    exact hprintable

mutual
theorem printable_encode : ∀ v : Json, (∀ x ∈ floats v, Faithful float x) → Printable (encode a v)
  | .null, _ => (by decide : Printable ['n', 'u', 'l', 'l'])
  | .bool true, _ => (by decide : Printable ['t', 'r', 'u', 'e'])
  | .bool false, _ => (by decide : Printable ['f', 'a', 'l', 's', 'e'])
  | .int n, _ => by
    rw [encode, toList_int]
    exact (printable_sign _).append (printable_phaseAfter (phaseAfter_toDigits _))
  | .float x, hf => printable_float (hf x (.head _))
  | .str _, _ => printable_encodeString
  | .arr [], _ => (by decide : Printable ['[', ']'])
  | .arr (x :: xs), hf => by
    have hx := printable_encode x fun y hy => hf y (List.mem_append_left _ hy)
    have hxs := printable_encodeItems xs fun y hy => hf y (List.mem_append_right _ hy)
    exact .cons (by decide) (hx.append (hxs.append (by decide)))
  | .obj [], _ => (by decide : Printable ['\x7b', '\x7d'])
  | .obj ((k, x) :: kvs), hf => by
    have hx := printable_encode x fun y hy => hf y (List.mem_append_left _ hy)
    have hkvs := printable_encodeMembers kvs fun y hy => hf y (List.mem_append_right _ hy)
    have hrest : Printable (encode a x ++ (encodeMembers a kvs ++ ['\x7d'])) := hx.append (hkvs.append (by decide))
    have hcolon := hrest.cons (show ' ' ≤ ' ' by decide) |>.cons (show ' ' ≤ ':' by decide)
    exact .cons (by decide) (printable_encodeString.append hcolon)
theorem printable_encodeItems : ∀ xs : List Json, (∀ x ∈ floatsOfItems xs, Faithful float x) → Printable (encodeItems a xs)
  | [], _ => .nil
  | x :: xs, hf => by
    have hx := printable_encode x fun y hy => hf y (List.mem_append_left _ hy)
    have hxs := printable_encodeItems xs fun y hy => hf y (List.mem_append_right _ hy)
    exact .cons (by decide) (.cons (by decide) (hx.append hxs))
theorem printable_encodeMembers : ∀ kvs : List (String × Json), (∀ x ∈ floatsOfMembers kvs, Faithful float x) →
    Printable (encodeMembers a kvs)
  | [], _ => .nil
  | (k, x) :: kvs, hf => by
    have hx := printable_encode x fun y hy => hf y (List.mem_append_left _ hy)
    have hkvs := printable_encodeMembers kvs fun y hy => hf y (List.mem_append_right _ hy)
    have hcolon := (hx.append hkvs).cons (show ' ' ≤ ' ' by decide) |>.cons (show ' ' ≤ ':' by decide)
    exact .cons (by decide) (.cons (by decide) (printable_encodeString.append hcolon))
end

end

end JsonEncoder

end AdmissionScheduler
