import Mathlib.Algebra.Order.Ring.Int
import Mathlib.Data.Prod.Lex
import Mathlib.Order.Lattice
import Mathlib.Tactic.Common

/-!
# Python values as JSON delivers them

Doubles count units of `2 ^ -1074`, the smallest positive one, so that sums and
products are exact before they are rounded. A float is given by the shortest
decimal that denotes it, which is what `repr` prints. `int()` is the parser of
decimal literals; it inverts `str` on integers and refuses the text of every
float and bool.
-/

namespace AdmissionScheduler

/-! ## Doubles -/

inductive Double where
  | finite (units : Int)
  | inf (neg : Bool)
  | nan
  deriving DecidableEq, Repr

namespace Double

def key : Double → Int ×ₗ Int
  | .inf true => toLex (-1, 0)
  | .finite u => toLex (0, u)
  | .inf false => toLex (1, 0)
  | .nan => toLex (2, 0)

theorem key_injective : Function.Injective key := by
  intro x y h
  cases x with
  | finite u =>
    cases y with
    | finite v => simpa [key] using h
    | inf b => cases b <;> simp [key] at h
    | nan => simp [key] at h
  | inf b =>
    cases y with
    | finite v => cases b <;> simp [key] at h
    | inf c => cases b <;> cases c <;> simp [key] at h ⊢
    | nan => cases b <;> simp [key] at h
  | nan =>
    cases y with
    | finite v => simp [key] at h
    | inf b => cases b <;> simp [key] at h
    | nan => rfl

instance : LinearOrder Double := LinearOrder.lift' key key_injective

def roundHalfEven (num den : Nat) : Nat :=
  let q := num / den
  let r := num % den
  if 2 * r < den then q else if den < 2 * r then q + 1 else q + q % 2

def ofUnits (neg : Bool) (num den : Nat) : Double :=
  let k := Nat.log2 (num / den) + 1 - 53
  let u := roundHalfEven num (den * 2 ^ k) * 2 ^ k
  if 2 ^ (1024 + 1074) ≤ u then .inf neg else .finite (if neg then -u else u)

def ofInt (n : Int) : Double := ofUnits (n < 0) (n.natAbs * 2 ^ 1074) 1

def add : Double → Double → Double
  | .finite a, .finite b => ofUnits (a + b < 0) (a + b).natAbs 1
  | .nan, _ => .nan
  | _, .nan => .nan
  | .inf a, .inf b => if a = b then .inf a else .nan
  | .inf a, .finite _ => .inf a
  | .finite _, .inf b => .inf b

def mul : Double → Double → Double
  | .finite a, .finite b => ofUnits ((a < 0) != (b < 0)) (a.natAbs * b.natAbs) (2 ^ 1074)
  | .nan, _ => .nan
  | _, .nan => .nan
  | .inf a, .inf b => .inf (a != b)
  | .inf a, .finite b => if b = 0 then .nan else .inf (a != (b < 0))
  | .finite a, .inf b => if a = 0 then .nan else .inf ((a < 0) != b)

def neg : Double → Double
  | .finite u => .finite (-u)
  | .inf b => .inf !b
  | .nan => .nan

def sub (x y : Double) : Double := x.add y.neg

/-- `int(x)`; `none` is the exception for what is not finite. -/
def toInt? : Double → Option Int
  | .finite u => some (u.tdiv (2 ^ 1074))
  | .inf _ | .nan => none

end Double

/-! ## Floats and their text -/

/-- `finite neg digits decpt` is `±0.digits * 10 ^ decpt`. -/
inductive PyFloat where
  | finite (neg : Bool) (digits : List (Fin 10)) (decpt : Int)
  | inf (neg : Bool)
  | nan
  deriving DecidableEq, Repr

namespace PyFloat

def toDouble : PyFloat → Double
  | .finite neg digits decpt =>
    let d := digits.foldl (fun n c => 10 * n + c.val) 0
    let e := decpt - digits.length
    Double.ofUnits neg (d * 10 ^ e.toNat * 2 ^ 1074) (10 ^ (-e).toNat)
  | .inf neg => .inf neg
  | .nan => .nan

def digitText (digits : List (Fin 10)) : List Char := digits.map fun c => Nat.digitChar c.val

def signText (neg : Bool) : List Char := if neg then ['-'] else []

/-- Python's shortest `repr`: a fixed point for decimal exponents in `-4 .. 16`,
an exponent outside. -/
def repr : PyFloat → String
  | .finite neg digits decpt =>
    String.ofList <| signText neg ++
      if -4 < decpt ∧ decpt ≤ 16 then
        if decpt ≤ 0 then '0' :: '.' :: (List.replicate (-decpt).toNat '0' ++ digitText digits)
        else if digits.length ≤ decpt.toNat then
          digitText digits ++ (List.replicate (decpt.toNat - digits.length) '0' ++ ['.', '0'])
        else digitText (digits.take decpt.toNat) ++ '.' :: digitText (digits.drop decpt.toNat)
      else
        let x := (decpt - 1).natAbs
        digitText (digits.take 1) ++ (if digits.length ≤ 1 then [] else '.' :: digitText (digits.drop 1)) ++
          'e' :: (if decpt < 1 then '-' else '+') :: ((if x < 10 then ['0'] else []) ++ Nat.toDigits 10 x)
  | .inf neg => String.ofList (signText neg ++ ['i', 'n', 'f'])
  | .nan => "nan"

end PyFloat

/-! ## `int()` of a text -/

/-- The zeros of Unicode's decimal digits (version 15, that of Python 3.12); the other nine follow each. -/
def decimalZeros : List Nat :=
  0x30 :: [0x660, 0x6f0, 0x7c0, 0x966, 0x9e6, 0xa66, 0xae6, 0xb66, 0xbe6, 0xc66, 0xce6, 0xd66, 0xde6, 0xe50, 0xed0,
   0xf20, 0x1040, 0x1090, 0x17e0, 0x1810, 0x1946, 0x19d0, 0x1a80, 0x1a90, 0x1b50, 0x1bb0, 0x1c40, 0x1c50, 0xa620,
   0xa8d0, 0xa900, 0xa9d0, 0xa9f0, 0xaa50, 0xabf0, 0xff10, 0x104a0, 0x10d30, 0x11066, 0x110f0, 0x11136, 0x111d0,
   0x112f0, 0x11450, 0x114d0, 0x11650, 0x116c0, 0x11730, 0x118e0, 0x11950, 0x11c50, 0x11d50, 0x11da0, 0x11f50,
   0x16a60, 0x16ac0, 0x16b50, 0x1d7ce, 0x1d7d8, 0x1d7e2, 0x1d7ec, 0x1d7f6, 0x1e140, 0x1e2f0, 0x1e4f0, 0x1e950,
   0x1fbf0]

/-- `unicodedata.decimal(c, None)` -/
def decimal? (c : Char) : Option Nat :=
  (decimalZeros.find? fun z => z ≤ c.toNat && c.toNat ≤ z + 9).map fun z => c.toNat - z

/-- The blanks that `int()` passes over: not quite those of `str.isspace`, which has U+001C to U+001F too. -/
def intSpace (c : Char) : Bool :=
  let n := c.toNat
  (9 ≤ n && n ≤ 13) || n == 32 || n == 0x85 || n == 0xa0 || n == 0x1680 || (0x2000 ≤ n && n ≤ 0x200a) ||
    n == 0x2028 || n == 0x2029 || n == 0x202f || n == 0x205f || n == 0x3000

def pyDigits : List Char → Nat → Option Nat
  | [], n => some n
  | '_' :: c :: cs, n => (decimal? c).bind fun d => pyDigits cs (10 * n + d)
  | c :: cs, n => (decimal? c).bind fun d => pyDigits cs (10 * n + d)

def pyNat : List Char → Option Nat
  | [] => none
  | c :: cs => if (decimal? c).isSome then pyDigits (c :: cs) 0 else none

def strip (cs : List Char) : List Char := ((cs.dropWhile intSpace).reverse.dropWhile intSpace).reverse

def maxStrDigits : Nat := 4300

def digitCount (cs : List Char) : Nat := cs.countP fun c => (decimal? c).isSome

/-- `int(s)`; `none` is the `ValueError`. -/
def pyInt (s : String) : Option Int :=
  if maxStrDigits < digitCount s.toList then none
  else match strip s.toList with
    | '-' :: cs => (pyNat cs).map fun n => -Int.ofNat n
    | '+' :: cs => (pyNat cs).map Int.ofNat
    | cs => (pyNat cs).map Int.ofNat

theorem decimal?_of_isDigit {c : Char} (h : c.isDigit = true) : decimal? c = some (c.toNat - '0'.toNat) := by
  simp only [Char.isDigit, Bool.and_eq_true, decide_eq_true_eq, ge_iff_le, UInt32.le_iff_toNat_le] at h
  have hrange : (0x30 ≤ c.toNat && c.toNat ≤ 0x30 + 9) = true := by
    simp only [Bool.and_eq_true, decide_eq_true_eq]
    exact h
  have hzero : decimalZeros.find? (fun z => z ≤ c.toNat && c.toNat ≤ z + 9) = some 0x30 :=
    List.find?_cons_of_pos hrange
  rw [decimal?, hzero]
  rfl

theorem pyDigits_digits : ∀ {cs : List Char} (n : Nat), (∀ c ∈ cs, c.isDigit = true) →
    pyDigits cs n = some (Nat.ofDigitChars 10 cs n)
  | [], n, _ => by simp [pyDigits]
  | c :: cs, n, h => by
    have hc := h c (List.mem_cons_self ..)
    have hu : c ≠ '_' := fun e => by subst e; exact absurd hc (by decide)
    rw [Nat.ofDigitChars_cons, ← pyDigits_digits _ fun d hd => h d (List.mem_cons_of_mem _ hd)]
    rw [pyDigits.eq_3 _ _ _ (fun d ds e => absurd e hu), decimal?_of_isDigit hc, Option.bind_some]

theorem dropWhile_eq_self {p : Char → Bool} {cs : List Char} (h : ∀ c ∈ cs, p c = false) :
    cs.dropWhile p = cs := by
  cases cs with
  | nil => rfl
  | cons c cs => simp [h c (List.mem_cons_self ..)]

theorem strip_eq_self {cs : List Char} (h : ∀ c ∈ cs, intSpace c = false) : strip cs = cs := by
  unfold strip
  rw [dropWhile_eq_self h, dropWhile_eq_self fun c hc => h c (List.mem_reverse.mp hc), List.reverse_reverse]

theorem not_intSpace_of_digit {c : Char} (h : c.isDigit = true) : intSpace c = false := by
  simp only [Char.isDigit, Bool.and_eq_true, decide_eq_true_eq, ge_iff_le, UInt32.le_iff_toNat_le] at h
  have hlow : 48 ≤ c.toNat := h.1
  have hhigh : c.toNat ≤ 57 := h.2
  simp only [intSpace, Bool.or_eq_false_iff, Bool.and_eq_false_iff, decide_eq_false_iff_not, beq_eq_false_iff_ne]
  omega

theorem pyNat_toDigits (n : Nat) : pyNat (Nat.toDigits 10 n) = some n := by
  have hd : ∀ c ∈ Nat.toDigits 10 n, c.isDigit = true := fun c hc =>
    Nat.isDigit_of_mem_toDigits (by decide) (by decide) hc
  have h := pyDigits_digits 0 hd
  rw [Nat.ofDigitChars_ten_toDigits] at h
  cases hl : Nat.toDigits 10 n with
  | nil => exact absurd hl Nat.toDigits_ne_nil
  | cons c cs =>
    rw [hl] at h hd
    simp only [pyNat, decimal?_of_isDigit (hd c (List.mem_cons_self ..)), Option.isSome_some, if_true, h]

theorem digitCount_toDigits_le {n k : Nat} (hk : 0 < k) (h : n < 10 ^ k) : digitCount (Nat.toDigits 10 n) ≤ k := by
  refine List.countP_le_length.trans ?_
  exact (Nat.length_toDigits_le_iff (by decide) hk).mpr h

/-- `int(str(n))` is `n`, as long as `str(n)` is not too long for `int()`. -/
theorem pyInt_toString {n : Int} (hn : n.natAbs < 10 ^ maxStrDigits) : pyInt (toString n) = some n := by
  have hdig (k : Nat) : ∀ c ∈ Nat.toDigits 10 k, c.isDigit = true := fun c hc =>
    Nat.isDigit_of_mem_toDigits (by decide) (by decide) hc
  have hcount {k : Nat} (hk : k = n.natAbs) : ¬maxStrDigits < digitCount (Nat.toDigits 10 k) := by
    have := digitCount_toDigits_le (by decide) (hk ▸ hn)
    omega
  rw [Int.toString_eq_repr, Int.repr_eq_if]
  split
  · rename_i h0
    have hs : strip (Nat.toDigits 10 n.toNat) = Nat.toDigits 10 n.toNat :=
      strip_eq_self fun c hc => not_intSpace_of_digit (hdig _ c hc)
    have hne : ∀ x : Char, x.isDigit = false → ∀ cs, Nat.toDigits 10 n.toNat ≠ x :: cs := by
      intro x hx cs hcs
      have := hdig n.toNat x (by rw [hcs]; exact List.mem_cons_self ..)
      rw [hx] at this; cases this
    unfold pyInt
    rw [Nat.toList_repr, if_neg (hcount (by omega)), hs]
    split
    · rename_i cs hcs; exact absurd hcs (hne '-' (by decide) cs)
    · rename_i cs hcs; exact absurd hcs (hne '+' (by decide) cs)
    · simp [pyNat_toDigits, h0]
  · rename_i h0
    have hs : strip ('-' :: Nat.toDigits 10 (-n).toNat) = '-' :: Nat.toDigits 10 (-n).toNat := by
      refine strip_eq_self fun c hc => ?_
      rcases List.mem_cons.mp hc with rfl | hc
      · decide
      · exact not_intSpace_of_digit (hdig _ c hc)
    have htext : ("-" ++ (-n).toNat.repr).toList = '-' :: Nat.toDigits 10 (-n).toNat := by
      rw [String.toList_append, Nat.toList_repr]
      rfl
    have hminus : digitCount ('-' :: Nat.toDigits 10 (-n).toNat) = digitCount (Nat.toDigits 10 (-n).toNat) :=
      List.countP_cons_of_neg (by decide)
    unfold pyInt
    rw [htext, hminus, if_neg (hcount (by omega)), hs]
    simp only [pyNat_toDigits, Option.map_some, Option.some.injEq, Int.ofNat_eq_natCast]
    omega

example : pyInt "\u3000\uff15_\uff10" = some 50 := by decide +kernel

/-! ## What `int()` refuses -/

def intChar (c : Char) : Bool := (decimal? c).isSome || c == '_' || c == '-' || c == '+' || intSpace c

theorem intChar_of_pyDigits : ∀ {cs : List Char} {n k : Nat}, pyDigits cs n = some k →
    ∀ c ∈ cs, intChar c = true := by
  intro cs n
  fun_induction pyDigits cs n with
  | case1 => simp
  | case2 n c cs ih =>
    intro k h d hd
    obtain ⟨v, hv, h⟩ := Option.bind_eq_some_iff.mp h
    simp only [List.mem_cons] at hd
    rcases hd with rfl | rfl | hd
    · decide
    · simp [intChar, hv]
    · exact ih v h d hd
  | case3 n c cs _ ih =>
    intro k h d hd
    obtain ⟨v, hv, h⟩ := Option.bind_eq_some_iff.mp h
    rcases List.mem_cons.mp hd with rfl | hd
    · simp [intChar, hv]
    · exact ih v h d hd

theorem intChar_of_pyNat {cs : List Char} {k : Nat} (h : pyNat cs = some k) :
    ∀ c ∈ cs, intChar c = true := by
  cases cs with
  | nil => simp
  | cons c cs =>
    simp only [pyNat] at h
    split at h
    · exact intChar_of_pyDigits h
    · cases h

theorem mem_strip {cs : List Char} {c : Char} (hc : c ∈ cs) (hw : intSpace c = false) : c ∈ strip cs := by
  have keep : ∀ {l : List Char}, c ∈ l → c ∈ l.dropWhile intSpace := by
    intro l hl
    induction l with
    | nil => cases hl
    | cons d l ih =>
      rw [List.dropWhile_cons]
      split
      · rename_i hd
        rcases List.mem_cons.mp hl with rfl | hl
        · rw [hw] at hd; cases hd
        · exact ih hl
      · exact hl
  unfold strip
  exact List.mem_reverse.mpr (keep (List.mem_reverse.mpr (keep hc)))

/-- A text with a character of no integer literal is refused. -/
theorem pyInt_eq_none {s : String} {c : Char} (hc : c ∈ s.toList) (hi : intChar c = false) : pyInt s = none := by
  have hw : intSpace c = false := by
    cases h : intSpace c with
    | false => rfl
    | true => simp [intChar, h] at hi
  have hm := mem_strip hc hw
  cases hp : pyInt s with
  | none => rfl
  | some k =>
    exfalso
    unfold pyInt at hp
    have tail : ∀ {x : Char} {cs : List Char}, intChar x = true → c ∈ x :: cs → c ∈ cs := by
      intro x cs hx hcx
      rcases List.mem_cons.mp hcx with rfl | h
      · rw [hi] at hx; cases hx
      · exact h
    split at hp
    · cases hp
    split at hp
    · rename_i cs hcs
      rw [hcs] at hm
      obtain ⟨m, hm', -⟩ := Option.map_eq_some_iff.mp hp
      have := intChar_of_pyNat hm' c (tail (by decide) hm)
      rw [hi] at this; cases this
    · rename_i cs hcs
      rw [hcs] at hm
      obtain ⟨m, hm', -⟩ := Option.map_eq_some_iff.mp hp
      have := intChar_of_pyNat hm' c (tail (by decide) hm)
      rw [hi] at this; cases this
    · obtain ⟨m, hm', -⟩ := Option.map_eq_some_iff.mp hp
      have := intChar_of_pyNat hm' c hm
      rw [hi] at this; cases this

/-- The text of a float always has a point, an exponent or a letter, so `int()` refuses it. -/
theorem pyInt_repr (x : PyFloat) : pyInt x.repr = none := by
  cases x with
  | finite neg digits decpt =>
    by_cases hf : -4 < decpt ∧ decpt ≤ 16
    · refine pyInt_eq_none (c := '.') ?_ (by decide)
      simp only [PyFloat.repr, hf, and_self, if_true, String.toList_ofList, List.mem_append]
      right
      split
      · simp
      · split <;> simp
    · refine pyInt_eq_none (c := 'e') ?_ (by decide)
      simp only [PyFloat.repr, hf, if_false, String.toList_ofList, List.mem_append, List.mem_cons]
      simp
  | inf neg => exact pyInt_eq_none (c := 'i') (by simp [PyFloat.repr]) (by decide)
  | nan => exact pyInt_eq_none (c := 'n') (by simp [PyFloat.repr]) (by decide)

/-! ## JSON values -/

inductive Json where
  | null
  | bool (b : Bool)
  | int (n : Int)
  | float (x : PyFloat)
  | str (s : String)
  | arr (xs : List Json)
  | obj (kvs : List (String × Json))

namespace Json

mutual
def beq : Json → Json → Bool
  | .null, .null => true
  | .bool a, .bool b => a == b
  | .int a, .int b => a == b
  | .float a, .float b => a == b
  | .str a, .str b => a == b
  | .arr a, .arr b => beqList a b
  | .obj a, .obj b => beqFields a b
  | _, _ => false
def beqList : List Json → List Json → Bool
  | [], [] => true
  | a :: as, b :: bs => beq a b && beqList as bs
  | _, _ => false
def beqFields : List (String × Json) → List (String × Json) → Bool
  | [], [] => true
  | (k, a) :: as, (l, b) :: bs => k == l && beq a b && beqFields as bs
  | _, _ => false
end

mutual
theorem eq_of_beq : ∀ {a b : Json}, beq a b = true → a = b
  | .null, b, h => by cases b <;> simp_all [beq]
  | .bool _, b, h => by cases b <;> simp_all [beq]
  | .int _, b, h => by cases b <;> simp_all [beq]
  | .float _, b, h => by cases b <;> simp_all [beq]
  | .str _, b, h => by cases b <;> simp_all [beq]
  | .arr as, b, h => by
    cases b <;> simp only [beq, Bool.false_eq_true] at h
    rw [eq_of_beqList h]
  | .obj as, b, h => by
    cases b <;> simp only [beq, Bool.false_eq_true] at h
    rw [eq_of_beqFields h]
theorem eq_of_beqList : ∀ {as bs : List Json}, beqList as bs = true → as = bs
  | [], bs, h => by cases bs <;> simp_all [beqList]
  | a :: as, bs, h => by
    cases bs with
    | nil => simp [beqList] at h
    | cons b bs =>
      simp only [beqList, Bool.and_eq_true] at h
      rw [eq_of_beq h.1, eq_of_beqList h.2]
theorem eq_of_beqFields : ∀ {as bs : List (String × Json)}, beqFields as bs = true → as = bs
  | [], bs, h => by cases bs <;> simp_all [beqFields]
  | (k, a) :: as, bs, h => by
    cases bs with
    | nil => simp [beqFields] at h
    | cons b bs =>
      obtain ⟨l, b⟩ := b
      simp only [beqFields, Bool.and_eq_true, beq_iff_eq] at h
      rw [h.1.1, eq_of_beq h.1.2, eq_of_beqFields h.2]
end

mutual
theorem beq_refl : ∀ a : Json, beq a a = true
  | .null => by simp [beq]
  | .bool _ => by simp [beq]
  | .int _ => by simp [beq]
  | .float _ => by simp [beq]
  | .str _ => by simp [beq]
  | .arr as => by rw [beq]; exact beqList_refl as
  | .obj as => by rw [beq]; exact beqFields_refl as
theorem beqList_refl : ∀ as : List Json, beqList as as = true
  | [] => by simp [beqList]
  | a :: as => by simp [beqList, beq_refl a, beqList_refl as]
theorem beqFields_refl : ∀ as : List (String × Json), beqFields as as = true
  | [] => by simp [beqFields]
  | (k, a) :: as => by simp [beqFields, beq_refl a, beqFields_refl as]
end

instance : DecidableEq Json := fun a b =>
  decidable_of_iff (beq a b = true) ⟨eq_of_beq, fun h => h ▸ beq_refl a⟩

/-- `dict.get`; the parser keeps the last of equal keys. -/
def field? (kvs : List (String × Json)) (k : String) : Option Json :=
  (kvs.reverse.find? fun p => p.1 = k).map Prod.snd

def truthy : Json → Bool
  | .null => false
  | .bool b => b
  | .int n => n ≠ 0
  | .float (.finite _ digits _) => digits.any (· ≠ 0)
  | .float _ => true
  | .str s => s ≠ ""
  | .arr xs => !xs.isEmpty
  | .obj kvs => !kvs.isEmpty

def typeName : Json → String
  | .null => "NoneType"
  | .bool _ => "bool"
  | .int _ => "int"
  | .float _ => "float"
  | .str _ => "str"
  | .arr _ => "list"
  | .obj _ => "dict"

end Json

/-- A value that Python's integer arithmetic accepts. -/
inductive PyNum where
  | int (n : Int)
  | bool (b : Bool)
  | float (x : PyFloat)
  deriving DecidableEq, Repr

def PyNum.text : PyNum → String
  | .int n => toString n
  | .bool b => if b then "True" else "False"
  | .float x => x.repr

/-- `int(str(x))` succeeds on the integers that are not too long and on nothing else. -/
theorem pyInt_text (x : PyNum) : (∀ n, x = .int n → n.natAbs < 10 ^ maxStrDigits) →
    pyInt x.text = match x with | .int n => some n | _ => none := by
  intro hx
  cases x with
  | int n => exact pyInt_toString (hx n rfl)
  | bool b => cases b <;> decide
  | float x => exact pyInt_repr x

end AdmissionScheduler
