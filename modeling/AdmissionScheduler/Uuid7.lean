import AdmissionScheduler.FixedWidth
import Mathlib.Data.Nat.Basic

/-!
# Job ids

`core/uuid7.py`: 48 bits of milliseconds, the version, the variant and 74 random
bits, written as a UUID. The fields are packed one below the other, the clock on
top, and the text has a fixed number of digits: ids of different milliseconds are
ordered like the milliseconds.
-/

namespace AdmissionScheduler.Uuid7

open FixedWidth

def randA (randBytes : Nat) : Nat := (randBytes >>> 62) &&& 0xFFF

def randB (randBytes : Nat) : Nat := randBytes &&& 0x3FFFFFFFFFFFFFFF

def value (ms randBytes : Nat) : Nat :=
  (ms <<< 80) ||| (0x7 <<< 76) ||| (randA randBytes <<< 64) ||| (0b10 <<< 62) ||| randB randBytes

def hex32 (n : Nat) : List Char := (Nat.toDigits 16 n).leftpad 32 '0'

def uuidStr (hex : List Char) : String :=
  String.ofList (hex.take 8 ++ '-' :: ((hex.drop 8).take 4 ++ '-' :: ((hex.drop 12).take 4 ++ '-' ::
    ((hex.drop 16).take 4 ++ '-' :: hex.drop 20))))

/-- `str(uuid.UUID(int=n))`; `none` is the `ValueError` for more than 128 bits. -/
def uuidOfInt (n : Nat) : Option String := if n < 2 ^ 128 then some (uuidStr (hex32 n)) else none

/-- `uuid7()`, given `int(time.time() * 1000)` and the ten random bytes as one number. -/
def uuid7 (clock randBytes : Nat) : Option String := uuidOfInt (value (clock &&& 0xFFFFFFFFFFFF) randBytes)

/-! ## The fields -/

section
variable {ms ms' randBytes randBytes' n n' : Nat}

theorem randA_lt : randA randBytes < 2 ^ 12 :=
  Nat.lt_of_le_of_lt Nat.and_le_right (by decide)

theorem randB_lt : randB randBytes < 2 ^ 62 :=
  Nat.lt_of_le_of_lt Nat.and_le_right (by decide)

/-- The fields, each below the one before. -/
theorem value_eq :
    value ms randBytes = pack (pack (pack (pack ms 4 7) 12 (randA randBytes)) 2 2) 62 (randB randBytes) := by
  rw [pack, pack_shiftLeft, pack_shiftLeft, pack_shiftLeft]
  rfl

theorem value_lt (hms : ms < 2 ^ 48) : value ms randBytes < 2 ^ 128 := by
  rw [value_eq]
  exact pack_lt (k := 66) (pack_lt (k := 64) (pack_lt (k := 52) (pack_lt (k := 48) hms (by decide)) randA_lt)
    (by decide)) randB_lt

theorem value_lt_value (hlt : ms < ms') : value ms randBytes < value ms' randBytes' := by
  rw [value_eq, value_eq]
  exact pack_lt_pack (pack_lt_pack (pack_lt_pack (pack_lt_pack hlt (by decide) (by decide)) randA_lt randA_lt)
    (by decide) (by decide)) randB_lt randB_lt

/-- What each field of an id holds. -/
structure Layout (ms a b value : Nat) : Prop where
  clock : value >>> 80 = ms
  version : value >>> 76 &&& 0xF = 7
  upper : value >>> 64 &&& 0xFFF = a
  variant : value >>> 62 &&& 0b11 = 0b10
  lower : value &&& 0x3FFFFFFFFFFFFFFF = b
  /-- No field runs into another. -/
  disjoint : value = ms * 2 ^ 80 + 7 * 2 ^ 76 + a * 2 ^ 64 + 2 * 2 ^ 62 + b

theorem layout : Layout ms (randA randBytes) (randB randBytes) (value ms randBytes) := by
  have hA : randA randBytes < 2 ^ 12 := randA_lt
  have hB : randB randBytes < 2 ^ 62 := randB_lt
  have h7 : 7 < 2 ^ 4 := by decide
  have h2 : 2 < 2 ^ 2 := by decide
  have h62 : value ms randBytes >>> 62 = pack (pack (pack ms 4 7) 12 (randA randBytes)) 2 2 := by
    rw [value_eq, pack_high hB]
  have h64 : value ms randBytes >>> 64 = pack (pack ms 4 7) 12 (randA randBytes) := by
    rw [Nat.shiftRight_add _ 62 2, h62, pack_high h2]
  have h76 : value ms randBytes >>> 76 = pack ms 4 7 := by
    rw [Nat.shiftRight_add _ 64 12, h64, pack_high hA]
  constructor
  · rw [Nat.shiftRight_add _ 76 4, h76, pack_high h7]
  · rw [h76]
    exact pack_low h7
  · rw [h64]
    exact pack_low hA
  · rw [h62]
    exact pack_low h2
  · rw [value_eq]
    exact pack_low hB
  · rw [value_eq, pack_eq hB, pack_eq h2, pack_eq hA, pack_eq h7]
    omega

/-! ## The text -/

theorem hex32_eq (hn : n < 2 ^ 128) : hex32 n = numeral Nat.digitChar 16 32 n :=
  leftpad_toDigits (w := 31) (by decide) (by simpa using hn)

theorem uuidStr_eq (hex : List Char) : uuidStr hex = String.ofList (punctuate '-' [8, 4, 4, 4] hex) := by
  simp only [uuidStr, punctuate, List.drop_drop]

theorem digitChar_lt (i j : Nat) (hij : i < j) (hj : j < 16) : Nat.digitChar i < Nat.digitChar j := by
  have h : ∀ j < 16, ∀ i < j, Nat.digitChar i < Nat.digitChar j := by decide
  exact h j hj i hij

theorem uuidStr_lt (hn : n < 2 ^ 128) (hn' : n' < 2 ^ 128) (hlt : n < n') :
    uuidStr (hex32 n) < uuidStr (hex32 n') := by
  rw [uuidStr_eq, uuidStr_eq, String.lt_iff, String.toList_ofList, String.toList_ofList, hex32_eq hn, hex32_eq hn']
  exact punctuate_lt (by rw [length_numeral, length_numeral]) (numeral_lt digitChar_lt hlt (by simpa using hn'))

end

/-- Lowercase digits in groups of eight, four, four, four and twelve. -/
def Canonical (s : String) : Prop :=
  ∃ hex : List Char, s = uuidStr hex ∧ hex.length = 32 ∧ ∀ c ∈ hex, c ∈ "0123456789abcdef".toList

theorem canonical {n : Nat} (hn : n < 2 ^ 128) : Canonical (uuidStr (hex32 n)) := by
  have hdigit : ∀ i < 16, Nat.digitChar i ∈ "0123456789abcdef".toList := by decide
  refine ⟨hex32 n, rfl, by rw [hex32_eq hn, length_numeral], ?_⟩
  intro c hc
  rw [hex32_eq hn] at hc
  obtain ⟨i, hi, rfl⟩ := mem_numeral (by simpa using hn) hc
  exact hdigit i hi

theorem uuid7_eq {ms randBytes : Nat} (hms : ms < 2 ^ 48) :
    uuid7 ms randBytes = some (uuidStr (hex32 (value ms randBytes))) := by
  have hmask : ms &&& 0xFFFFFFFFFFFF = ms := by
    have h := Nat.and_two_pow_sub_one_eq_mod ms 48
    rwa [Nat.mod_eq_of_lt hms] at h
  rw [uuid7, hmask, uuidOfInt, if_pos (value_lt hms)]

/-- An id holds its fields unchanged, and ids of different milliseconds are ordered like these. -/
theorem uuid7_sorted :
    (∀ ms randBytes, ms < 2 ^ 48 → value ms randBytes < 2 ^ 128 ∧
      Layout ms (randA randBytes) (randB randBytes) (value ms randBytes)) ∧
    ∀ ms₁ ms₂ r₁ r₂, ms₁ < ms₂ → ms₂ < 2 ^ 48 → ∃ s₁ s₂, uuid7 ms₁ r₁ = some s₁ ∧ uuid7 ms₂ r₂ = some s₂ ∧
      Canonical s₁ ∧ Canonical s₂ ∧ s₁ < s₂ := by
  refine ⟨fun ms randBytes hms => ⟨value_lt hms, layout⟩, ?_⟩
  intro ms₁ ms₂ r₁ r₂ hlt h₂
  have h₁ : ms₁ < 2 ^ 48 := Nat.lt_trans hlt h₂
  exact ⟨_, _, uuid7_eq h₁, uuid7_eq h₂, canonical (value_lt h₁), canonical (value_lt h₂),
    uuidStr_lt (value_lt h₁) (value_lt h₂) (value_lt_value hlt)⟩

theorem uuid7_sorted_instance : ∃ s₁ s₂, uuid7 1753000000000 (2 ^ 80 - 1) = some s₁ ∧ uuid7 1753000000001 0 = some s₂ ∧
    Canonical s₁ ∧ Canonical s₂ ∧ s₁ < s₂ :=
  uuid7_sorted.2 _ _ _ _ (by decide) (by decide)

end AdmissionScheduler.Uuid7
