import Mathlib.Algebra.Group.Nat.Defs
import Mathlib.Data.List.Lex
import Mathlib.Tactic.Common

/-!
# Fields and numerals of fixed width

Numbers put together from bit fields, each below the width it is given, and
numbers written with a fixed count of digits, in groups. Both are read back field
by field, and both are ordered like what comes first in them.
-/

namespace AdmissionScheduler.FixedWidth

/-! ## Fields -/

/-- `y` in the `i` bits below `x`. -/
def pack (x i y : Nat) : Nat := x <<< i ||| y

section
variable {x x' y y' i j k : Nat}

theorem pack_eq (hy : y < 2 ^ i) : pack x i y = x * 2 ^ i + y := by
  rw [pack, ← Nat.shiftLeft_add_eq_or_of_lt hy, Nat.shiftLeft_eq]

theorem pack_shiftLeft : pack x i y <<< j = x <<< (i + j) ||| y <<< j := by
  rw [pack, Nat.shiftLeft_or_distrib, Nat.shiftLeft_add]

theorem pack_high (hy : y < 2 ^ i) : pack x i y >>> i = x := by
  rw [pack_eq hy, Nat.shiftRight_eq_div_pow, Nat.mul_comm, Nat.mul_add_div (Nat.two_pow_pos i),
    Nat.div_eq_of_lt hy, Nat.add_zero]

theorem pack_low (hy : y < 2 ^ i) : pack x i y &&& (2 ^ i - 1) = y := by
  rw [Nat.and_two_pow_sub_one_eq_mod, pack_eq hy, Nat.mul_comm, Nat.mul_add_mod, Nat.mod_eq_of_lt hy]

theorem pack_lt_pack (hx : x < x') (hy : y < 2 ^ i) (hy' : y' < 2 ^ i) : pack x i y < pack x' i y' := by
  rw [pack_eq hy, pack_eq hy']
  calc x * 2 ^ i + y < x * 2 ^ i + 2 ^ i := Nat.add_lt_add_left hy _
    _ = (x + 1) * 2 ^ i := (Nat.succ_mul ..).symm
    _ ≤ x' * 2 ^ i := Nat.mul_le_mul_right _ hx
    _ ≤ x' * 2 ^ i + y' := Nat.le_add_right ..

theorem pack_lt (hx : x < 2 ^ k) (hy : y < 2 ^ i) : pack x i y < 2 ^ (k + i) := by
  have h := pack_lt_pack (i := i) hx hy (Nat.two_pow_pos i)
  rwa [pack_eq (Nat.two_pow_pos i), Nat.add_zero, ← Nat.pow_add] at h

end

/-! ## Numerals -/

section
variable {γ : Type*} (d : Nat → γ) (b : Nat)

/-- The last `w` digits of a number to the base `b`, the highest first. -/
def numeral : Nat → Nat → List γ
  | 0, _ => []
  | w + 1, n => d (n / b ^ w) :: numeral w (n % b ^ w)

variable {d b} {w m n : Nat}

@[simp] theorem length_numeral : (numeral d b w n).length = w := by
  induction w generalizing n with
  | zero => rfl
  | succ w ih => rw [numeral, List.length_cons, ih]

theorem numeral_lt [LT γ] (hd : ∀ i j, i < j → j < b → d i < d j) (hlt : m < n) (hn : n < b ^ w) :
    numeral d b w m < numeral d b w n := by
  induction w generalizing m n with
  | zero =>
    rw [Nat.pow_zero] at hn
    omega
  | succ w ih =>
    have hb : 0 < b ^ w := Nat.pos_of_lt_mul_right (by rwa [Nat.pow_succ] at hn)
    rw [numeral, numeral, List.cons_lt_cons_iff]
    rcases Nat.lt_or_ge (m / b ^ w) (n / b ^ w) with h | h
    · exact .inl (hd _ _ h (Nat.div_lt_of_lt_mul (by rwa [Nat.pow_succ] at hn)))
    · have heq : m / b ^ w = n / b ^ w := Nat.le_antisymm (Nat.div_le_div_right (Nat.le_of_lt hlt)) h
      have hmod : m % b ^ w < n % b ^ w := by
        have hm := Nat.div_add_mod m (b ^ w)
        have hn := Nat.div_add_mod n (b ^ w)
        rw [heq] at hm
        omega
      exact .inr ⟨by rw [heq], ih hmod (Nat.mod_lt _ hb)⟩

theorem mem_numeral {x : γ} (hn : n < b ^ w) (hx : x ∈ numeral d b w n) : ∃ i < b, x = d i := by
  induction w generalizing n with
  | zero => cases hx
  | succ w ih =>
    rw [Nat.pow_succ] at hn
    rcases List.mem_cons.mp hx with rfl | hx
    · exact ⟨_, Nat.div_lt_of_lt_mul hn, rfl⟩
    · exact ih (Nat.mod_lt _ (Nat.pos_of_lt_mul_right hn)) hx

theorem numeral_zero : numeral d b w 0 = List.replicate w (d 0) := by
  induction w with
  | zero => rfl
  | succ w ih => rw [numeral, Nat.zero_div, Nat.zero_mod, ih, List.replicate_succ]

theorem numeral_snoc (hn : n < b ^ (w + 1)) : numeral d b (w + 1) n = numeral d b w (n / b) ++ [d (n % b)] := by
  induction w generalizing n with
  | zero =>
    rw [Nat.zero_add, Nat.pow_one] at hn
    simp [numeral, Nat.mod_eq_of_lt hn]
  | succ w ih =>
    have hb : 0 < b ^ (w + 1) := Nat.pos_of_lt_mul_right (by rwa [Nat.pow_succ] at hn)
    have hdiv : n % b ^ (w + 1) / b = n / b % b ^ w := by
      rw [Nat.pow_succ, Nat.mul_comm, Nat.mod_mul_right_div_self]
    have hmod : n % b ^ (w + 1) % b = n % b := Nat.mod_mod_of_dvd n ⟨b ^ w, by rw [Nat.pow_succ, Nat.mul_comm]⟩
    rw [numeral, ih (Nat.mod_lt _ hb), hdiv, hmod, numeral, List.cons_append, Nat.div_div_eq_div_mul, Nat.pow_succ,
      Nat.mul_comm b]

end

theorem leftpad_toDigits {b w n : Nat} (hb : 1 < b) (hn : n < b ^ (w + 1)) :
    (Nat.toDigits b n).leftpad (w + 1) '0' = numeral Nat.digitChar b (w + 1) n := by
  induction w generalizing n with
  | zero =>
    rw [Nat.zero_add, Nat.pow_one] at hn
    rw [Nat.toDigits_of_lt_base hn]
    simp [List.leftpad, numeral]
  | succ w ih =>
    rw [numeral_snoc hn]
    by_cases h : n < b
    · rw [Nat.toDigits_of_lt_base h, Nat.div_eq_of_lt h, Nat.mod_eq_of_lt h, numeral_zero]
      rfl
    · have hq : n / b < b ^ (w + 1) := Nat.div_lt_of_lt_mul (by rwa [Nat.mul_comm, ← Nat.pow_succ])
      rw [← ih hq, Nat.toDigits_of_base_le hb (Nat.le_of_not_lt h)]
      simp [List.leftpad]

/-! ## Groups -/

section
variable {γ : Type*} (sep : γ)

/-- `s` in groups of the given lengths and a rest, with separators between. -/
def punctuate : List Nat → List γ → List γ
  | [], s => s
  | w :: ws, s => s.take w ++ sep :: punctuate ws (s.drop w)

variable {sep} {a b s t : List γ}

theorem append_lt_append_iff [LT γ] (h : a.length = b.length) : a ++ s < b ++ t ↔ a < b ∨ a = b ∧ s < t := by
  induction a generalizing b with
  | nil =>
    obtain rfl : b = [] := List.eq_nil_of_length_eq_zero h.symm
    simp
  | cons x a ih =>
    cases b with
    | nil => cases h
    | cons y b =>
      rw [List.cons_append, List.cons_append, List.cons_lt_cons_iff, List.cons_lt_cons_iff,
        ih (Nat.succ.inj h), List.cons.injEq]
      tauto

theorem punctuate_lt [LT γ] {ws : List Nat} (h : s.length = t.length) (hlt : s < t) :
    punctuate sep ws s < punctuate sep ws t := by
  induction ws generalizing s t with
  | nil => exact hlt
  | cons w ws ih =>
    have htake : (s.take w).length = (t.take w).length := by rw [List.length_take, List.length_take, h]
    rw [← List.take_append_drop w s, ← List.take_append_drop w t, append_lt_append_iff htake] at hlt
    rw [punctuate, punctuate, append_lt_append_iff htake]
    refine hlt.imp_right fun ⟨heq, hrest⟩ => ⟨heq, List.cons_lt_cons_iff.mpr (.inr ⟨rfl, ih ?_ hrest⟩)⟩
    rw [List.length_drop, List.length_drop, h]

end

end AdmissionScheduler.FixedWidth
