import AdmissionScheduler.PyValue
import Mathlib.Algebra.Order.Group.Nat
import Mathlib.Algebra.Order.Ring.Nat
import Mathlib.Data.Nat.Log

/-!
# Rounding is monotone

`float(n)` keeps the order of the integers, and below `2 ^ 53` it keeps the
integers themselves.
-/

namespace AdmissionScheduler.Double

theorem roundHalfEven_mono {a b den : Nat} (h : a ≤ b) : roundHalfEven a den ≤ roundHalfEven b den := by
  have ha := Nat.div_add_mod a den
  have hb := Nat.div_add_mod b den
  have hq := Nat.div_le_div_right (c := den) h
  simp only [roundHalfEven]
  rcases Nat.lt_or_eq_of_le hq with hlt | heq
  · -- the quotients differ, so rounding up the one cannot pass the other
    split <;> split <;> (try split) <;> (try split) <;> omega
  · rw [heq] at ha ⊢
    have hr : a % den ≤ b % den := by omega
    split <;> split <;> (try split) <;> (try split) <;> omega

theorem roundHalfEven_mul (q : Nat) {den : Nat} (h : 0 < den) : roundHalfEven (q * den) den = q := by
  simp [roundHalfEven, h]

/-- The binary exponent that rounding drops. -/
def dropped (num : Nat) : Nat := Nat.log2 num + 1 - 53

theorem dropped_mono {a b : Nat} (h : a ≤ b) : dropped a ≤ dropped b := by
  have hlog : a.log2 ≤ b.log2 := by
    rw [Nat.log2_eq_log_two, Nat.log2_eq_log_two]
    exact Nat.log_mono_right h
  unfold dropped
  omega

/-- The units of the double nearest to `num / den` units, but for its size. -/
def nearest (num den : Nat) : Nat := roundHalfEven num (den * 2 ^ dropped (num / den)) * 2 ^ dropped (num / den)

theorem nearest_mono {a b den : Nat} (hden : 0 < den) (h : a ≤ b) : nearest a den ≤ nearest b den := by
  have hq : a / den ≤ b / den := Nat.div_le_div_right h
  rcases Nat.lt_or_ge (dropped (a / den)) (dropped (b / den)) with hlt | hge
  · -- a power of two that both results keep lies between them
    let L := (b / den).log2
    have hL : dropped (b / den) ≤ L := by unfold dropped L; omega
    have hb : b / den ≠ 0 := by
      intro h0
      rw [h0] at hlt
      simp [dropped] at hlt
    have hstep : (a / den).log2 + 1 ≤ L := by unfold dropped at hlt; omega
    have hlow : a / den < 2 ^ L := Nat.lt_log2_self.trans_le (Nat.pow_le_pow_right (by omega) hstep)
    have ha : a ≤ 2 ^ L * den := ((Nat.div_lt_iff_lt_mul hden).mp hlow).le
    have hb : 2 ^ L * den ≤ b := (Nat.le_div_iff_mul_le hden).mp (Nat.log2_self_le hb)
    have hkept : ∀ {k : Nat}, k ≤ L → roundHalfEven (2 ^ L * den) (den * 2 ^ k) * 2 ^ k = 2 ^ L := by
      intro k hk
      have hsplit : 2 ^ L = 2 ^ (L - k) * 2 ^ k := by rw [← Nat.pow_add, Nat.sub_add_cancel hk]
      have hscale : 2 ^ L * den = 2 ^ (L - k) * (den * 2 ^ k) := by
        rw [hsplit, Nat.mul_assoc, Nat.mul_comm (2 ^ k)]
      rw [hscale, roundHalfEven_mul _ (Nat.mul_pos hden (Nat.two_pow_pos k)), hsplit]
    calc nearest a den ≤ roundHalfEven (2 ^ L * den) (den * 2 ^ dropped (a / den)) * 2 ^ dropped (a / den) :=
          Nat.mul_le_mul_right _ (roundHalfEven_mono ha)
      _ = roundHalfEven (2 ^ L * den) (den * 2 ^ dropped (b / den)) * 2 ^ dropped (b / den) := by
          rw [hkept (hlt.le.trans hL), hkept hL]
      _ ≤ nearest b den := Nat.mul_le_mul_right _ (roundHalfEven_mono hb)
  · rw [nearest, nearest, Nat.le_antisymm (dropped_mono hq) hge]
    exact Nat.mul_le_mul_right _ (roundHalfEven_mono h)

def magnitude (num : Nat) : Nat := roundHalfEven num (2 ^ dropped num) * 2 ^ dropped num

theorem ofUnits_one (neg : Bool) (num : Nat) : ofUnits neg num 1 =
    if 2 ^ (1024 + 1074) ≤ magnitude num then .inf neg
    else .finite (if neg then -magnitude num else magnitude num) := by
  simp only [ofUnits, magnitude, dropped, Nat.div_one, Nat.one_mul]
  rfl

/-- A multiple of the unit that is kept is not changed. -/
theorem magnitude_of_dvd {num : Nat} (h : 2 ^ dropped num ∣ num) : magnitude num = num := by
  have hr := roundHalfEven_mul (num / 2 ^ dropped num) (Nat.two_pow_pos (dropped num))
  rw [Nat.div_mul_cancel h] at hr
  rw [magnitude, hr, Nat.div_mul_cancel h]

theorem magnitude_mono {a b : Nat} (h : a ≤ b) : magnitude a ≤ magnitude b := by
  have heq : ∀ n, magnitude n = nearest n 1 := by
    intro n
    rw [nearest, magnitude, Nat.div_one, Nat.one_mul]
  rw [heq, heq]
  exact nearest_mono Nat.one_pos h

theorem lt_iff_key {x y : Double} : x < y ↔ x.key < y.key := Iff.rfl

theorem le_iff_key {x y : Double} : x ≤ y ↔ x.key ≤ y.key := Iff.rfl

theorem finite_le_finite {u v : Int} : Double.finite u ≤ .finite v ↔ u ≤ v := by
  rw [le_iff_key]; simp [key, Prod.Lex.toLex_le_toLex]

theorem finite_lt_finite {u v : Int} : Double.finite u < .finite v ↔ u < v := by
  rw [lt_iff_key]; simp [key, Prod.Lex.toLex_lt_toLex]

theorem ofUnits_eq (neg : Bool) (num den : Nat) : ofUnits neg num den =
    if 2 ^ (1024 + 1074) ≤ nearest num den then .inf neg
    else .finite (if neg then -nearest num den else nearest num den) := by
  simp only [ofUnits, nearest, dropped]
  rfl

theorem ofUnits_cases (neg : Bool) (num den : Nat) : ofUnits neg num den = .inf neg ∨
    ofUnits neg num den = .finite (if neg then -nearest num den else nearest num den) := by
  rw [ofUnits_eq]
  split
  · exact .inl rfl
  · exact .inr rfl

/-- The double nearest to a signed fraction keeps the order. -/
theorem ofUnits_mono {a b x y : Int} {den : Nat} (hden : 0 < den) (h : a ≤ b)
    (ha : ofUnits (a < 0) a.natAbs den = .finite x) (hb : ofUnits (b < 0) b.natAbs den = .finite y) : x ≤ y := by
  have finite_eq : ∀ {n z : Int}, ofUnits (n < 0) n.natAbs den = .finite z →
      z = if n < 0 then -(nearest n.natAbs den : Int) else nearest n.natAbs den := by
    intro n z hz
    rcases ofUnits_cases (n < 0) n.natAbs den with h | h <;> rw [hz] at h <;> cases h
    simp only [decide_eq_true_eq]
  have mono : ∀ {k l : Nat}, k ≤ l → (nearest k den : Int) ≤ nearest l den := fun hk =>
    Int.ofNat_le.mpr (nearest_mono hden hk)
  rw [finite_eq ha, finite_eq hb]
  split <;> split
  · exact Int.neg_le_neg (mono (by omega))
  · omega
  · omega
  · exact mono (by omega)

theorem ofInt_mono {a b x y : Int} (h : a ≤ b) (ha : ofInt a = .finite x) (hb : ofInt b = .finite y) : x ≤ y := by
  have scaled : ∀ n : Int, ofInt n = ofUnits (n * 2 ^ 1074 < 0) (n * 2 ^ 1074).natAbs 1 := by
    intro n
    generalize he : 1074 = e
    have hpos : (0 : Int) < 2 ^ e := Int.pow_pos (by decide)
    have hsign : decide (n * 2 ^ e < 0) = decide (n < 0) := decide_eq_decide.mpr (by
      constructor
      · intro hn
        by_contra hc
        exact absurd (Int.mul_nonneg (Int.not_lt.mp hc) hpos.le) (Int.not_le.mpr hn)
      · intro hn
        exact Int.mul_neg_of_neg_of_pos hn hpos)
    rw [ofInt, he, hsign, Int.natAbs_mul, Int.natAbs_pow]
    rfl
  rw [scaled] at ha hb
  exact ofUnits_mono Nat.one_pos (Int.mul_le_mul_of_nonneg_right h (Int.pow_nonneg (by decide))) ha hb

theorem magnitude_mul_pow {k : Nat} (e : Nat) (h : k < 2 ^ 53) : magnitude (k * 2 ^ e) = k * 2 ^ e := by
  refine magnitude_of_dvd ((Nat.pow_dvd_pow 2 ?_).trans (Nat.dvd_mul_left ..))
  rcases Nat.eq_zero_or_pos k with rfl | hk
  · simp [dropped]
  have hlt : k * 2 ^ e < 2 ^ (53 + e) := by
    rw [Nat.pow_add]; exact Nat.mul_lt_mul_of_pos_right h (Nat.two_pow_pos _)
  have := (Nat.log2_lt (Nat.mul_pos hk (Nat.two_pow_pos e)).ne').mpr hlt
  unfold dropped; omega

/-- Below `2 ^ 53` nothing is rounded. -/
theorem ofInt_exact {n : Int} (h : n.natAbs < 2 ^ 53) : ofInt n = .finite (n * 2 ^ 1074) := by
  rw [ofInt, ofUnits_one]
  generalize 1074 = e
  have small : ∀ {m : Nat}, 53 ≤ m → ¬2 ^ (m + e) ≤ n.natAbs * 2 ^ e := fun hm => by
    rw [Nat.pow_add, Nat.not_le]
    exact Nat.mul_lt_mul_of_pos_right (h.trans_le (Nat.pow_le_pow_right (by omega) hm)) (Nat.two_pow_pos e)
  rw [magnitude_mul_pow e h, if_neg (small (by omega))]
  have sign : (if decide (n < 0) = true then -(n.natAbs : Int) else n.natAbs) = n := by
    simp only [decide_eq_true_eq]; split <;> omega
  congr 1
  rw [Int.natCast_mul, Int.natCast_pow]
  conv => rhs; rw [← sign]
  split
  · exact (Int.neg_mul ..).symm
  · rfl

/-- From `2 ^ 1024` on every integer is rounded to infinity. -/
theorem lt_of_ofInt {n u : Int} (h : ofInt n = .finite u) : n.natAbs < 2 ^ 1024 := by
  by_contra hn
  rw [ofInt, ofUnits_one] at h
  generalize 1074 = e at h
  generalize 1024 = k at h hn
  have pow : magnitude (2 ^ (k + e)) = 2 ^ (k + e) := by
    rw [← Nat.one_mul (2 ^ (k + e))]
    exact magnitude_mul_pow (k + e) (by decide)
  have large : 2 ^ (k + e) ≤ n.natAbs * 2 ^ e := by
    rw [Nat.pow_add]
    exact Nat.mul_le_mul_right _ (Nat.not_lt.mp hn)
  rw [if_pos (pow.symm.le.trans (magnitude_mono large))] at h
  cases h

/-- Below `2 ^ 53` different sums are different doubles. -/
theorem ofInt_injective {m n : Int} (hm : m.natAbs < 2 ^ 53) (hn : n.natAbs < 2 ^ 53)
    (h : ofInt m = ofInt n) : m = n := by
  have cancel : ∀ e : Nat, m * 2 ^ e = n * 2 ^ e → m = n := fun e he =>
    Int.eq_of_mul_eq_mul_right (Int.pow_pos (by decide)).ne' he
  have units := (ofInt_exact hm).symm.trans (h.trans (ofInt_exact hn))
  refine cancel 1074 ?_
  injection units

end AdmissionScheduler.Double
