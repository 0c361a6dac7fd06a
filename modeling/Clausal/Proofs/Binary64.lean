import Clausal.Binary64.Text
import Clausal.Proofs.Numeral

/-!
# Floating-point numbers and their decimals

The shortest decimal of a finite magnitude rounds back to it: a decimal that the
search finds was tested for that, and the exact value in its place needs no rounding.
-/

namespace Clausal

namespace Binary64

theorem nearest_le (n d : Nat) : nearest n d ≤ infinity := Nat.min_le_left _ _

theorem isNaN_ofDecimal (negative : Bool) (n places : Nat) :
    (ofDecimal negative n places).isNaN = false := by
  have hle := nearest_le n (10 ^ places)
  have hlt : nearest n (10 ^ places) < 2 ^ 63 := Nat.lt_of_le_of_lt hle (by decide)
  simp only [ofDecimal, ofMagnitude, isNaN, Fin.val_ofNat, Nat.mod_eq_of_lt hlt,
    decide_eq_false_iff_not]
  omega

/-! ## Exact values -/

theorem roundHalfEven_mul (q : Nat) {d : Nat} (hd : 0 < d) : roundHalfEven (q * d) d = q := by
  have hmod : q * d % d = 0 := Nat.mul_mod_left q d
  have hdiv : q * d / d = q := Nat.mul_div_cancel q hd
  unfold roundHalfEven
  rw [hmod, hdiv, if_neg]
  omega

theorem log2_of_bounds {n k : Nat} (h : 2 ^ k ≤ n) (h' : n < 2 ^ (k + 1)) : Nat.log2 n = k := by
  have hpos : n ≠ 0 := Nat.ne_of_gt (Nat.lt_of_lt_of_le (Nat.two_pow_pos k) h)
  exact (Nat.log2_eq_iff hpos).mpr ⟨h, h'⟩

/-- A value in units is 53 bits, shifted by the exponent above the lowest one. -/
theorem round_units (m : Nat) {d : Nat} (hd : 0 < d) :
    (Nat.log2 (units m) - 52) * 2 ^ 52 +
      roundHalfEven (units m * d) (d * 2 ^ (Nat.log2 (units m) - 52)) = m := by
  unfold units
  by_cases hs : m < 2 ^ 52
  · -- below the first exponent the magnitude is the value
    have hshift : Nat.log2 m - 52 = 0 := by
      by_cases h0 : m = 0
      · rw [h0]; rfl
      · have := (Nat.log2_lt h0).mpr hs
        omega
    rw [if_pos hs, hshift, Nat.pow_zero, Nat.mul_one, roundHalfEven_mul m hd, Nat.zero_mul,
      Nat.zero_add]
  · have hmod : m % 2 ^ 52 < 2 ^ 52 := Nat.mod_lt m (by decide)
    have hsplit := Nat.div_add_mod m (2 ^ 52)
    have hexp : 1 ≤ m / 2 ^ 52 := by omega
    obtain ⟨e, he⟩ : ∃ e, m / 2 ^ 52 = e + 1 := ⟨m / 2 ^ 52 - 1, by omega⟩
    have hlog : Nat.log2 ((2 ^ 52 + m % 2 ^ 52) * 2 ^ e) = 52 + e := by
      have hpow : 2 ^ (52 + e + 1) = 2 ^ 53 * 2 ^ e := by rw [← Nat.pow_add]; congr 1; omega
      apply log2_of_bounds
      · rw [Nat.pow_add]; exact Nat.mul_le_mul_right _ (by omega)
      · rw [hpow]; exact Nat.mul_lt_mul_of_pos_right (by omega) (Nat.two_pow_pos e)
    rw [if_neg hs, he, Nat.add_sub_cancel, hlog, Nat.add_sub_cancel_left, Nat.mul_assoc,
      Nat.mul_comm (2 ^ e) d, roundHalfEven_mul _ (Nat.mul_pos hd (Nat.two_pow_pos e))]
    omega

theorem nearest_of_units {m n d : Nat} (hm : m < infinity) (hd : 0 < d)
    (h : n * 2 ^ 1074 = units m * d) :
    nearest n d = m := by
  have hdiv : n * 2 ^ 1074 / d = units m := by rw [h, Nat.mul_div_cancel _ hd]
  unfold nearest
  simp only [hdiv]
  rw [h, round_units m hd, Nat.min_eq_right (Nat.le_of_lt hm)]

theorem nearest_exactDecimal {m : Nat} (hm : m < infinity) :
    (exactDecimal (units m)).nearest = m := by
  have hten (k : Nat) : units m * 5 ^ k * 2 ^ k = units m * 10 ^ k := by
    rw [Nat.mul_assoc, ← Nat.mul_pow]
  have hplaces : (exactDecimal (units m)).places = 1074 := rfl
  have hspread : (exactDecimal (units m)).spread = units m * 5 ^ 1074 := by
    have hdigits : (exactDecimal (units m)).digits = units m * 5 ^ 1074 := rfl
    have hexponent : (exactDecimal (units m)).exponent = -1074 := rfl
    have hcancel : (-1074 + ((1074 : Nat) : Int)).toNat = 0 := rfl
    unfold Decimal.spread
    rw [hplaces, hexponent, hcancel, hdigits, Nat.pow_zero, Nat.mul_one]
  have hpos (k : Nat) : 0 < 10 ^ k := Nat.pow_pos (by decide)
  unfold Decimal.nearest
  rw [hspread, hplaces]
  exact nearest_of_units hm (hpos 1074) (hten 1074)

theorem nearest_shortest {m : Nat} (hm : m < infinity) : (shortest m).nearest = m := by
  unfold shortest
  by_cases h0 : m = 0
  · rw [if_pos h0, h0]
    apply nearest_of_units (by decide) (Nat.pow_pos (by decide))
    simp only [Decimal.spread, units, Nat.zero_mul, Nat.two_pow_pos, ite_true]
  · rw [if_neg h0]
    simp only
    cases hf : List.find? (fun d => d.nearest == m)
      ((List.range' 1 17).flatMap (neighbours (units m))) with
    | none => exact nearest_exactDecimal hm
    | some d => simpa using List.find?_some hf

/-! ## Text -/

theorem places_pos (d : Decimal) : 0 < d.places := by
  unfold Decimal.places
  omega

/-- A finite number is a numeral with a point, which is read back as that number. -/
theorem chars_eq {x : Binary64} (hx : x.isFinite = true) :
    ∃ whole ds, x.chars = Numeral.sign x.negative ++ whole ++ '.' :: ds ∧ IsDigits whole ∧
    IsDigits ds ∧
      ofDecimal x.negative (Numeral.value (whole ++ ds)) ds.length = x := by
  have hm : x.magnitude.val < infinity := by simpa [isFinite] using hx
  have hnan : x.isNaN = false := by simp only [isNaN, decide_eq_false_iff_not]; omega
  obtain ⟨whole, ds, he, hw, hd, hv, hl⟩ :=
    Numeral.withPoint_eq (shortest x.magnitude).spread (places_pos (shortest x.magnitude))
  refine ⟨whole, ds, ?_, hw, hd, ?_⟩
  · have hp : (shortest x.magnitude).positional = whole ++ '.' :: ds := he
    unfold chars written
    rw [hnan, hx, hp]
    cases x.negative <;> rfl
  · have hn := nearest_shortest hm
    unfold Decimal.nearest at hn
    rw [hv, hl]
    unfold ofDecimal ofMagnitude
    rw [hn, Fin.ofNat_val_eq_self]

theorem meaning?_chars {x : Binary64} (hx : x.isFinite = true) :
    Lexeme.meaning? x.chars = some (.const (.float x)) := by
  obtain ⟨whole, ds, he, hw, hd, hv⟩ := chars_eq hx
  rw [he, meaning?_decimal (Numeral.isSign_sign _) hw hd, Numeral.isEmpty_sign, Bool.not_not, hv]

end Binary64

end Clausal
