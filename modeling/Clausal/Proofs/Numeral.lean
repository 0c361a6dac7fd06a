import Clausal.Proofs.Lexeme

/-!
# Numerals and their values

The digits that a number is written with have that number as their value, with
a sign, with zeros in front and around a point.
-/

namespace Clausal

namespace Numeral

theorem isDigits_ofNat (n : Nat) : IsDigits (ofNat n) :=
  ⟨Nat.toDigits_ne_nil, fun _ hc => Nat.isDigit_of_mem_toDigits (by decide) (by decide) hc⟩

theorem value_ofNat (n : Nat) : value (ofNat n) = n := Nat.ofDigitChars_ten_toDigits

theorem value_append (ds es : List Char) :
    value (ds ++ es) = 10 ^ es.length * value ds + value es := by
  unfold value
  rw [Nat.ofDigitChars_append, Nat.ofDigitChars_eq_ofDigitChars_zero]

section
variable {width n : Nat} (hw : 0 < width) (hn : n < 10 ^ width)

include hw hn in
theorem length_padded : (padded width n).length = width := by
  have hle : (ofNat n).length ≤ width := (Nat.length_toDigits_le_iff (by decide) hw).mpr hn
  simp only [padded, List.length_append, List.length_replicate]
  omega

theorem value_padded : value (padded width n) = n := by
  unfold padded
  rw [value_append, value_ofNat]
  simp [value]

theorem isDigits_padded : IsDigits (padded width n) := by
  have ⟨hne, hd⟩ := isDigits_ofNat n
  refine ⟨by simp [padded, hne], fun c hc => ?_⟩
  rcases List.mem_append.mp hc with hc | hc
  · rw [(List.mem_replicate.mp hc).2]; rfl
  · exact hd c hc

end

/-- The digits before and behind the point are together those of the whole number. -/
theorem withPoint_eq (n : Nat) {places : Nat} (hp : 0 < places) :
    ∃ whole ds, withPoint n places = whole ++ '.' :: ds ∧ IsDigits whole ∧ IsDigits ds ∧
      value (whole ++ ds) = n ∧ ds.length = places := by
  have hlt : n % 10 ^ places < 10 ^ places := Nat.mod_lt n (Nat.pow_pos (by decide))
  have hlen := length_padded hp hlt
  refine ⟨_, _, rfl, isDigits_ofNat _, isDigits_padded, ?_, hlen⟩
  rw [value_append, value_ofNat, value_padded, hlen]
  exact Nat.div_add_mod n (10 ^ places)

/-! ## Signs -/

/-- The sign of the negative numbers. -/
def sign (negative : Bool) : List Char := if negative then ['-'] else []

theorem isSign_sign (negative : Bool) : IsSign (sign negative) := by
  cases negative
  · exact .inl rfl
  · exact .inr rfl

theorem isEmpty_sign (negative : Bool) : (sign negative).isEmpty = !negative := by
  cases negative <;> rfl

theorem ofInt_eq (n : Int) : ofInt n = sign (decide (n < 0)) ++ ofNat n.natAbs := by
  unfold ofInt sign
  by_cases h : n < 0
  · simp [h]
  · simp [h]

theorem signed_ofNat (n : Int) : signed (decide (n < 0)) (ofNat n.natAbs) = n := by
  unfold signed
  rw [value_ofNat]
  by_cases h : n < 0
  · simp only [h, decide_true, ite_true]; omega
  · simp only [h, decide_false, Bool.false_eq_true, ite_false]; omega

theorem int64?_toInt (n : Int64) : int64? n.toInt = some n := by
  unfold int64?
  rw [if_pos ⟨n.le_toInt, n.toInt_lt⟩, Int64.ofInt_toInt]

end Numeral

namespace Lexeme

theorem meaning?_ofInt (n : Int64) : meaning? (Numeral.ofInt n.toInt) = some (.const (.int n)) := by
  rw [Numeral.ofInt_eq, meaning?_whole (Numeral.isSign_sign _) (Numeral.isDigits_ofNat _),
    Numeral.isEmpty_sign, Bool.not_not, Numeral.signed_ofNat, Numeral.int64?_toInt]
  rfl

end Lexeme

end Clausal
