import Clausal.Proofs.Numeral
import Clausal.Proofs.Trim
import Clausal.Signature

/-!
# Signatures as text

The text of a signature is cut at its last slash into the name and the digits of
the arity, and neither of them loses a character when it is trimmed. Arities are
read as numbers of 64 bits and a sign, so one of `2 ^ 63` or more is not read back.
-/

namespace Clausal

open Text

/-! ## Arities -/

theorem IsDigits.no_slash {ds : List Char} (h : IsDigits ds) : '/' ∉ ds := by
  intro hs
  cases h.2 '/' hs

theorem IsDigits.no_blank {ds : List Char} (h : IsDigits ds) : ∀ c ∈ ds, isBlank c = false := by
  intro c hc
  apply isBlank_of_isNameChar
  simp [Lexeme.isNameChar, isAlphanum_iff.mpr (.inr (h.2 c hc))]

namespace Signature

theorem arity?_of_digits {ds : List Char} (h : IsDigits ds) :
    arity? ds = Numeral.int64? (Numeral.value ds) := by
  have hall : ds.all Char.isDigit = true := List.all_eq_true.mpr h.2
  have hne (c : Char) (hc : c.isDigit = false) (cs : List Char) : ds ≠ c :: cs := by
    intro he
    have := h.2 c (by simp [he])
    rw [hc] at this
    cases this
  unfold arity?
  split
  rename_i negative digits he
  split at he
  · exact absurd rfl (hne '-' rfl _)
  · exact absurd rfl (hne '+' rfl _)
  · cases he
    rw [if_pos ⟨h.1, hall⟩]
    rfl

theorem arity?_ofNat (n : Nat) :
    arity? (Numeral.ofNat n) = if n < 2 ^ 63 then some (Int64.ofNat n) else none := by
  rw [arity?_of_digits (Numeral.isDigits_ofNat n), Numeral.value_ofNat]
  unfold Numeral.int64?
  by_cases hn : n < 2 ^ 63
  · rw [if_pos hn, if_pos (by omega)]
    rfl
  · rw [if_neg hn, if_neg (by omega)]

/-! ## Slashes -/

theorem splitAtLastSlash?_eq_none {cs : List Char} (h : '/' ∉ cs) :
    splitAtLastSlash? cs = none := by
  induction cs with
  | nil => rfl
  | cons c cs ih =>
    rw [List.mem_cons, not_or] at h
    unfold splitAtLastSlash?
    rw [ih h.2]
    exact if_neg (Ne.symm h.1)

theorem splitAtLastSlash?_append (before : List Char) {after : List Char} (h : '/' ∉ after) :
    splitAtLastSlash? (before ++ '/' :: after) = some (before, after) := by
  induction before with
  | nil =>
    rw [List.nil_append]
    unfold splitAtLastSlash?
    rw [splitAtLastSlash?_eq_none h]
    rfl
  | cons c before ih =>
    rw [List.cons_append]
    unfold splitAtLastSlash?
    rw [ih]

/-! ## Signatures -/

theorem isBarred_iff {c : Char} : isBarred c = true ↔ isBlank c = true ∨ c = '/' := by
  simp [isBarred]

/-- A signature that was made has a name, in which nothing is barred. -/
theorem of_eq_ok {name : String} {arity : Nat} {s : Signature} : of name arity = .ok s ↔
    s = ⟨name, arity⟩ ∧ name.toList ≠ [] ∧ ∀ c ∈ name.toList, isBarred c = false := by
  unfold of
  by_cases hempty : name.toList = []
  · rw [if_pos hempty]
    simp [hempty]
  · rw [if_neg hempty]
    by_cases hbarred : name.toList.any isBarred = true
    · rw [if_pos hbarred]
      obtain ⟨c, hc, hb⟩ := List.any_eq_true.mp hbarred
      constructor
      · intro h
        cases h
      · intro h
        have := h.2.2 c hc
        rw [hb] at this
        cases this
    · rw [if_neg hbarred]
      have hall : ∀ c ∈ name.toList, isBarred c = false := by simpa using hbarred
      simp only [Except.ok.injEq]
      constructor
      · intro h
        exact ⟨h.symm, hempty, hall⟩
      · intro h
        exact h.1.symm

theorem no_blank_of_of {name : String} {arity : Nat} {s : Signature} (h : of name arity = .ok s) :
    (∀ c ∈ name.toList, isBlank c = false) ∧ ∀ c ∈ s.chars, isBlank c = false := by
  obtain ⟨hs, -, hbarred⟩ := of_eq_ok.mp h
  have hname : ∀ c ∈ name.toList, isBlank c = false := by
    intro c hc
    have := hbarred c hc
    grind [isBarred_iff]
  have hrest : ∀ c ∈ '/' :: Numeral.ofNat arity, isBlank c = false := by
    rw [List.forall_mem_cons]
    exact ⟨rfl, (Numeral.isDigits_ofNat arity).no_blank⟩
  subst hs
  exact ⟨hname, List.forall_mem_append.mpr ⟨hname, hrest⟩⟩

/-- The text of a signature is read back if its arity is a number of 64 bits and a sign, and is
malformed otherwise. -/
theorem parse_signature_text {name : String} {arity : Nat} {s : Signature}
    (h : of name arity = .ok s) :
    parse s.text = if arity < 2 ^ 63 then .ok s else .error (.malformed s.text) := by
  obtain ⟨hname, hchars⟩ := no_blank_of_of h
  obtain ⟨hs, -⟩ := of_eq_ok.mp h
  have hdigits := Numeral.isDigits_ofNat arity
  have hsplit : splitAtLastSlash? (trim s.text.toList) =
      some (name.toList, Numeral.ofNat arity) := by
    unfold text
    rw [String.toList_ofList, (trimmed_of_no_blank hchars).trim_eq, hs]
    exact splitAtLastSlash?_append _ hdigits.no_slash
  have harity : trim (Numeral.ofNat arity) = Numeral.ofNat arity :=
    (trimmed_of_no_blank hdigits.no_blank).trim_eq
  unfold parse
  simp only [hsplit, harity, arity?_ofNat]
  by_cases hn : arity < 2 ^ 63
  · have hint : (Int64.ofNat arity).toInt = arity := Int64.toInt_ofNat_of_lt hn
    simp only [if_pos hn, hint]
    rw [if_neg (by omega), (trimmed_of_no_blank hname).trim_eq, String.ofList_toList]
    exact h
  · simp only [if_neg hn]

theorem parse_signature_text_of_sample :
    of "größer" 2 = .ok ⟨"größer", 2⟩ ∧
    parse (Signature.text ⟨"größer", 2⟩) = .ok ⟨"größer", 2⟩ := by
  have h : of "größer" 2 = .ok ⟨"größer", 2⟩ := of_eq_ok.mpr ⟨rfl, by decide, by decide⟩
  refine ⟨h, ?_⟩
  rw [parse_signature_text h]
  rfl

theorem parse_signature_text_of_large_arity :
    ¬ ∀ (name : String) (arity : Nat) (s : Signature), arity < 2 ^ 64 →
      of name arity = .ok s →
      parse s.text = .ok s := by
  intro h
  have hs : of "p" (2 ^ 63) = .ok ⟨"p", 2 ^ 63⟩ := of_eq_ok.mpr ⟨rfl, by decide, by decide⟩
  have hparse : parse (Signature.text ⟨"p", 2 ^ 63⟩) =
      .error (.malformed "p/9223372036854775808") := by
    rfl
  have := h "p" (2 ^ 63) _ (by decide) hs
  rw [hparse] at this
  cases this

end Signature

end Clausal
