import Clausal.Proofs.Junk
import Clausal.Proofs.Reply
import Clausal.Reader.Term

/-!
# Tokens

What the readers of single tokens take: the token after its junk, up to where its
class of characters stops. Of these readers each is done or stuck.
-/

namespace Clausal

/-- What is said of the characters of a list is decided by going over the list, not over all
characters. -/
instance (priority := 2000) decidableForallMem (cs : List Char) (p : Char → Prop)
    [DecidablePred p] :
    Decidable (∀ c ∈ cs, p c) := List.decidableBAll p cs

/-! ## Letters and digits -/

theorem isLower_iff {c : Char} : c.isLower = true ↔ 97 ≤ c.toNat ∧ c.toNat ≤ 122 := by
  have hrange : c.isLower = (decide (97 ≤ c.toNat) && decide (c.toNat ≤ 122)) := rfl
  rw [hrange, Bool.and_eq_true, decide_eq_true_eq, decide_eq_true_eq]

theorem isUpper_iff {c : Char} : c.isUpper = true ↔ 65 ≤ c.toNat ∧ c.toNat ≤ 90 := by
  have hrange : c.isUpper = decide (65 ≤ c.toNat ∧ c.toNat ≤ 90) := rfl
  rw [hrange, decide_eq_true_eq]

theorem isAlphanum_iff {c : Char} :
    c.isAlphanum = true ↔ (c.isUpper = true ∨ c.isLower = true) ∨ c.isDigit = true := by
  have hkinds : c.isAlphanum = ((c.isUpper || c.isLower) || c.isDigit) := rfl
  rw [hkinds, Bool.or_eq_true, Bool.or_eq_true]

/-! ## Classes of characters -/

/-- No character of the class stands at the front. -/
def Stops (inside : Char → Bool) (rest : List Char) : Prop :=
  ∀ c ∈ rest.head?, inside c = false

theorem stops_nil (inside : Char → Bool) : Stops inside [] := by simp [Stops]

theorem stops_cons {inside : Char → Bool} {c : Char} {rest : List Char} :
    Stops inside (c :: rest) ↔ inside c = false := by
  simp [Stops]

theorem stops_dropWhile (inside : Char → Bool) (cs : List Char) :
    Stops inside (cs.dropWhile inside) := by
  intro c hc
  have := List.head?_dropWhile_not inside cs
  simpa [Option.mem_def.mp hc] using this

theorem eq_of_stops {inside : Char → Bool} {w v rest tail : List Char}
    (hw : ∀ c ∈ w, inside c = true) (hv : ∀ c ∈ v, inside c = true) (hr : Stops inside rest)
    (ht : Stops inside tail) (h : w ++ rest = v ++ tail) : w = v ∧ rest = tail := by
  induction w generalizing v with
  | nil =>
    cases v with
    | nil => exact ⟨rfl, h⟩
    | cons c v =>
      have := hr c (by simp only [List.nil_append] at h; simp [h])
      simp [hv c (by simp)] at this
  | cons c w ih =>
    cases v with
    | nil =>
      have := ht c (by simp only [List.nil_append] at h; simp [← h])
      simp [hw c (by simp)] at this
    | cons d v =>
      simp only [List.cons_append, List.cons.injEq] at h
      obtain ⟨rfl, h⟩ := h
      obtain ⟨rfl, rfl⟩ :=
        ih (fun c hc => hw c (by simp [hc])) (fun c hc => hv c (by simp [hc])) h
      exact ⟨rfl, rfl⟩

theorem takeWhile_of_stops {inside : Char → Bool} {w rest : List Char}
    (hw : ∀ c ∈ w, inside c = true) (hr : Stops inside rest) :
    (w ++ rest).takeWhile inside = w ∧ (w ++ rest).dropWhile inside = rest :=
  eq_of_stops (fun _ hc => (List.all_eq_true.mp List.all_takeWhile) _ hc) hw
    (stops_dropWhile _ _) hr
    List.takeWhile_append_dropWhile

namespace Reader

variable {α β : Type}

/-! ## Readers that are done or stuck -/

/-- A reader that never ends the whole reading. -/
def Plain (p : Reader α) : Prop := ∀ cs, (p cs).Settles

theorem Plain.isStuck_iff {p : Reader α} (hp : Plain p) {cs : List Char} :
    (p cs).IsStuck ↔ ∀ x rest, p cs ≠ .done x rest := by
  constructor
  · exact Reply.IsStuck.ne_done
  · intro h
    obtain ⟨x, rest, h'⟩ | h' := hp cs
    · exact absurd h' (h x rest)
    · exact h'

theorem plain_pure (x : α) : Plain (Pure.pure x : Reader α) := fun cs => .inl ⟨x, cs, rfl⟩

theorem plain_bind {p : Reader α} {f : α → Reader β} (hp : Plain p) (hf : ∀ x, Plain (f x)) :
    Plain (p >>= f) := by
  intro cs
  obtain ⟨x, rest, h⟩ | h := hp cs
  · rw [bind_of_done h]; exact hf x rest
  · exact .inr (bind_of_stuck h)

theorem plain_orElse {p q : Reader α} (hp : Plain p) (hq : Plain q) : Plain (p <|> q) := by
  intro cs
  obtain ⟨x, rest, h⟩ | h := hp cs
  · exact .inl ⟨x, rest, orElse_of_done h⟩
  · obtain ⟨x, rest, h'⟩ | h' := hq cs
    · exact .inl ⟨x, rest, (orElse_eq_done_of_stuck h).mpr h'⟩
    · exact .inr (orElse_isStuck.mpr ⟨h, h'⟩)

theorem plain_token {p : Reader α} (hp : Plain p) : Plain (token p) := fun cs => hp (skipJunk cs)

theorem plain_exactly (word : List Char) : Plain (exactly word) := by
  intro cs
  simp only [exactly]
  cases dropWord? word cs <;> simp

theorem plain_run (inside : Char → Bool) : Plain (run inside) := fun _ => .inl ⟨_, _, rfl⟩

theorem plain_run1 (inside : Char → Bool) : Plain (run1 inside) := by
  intro cs
  simp only [run1]
  cases cs.takeWhile inside <;> simp

theorem plain_one (inside : Char → Bool) : Plain (one inside) := by
  intro cs
  cases cs with
  | nil => exact .inr ⟨_, rfl⟩
  | cons c cs => simp only [one]; split <;> simp

theorem plain_minus : Plain minus := by
  intro cs
  unfold minus
  split <;> simp

/-! ## Words -/

theorem dropWord?_eq_some {word cs rest : List Char} :
    dropWord? word cs = some rest ↔ cs = word ++ rest := by
  induction word generalizing cs with
  | nil => simp [dropWord?]
  | cons w ws ih =>
    cases cs with
    | nil => simp [dropWord?]
    | cons c cs =>
      simp only [dropWord?, List.cons_append, List.cons.injEq]
      by_cases h : w = c
      · simp [h, ih]
      · simp [h, Ne.symm h]

theorem exactly_eq_done {word cs rest : List Char} {u : Unit} :
    exactly word cs = .done u rest ↔ cs = word ++ rest := by
  simp only [exactly]
  cases h : dropWord? word cs with
  | none => simp [← dropWord?_eq_some, h]
  | some r => simp [← dropWord?_eq_some, h]

theorem symbol_eq_done {word cs rest : List Char} {u : Unit} :
    symbol word cs = .done u rest ↔ skipJunk cs = word ++ rest :=
  exactly_eq_done

theorem plain_symbol (word : List Char) : Plain (symbol word) := plain_token (plain_exactly word)

theorem mark_eq_done {c : Char} {cs rest : List Char} {u : Unit} :
    mark c cs = .done u rest ↔ skipJunk cs = c :: rest :=
  symbol_eq_done

theorem mark_of_skipJunk {c : Char} {cs rest : List Char} (h : skipJunk cs = c :: rest) :
    mark c cs = .done () rest :=
  mark_eq_done.mpr h

theorem mark_isStuck {c : Char} {cs : List Char} :
    (mark c cs).IsStuck ↔ ∀ rest, skipJunk cs ≠ c :: rest := by
  have hp : Plain (mark c) := plain_symbol [c]
  rw [hp.isStuck_iff]
  exact ⟨fun h rest h' => h () rest (mark_eq_done.mpr h'),
    fun h u rest h' => h rest (mark_eq_done.mp h')⟩

theorem consumes_mark (c : Char) : Consumes (mark c) := by
  intro cs u rest h
  have := (junk_of_skipJunk (mark_eq_done.mp h)).length_le
  simp only [List.length_cons] at this
  omega

theorem nameEnd_eq_done {cs rest : List Char} {u : Unit} :
    nameEnd cs = .done u rest ↔ cs = rest ∧ Stops Lexeme.isNameChar rest := by
  cases cs with
  | nil =>
    simp only [nameEnd, Reply.done.injEq]
    exact ⟨fun h => ⟨h.2, h.2 ▸ stops_nil _⟩, fun h => ⟨trivial, h.1⟩⟩
  | cons c cs =>
    simp only [nameEnd]
    split
    · rename_i h
      simp only [reduceCtorEq, false_iff, not_and]
      intro he hs
      rw [← he, stops_cons, h] at hs
      cases hs
    · rename_i h
      simp only [Reply.done.injEq]
      exact ⟨fun h' => ⟨h'.2, h'.2 ▸ stops_cons.mpr (by simpa using h)⟩,
        fun h' => ⟨trivial, h'.1⟩⟩

theorem plain_nameEnd : Plain nameEnd := by
  intro cs
  cases cs with
  | nil => exact .inl ⟨_, _, rfl⟩
  | cons c cs => simp only [nameEnd]; split <;> simp

theorem keyword_eq_done {word cs rest : List Char} {u : Unit} :
    keyword word cs = .done u rest ↔
      skipJunk cs = word ++ rest ∧ Stops Lexeme.isNameChar rest := by
  simp only [keyword, token, bind_eq_done, exactly_eq_done, nameEnd_eq_done]
  constructor
  · intro h
    obtain ⟨-, r, h, rfl, hs⟩ := h
    exact ⟨h, hs⟩
  · exact fun h => ⟨(), rest, h.1, rfl, h.2⟩

theorem plain_keyword (word : List Char) : Plain (keyword word) :=
  plain_token (plain_bind (plain_exactly word) fun _ => plain_nameEnd)

/-! ## Names -/

theorem run_eq_done {inside : Char → Bool} {cs w rest : List Char} :
    run inside cs = .done w rest ↔
      cs = w ++ rest ∧ (∀ c ∈ w, inside c = true) ∧ Stops inside rest := by
  simp only [run, Reply.done.injEq]
  constructor
  · intro h
    obtain ⟨rfl, rfl⟩ := h
    exact ⟨List.takeWhile_append_dropWhile.symm,
      fun c hc => List.all_eq_true.mp List.all_takeWhile c hc,
      stops_dropWhile _ _⟩
  · intro h
    obtain ⟨rfl, hw, hr⟩ := h
    exact takeWhile_of_stops hw hr

theorem run1_eq_done {inside : Char → Bool} {cs w rest : List Char} :
    run1 inside cs = .done w rest ↔
      cs = w ++ rest ∧ w ≠ [] ∧ (∀ c ∈ w, inside c = true) ∧ Stops inside rest := by
  have hrun : run inside cs = .done w rest ↔ _ := run_eq_done
  simp only [run, Reply.done.injEq] at hrun
  simp only [run1]
  cases h : cs.takeWhile inside with
  | nil =>
    simp only [reduceCtorEq, false_iff]
    intro h'
    obtain ⟨he, hne, hw⟩ := h'
    exact hne (by rw [← (hrun.mpr ⟨he, hw⟩).1, h])
  | cons c v =>
    simp only [Reply.done.injEq]
    rw [← h, hrun]
    constructor
    · intro h'
      obtain ⟨he, hw⟩ := h'
      have hword := (hrun.mpr ⟨he, hw⟩).1
      refine ⟨he, fun hnil => ?_, hw⟩
      rw [h, hnil] at hword
      cases hword
    · exact fun h' => ⟨h'.1, h'.2.2⟩

theorem one_eq_done {inside : Char → Bool} {cs rest : List Char} {c : Char} :
    one inside cs = .done c rest ↔ cs = c :: rest ∧ inside c = true := by
  cases cs with
  | nil => simp [one]
  | cons d cs =>
    simp only [one]
    split
    · rename_i h
      simp only [Reply.done.injEq, List.cons.injEq]
      exact ⟨fun ⟨hc, hr⟩ => ⟨⟨hc, hr⟩, hc ▸ h⟩, fun ⟨hc, _⟩ => hc⟩
    · rename_i h
      simp only [reduceCtorEq, false_iff, List.cons.injEq]
      exact fun h' => h (h'.1.1 ▸ h'.2)

theorem isName_cons {initial : Char → Bool} {c : Char} {cs : List Char} :
    Lexeme.isName initial (c :: cs) = true ↔
      initial c = true ∧ ∀ d ∈ cs, Lexeme.isNameChar d = true := by
  simp [Lexeme.isName]

theorem exists_cons_of_isName {initial : Char → Bool} {w : List Char}
    (hw : Lexeme.isName initial w = true) :
    ∃ c v, w = c :: v ∧ initial c = true := by
  cases w with
  | nil => cases hw
  | cons c v => exact ⟨c, v, rfl, (isName_cons.mp hw).1⟩

theorem nameFrom_eq_done {initial : Char → Bool} {cs w rest : List Char} :
    nameFrom initial cs = .done w rest ↔
      skipJunk cs = w ++ rest ∧ Lexeme.isName initial w = true ∧
      Stops Lexeme.isNameChar rest := by
  simp only [nameFrom, token, bind_eq_done, one_eq_done, run_eq_done, pure_eq_done]
  constructor
  · intro h
    obtain ⟨c, -, ⟨h, hc⟩, v, r, ⟨rfl, hv, hr⟩, rfl, rfl⟩ := h
    exact ⟨h, isName_cons.mpr ⟨hc, hv⟩, hr⟩
  · intro h
    obtain ⟨h, hw, hr⟩ := h
    cases w with
    | nil => cases hw
    | cons c v =>
      obtain ⟨hc, hv⟩ := isName_cons.mp hw
      exact ⟨c, v ++ rest, ⟨h, hc⟩, v, rest, ⟨rfl, hv, hr⟩, rfl, rfl⟩

theorem plain_nameFrom (initial : Char → Bool) : Plain (nameFrom initial) :=
  plain_token (plain_bind (plain_one initial) fun _ => plain_bind (plain_run _) fun _ =>
    plain_pure _)

end Reader

end Clausal
