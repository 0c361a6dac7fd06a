import Clausal.Reader.Basic

/-!
# Replies of composed readers

Which replies of the parts make a composed reader done or stuck. `Repeats` says
what the uses of a repeated reader are, one after the other; it does not mention
the bound on them, which is out of reach for readers that take a character each time.
-/

namespace Clausal

variable {α β : Type}

def Reply.IsStuck (reply : Reply α) : Prop := ∃ rest, reply = .stuck rest

theorem Reply.IsStuck.ne_done {reply : Reply α} (h : reply.IsStuck) (x : α) (rest : List Char) :
    reply ≠ .done x rest := by
  obtain ⟨r, h⟩ := h
  rw [h]
  intro h'
  cases h'

/-- The reading goes on: the reply is a value, or it lets another alternative try. -/
def Reply.Settles (reply : Reply α) : Prop := (∃ x rest, reply = .done x rest) ∨ reply.IsStuck

@[simp] theorem Reply.settles_done (x : α) (rest : List Char) : (Reply.done x rest).Settles :=
  .inl ⟨x, rest, rfl⟩

@[simp] theorem Reply.settles_stuck (rest : List Char) : (Reply.stuck rest : Reply α).Settles :=
  .inr ⟨rest, rfl⟩

namespace Reader

/-! ## Sequence -/

theorem bind_apply (p : Reader α) (f : α → Reader β) (cs : List Char) :
    (p >>= f) cs = Reader.bind p f cs := rfl

theorem pure_eq_done {x y : α} {cs rest : List Char} :
    (Pure.pure x : Reader α) cs = .done y rest ↔ x = y ∧ cs = rest := by
  change Reply.done x cs = .done y rest ↔ _
  simp

theorem bind_of_done {p : Reader α} {f : α → Reader β} {cs rest : List Char} {x : α}
    (h : p cs = .done x rest) : (p >>= f) cs = f x rest := by
  simp only [bind_apply, Reader.bind, h]

theorem bind_of_stuck {p : Reader α} {f : α → Reader β} {cs : List Char} (h : (p cs).IsStuck) :
    ((p >>= f) cs).IsStuck := by
  obtain ⟨rest, h⟩ := h
  exact ⟨rest, by simp only [bind_apply, Reader.bind, h]⟩

theorem bind_eq_done {p : Reader α} {f : α → Reader β} {cs rest : List Char} {y : β} :
    (p >>= f) cs = .done y rest ↔ ∃ x r, p cs = .done x r ∧ f x r = .done y rest := by
  simp only [bind_apply, Reader.bind]
  cases p cs with
  | done x r =>
    constructor
    · exact fun h => ⟨x, r, rfl, h⟩
    · intro h
      obtain ⟨x, r, ⟨rfl, rfl⟩, h⟩ := h
      exact h
  | _ => simp

theorem bind_isStuck {p : Reader α} {f : α → Reader β} {cs : List Char} :
    ((p >>= f) cs).IsStuck ↔
      (p cs).IsStuck ∨ ∃ x r, p cs = .done x r ∧ (f x r).IsStuck := by
  simp only [bind_apply, Reader.bind, Reply.IsStuck]
  cases p cs with
  | done x r =>
    constructor
    · exact fun h => .inr ⟨x, r, rfl, h⟩
    · intro h
      rcases h with ⟨_, h⟩ | ⟨x, r, ⟨rfl, rfl⟩, h⟩
      · cases h
      · exact h
  | _ => simp

theorem map_isStuck {p : Reader α} {g : α → β} {cs : List Char} :
    ((do let x ← p; return g x : Reader β) cs).IsStuck ↔ (p cs).IsStuck := by
  rw [bind_isStuck]
  constructor
  · intro h
    rcases h with h | ⟨x, r, -, s, h⟩
    · exact h
    · cases h
  · exact .inl

theorem bind_congr {p q : Reader α} {f g : α → Reader β} {cs : List Char} (h : p cs = q cs)
    (hf : ∀ x rest, p cs = .done x rest → f x rest = g x rest) :
    (p >>= f) cs = (q >>= g) cs := by
  simp only [bind_apply, Reader.bind]
  rw [← h]
  cases hp : p cs with
  | done x rest => exact hf x rest hp
  | _ => rfl

/-! ## Choice -/

theorem orElse_apply (p q : Reader α) (cs : List Char) : (p <|> q) cs = Reader.orElse p q cs := rfl

theorem orElse_of_done {p q : Reader α} {cs rest : List Char} {x : α} (h : p cs = .done x rest) :
    (p <|> q) cs = .done x rest := by
  simp only [orElse_apply, Reader.orElse, h]

theorem orElse_eq_done_of_stuck {p q : Reader α} {cs rest : List Char} {x : α}
    (h : (p cs).IsStuck) :
    (p <|> q) cs = .done x rest ↔ q cs = .done x rest := by
  obtain ⟨r, h⟩ := h
  simp only [orElse_apply, Reader.orElse, h]
  cases q cs <;> simp

theorem orElse_isStuck {p q : Reader α} {cs : List Char} :
    ((p <|> q) cs).IsStuck ↔ (p cs).IsStuck ∧ (q cs).IsStuck := by
  simp only [orElse_apply, Reader.orElse, Reply.IsStuck]
  cases p cs with
  | stuck r => cases q cs <;> simp
  | _ => simp

theorem orElse_eq_done {p q : Reader α} {cs rest : List Char} {x : α} :
    (p <|> q) cs = .done x rest ↔
      p cs = .done x rest ∨ (p cs).IsStuck ∧ q cs = .done x rest := by
  simp only [orElse_apply, Reader.orElse, Reply.IsStuck]
  cases p cs with
  | stuck r => cases q cs <;> simp
  | _ => simp

theorem orElse_congr {p p' q q' : Reader α} {cs : List Char} (hp : p cs = p' cs)
    (hq : q cs = q' cs) :
    (p <|> q) cs = (p' <|> q') cs := by
  simp only [orElse_apply, Reader.orElse, hp, hq]

/-! ## What settles -/

theorem settles_of_bind {p : Reader α} {f : α → Reader β} {cs : List Char}
    (h : ((p >>= f) cs).Settles) :
    (p cs).Settles := by
  rcases h with ⟨y, rest, h⟩ | h
  · obtain ⟨x, r, hp, -⟩ := bind_eq_done.mp h
    exact .inl ⟨x, r, hp⟩
  · rcases bind_isStuck.mp h with h | ⟨x, r, hp, -⟩
    · exact .inr h
    · exact .inl ⟨x, r, hp⟩

theorem settles_of_orElse {p q : Reader α} {cs : List Char} (h : ((p <|> q) cs).Settles) :
    (p cs).Settles := by
  rcases h with ⟨y, rest, h⟩ | h
  · rcases orElse_eq_done.mp h with h | ⟨h, -⟩
    · exact .inl ⟨y, rest, h⟩
    · exact .inr h
  · exact .inr (orElse_isStuck.mp h).1

theorem settles_of_orElse_right {p q : Reader α} {cs : List Char} (hs : (p cs).IsStuck)
    (h : ((p <|> q) cs).Settles) : (q cs).Settles := by
  rcases h with ⟨y, rest, h⟩ | h
  · exact .inl ⟨y, rest, (orElse_eq_done_of_stuck hs).mp h⟩
  · exact .inr (orElse_isStuck.mp h).2

/-! ## What may be missing -/

theorem optional_eq_done {p : Reader α} {cs rest : List Char} {o : Option α} :
    optional p cs = .done o rest ↔
      (∃ x, o = some x ∧ p cs = .done x rest) ∨
      (o = none ∧ rest = cs ∧ (p cs).IsStuck) := by
  simp only [optional, Reply.IsStuck]
  cases p cs with
  | done x r =>
    simp only [Reply.done.injEq]
    constructor
    · intro h
      exact .inl ⟨x, h.1.symm, rfl, h.2⟩
    · intro h
      rcases h with ⟨y, rfl, rfl, rfl⟩ | ⟨_, _, _, h⟩
      · exact ⟨rfl, rfl⟩
      · cases h
  | stuck r => simp [eq_comm]
  | _ => simp

theorem optional_congr {p q : Reader α} {cs : List Char} (h : p cs = q cs) :
    optional p cs = optional q cs := by
  simp only [optional, h]

/-! ## Repetition -/

/-- The values of a reader used again and again, up to where it is stuck. -/
inductive Repeats (p : Reader α) : List α → List Char → List Char → Prop
  | nil {cs} : (p cs).IsStuck → Repeats p [] cs cs
  | cons {x xs cs r rest} : p cs = .done x r → Repeats p xs r rest → Repeats p (x :: xs) cs rest

/-- A reader that never succeeds without taking a character. -/
def Consumes (p : Reader α) : Prop :=
  ∀ cs x rest, p cs = .done x rest → rest.length < cs.length

theorem repeats_of_repeated {p : Reader α} (n : Nat) : ∀ {xs : List α} {cs rest : List Char},
    repeated p n cs = .done xs rest → Repeats p xs cs rest := by
  induction n with
  | zero => intro xs cs rest h; cases h
  | succ n ih =>
    intro xs cs rest h
    simp only [repeated] at h
    cases hp : p cs with
    | done x r =>
      simp only [hp, bind_eq_done, pure_eq_done] at h
      obtain ⟨ys, s, hys, rfl, rfl⟩ := h
      exact .cons hp (ih hys)
    | stuck r =>
      simp only [hp, Reply.done.injEq] at h
      obtain ⟨rfl, rfl⟩ := h
      exact .nil ⟨r, hp⟩
    | rejected w => simp [hp] at h
    | exhausted => simp [hp] at h

theorem repeats_of_many {p : Reader α} {xs : List α} {cs rest : List Char}
    (h : many p cs = .done xs rest) : Repeats p xs cs rest :=
  repeats_of_repeated _ h

section
variable {p : Reader α} (hc : Consumes p)
include hc

theorem repeated_of_repeats {xs : List α} {cs rest : List Char} (h : Repeats p xs cs rest) :
    ∀ n, cs.length < n → repeated p n cs = .done xs rest := by
  induction h with
  | nil hs =>
    intro n hn
    obtain ⟨r, hs⟩ := hs
    obtain ⟨n, rfl⟩ := Nat.exists_eq_succ_of_ne_zero (Nat.ne_zero_of_lt hn)
    simp only [repeated, hs]
  | cons hp _ ih =>
    intro n hn
    obtain ⟨n, rfl⟩ := Nat.exists_eq_succ_of_ne_zero (Nat.ne_zero_of_lt hn)
    have hlen := hc _ _ _ hp
    simp only [repeated, hp]
    rw [bind_of_done (ih n (by omega))]
    rfl

theorem many_eq_done {xs : List α} {cs rest : List Char} :
    many p cs = .done xs rest ↔ Repeats p xs cs rest :=
  ⟨repeats_of_many, fun h => repeated_of_repeats hc h _ (Nat.lt_succ_self _)⟩

end

theorem repeated_congr {p q : Reader α} (hc : Consumes p) (k : Nat)
    (h : ∀ cs, cs.length ≤ k → p cs = q cs) (n : Nat) :
    ∀ cs : List Char, cs.length ≤ k → repeated p n cs = repeated q n cs := by
  induction n with
  | zero => intro cs _; rfl
  | succ n ih =>
    intro cs hk
    simp only [repeated]
    rw [← h cs hk]
    cases hp : p cs with
    | done x r =>
      have hlen := hc _ _ _ hp
      exact bind_congr (ih r (by omega)) fun _ _ _ => rfl
    | _ => rfl

theorem many_congr {p q : Reader α} (hc : Consumes p) {cs : List Char}
    (h : ∀ r, r.length ≤ cs.length → p r = q r) : many p cs = many q cs :=
  repeated_congr hc cs.length h _ cs (Nat.le_refl _)

end Reader

end Clausal
