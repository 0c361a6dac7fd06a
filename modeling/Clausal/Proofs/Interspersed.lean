import Clausal.Proofs.Outline
import Clausal.Proofs.Parallel
import Clausal.Proofs.Rejection
import Clausal.Proofs.RoundTrip

/-!
# Junk between tokens

Rules and bodies are parsed from their canonical tokens, whatever junk stands
before, between and behind them. A word is followed by a bracket, a comma, a neck or
the last period, so that it ends where the junk behind it begins.
-/

namespace Clausal

open Lexeme Reader Reader.Unbounded

/-! ## Texts as tokens and junk -/

/-- `FallsInto cs ws`: the tokens of the text `cs` are `ws`. -/
inductive FallsInto : List Char → List (List Char) → Prop
  | done {cs} : skipJunk cs = [] → FallsInto cs []
  | token {w cs r ws} : Front w cs r → FallsInto r ws → FallsInto cs (w :: ws)

/-- What may stand between two tokens: blanks, comments that a line ends, and comments between
brackets. -/
inductive IsJunk : List Char → Prop
  | none : IsJunk []
  | blank {c j} : isGap c = true → IsJunk j → IsJunk (c :: j)
  | line {opening w ending j} : LineOpening opening → '\n' ∉ w → '\r' ∉ w →
      ending = ['\n'] ∨ ending = ['\r', '\n'] →
      IsJunk j → IsJunk (opening ++ w ++ ending ++ j)
  | block {w j} : ¬ ['*', '/'] <:+: w → IsJunk j → IsJunk ('/' :: '*' :: w ++ '*' :: '/' :: j)

/-- What may stand behind the last token. No line need end the last comment. -/
inductive IsLastJunk : List Char → Prop
  | ended {j} : IsJunk j → IsLastJunk j
  | comment {j opening w} : IsJunk j → LineOpening opening → '\n' ∉ w → '\r' ∉ w →
      IsLastJunk (j ++ opening ++ w)

/-- `Interspersed ws cs`: the text `cs` is made of the tokens `ws` in their order, with junk around
each of them. -/
inductive Interspersed : List (List Char) → List Char → Prop
  | done {j} : IsLastJunk j → Interspersed [] j
  | token {w ws j cs} : IsJunk j → Interspersed ws cs → Interspersed (w :: ws) (j ++ w ++ cs)

theorem FallsInto.unique {cs : List Char} {ws vs : List (List Char)} (h : FallsInto cs ws)
    (h' : FallsInto cs vs) :
    ws = vs := by
  have hempty {cs w r : List Char} (hn : skipJunk cs = []) (hw : Front w cs r) : False := by
    rw [hw.skipJunk_eq, List.append_eq_nil_iff] at hn
    exact hw.ne_nil hn.1
  induction h generalizing vs with
  | done hn =>
    cases h' with
    | done _ => rfl
    | token hv _ => exact (hempty hn hv).elim
  | token hw _ ih =>
    cases h' with
    | done hn => exact (hempty hn hw).elim
    | token hv hr =>
      obtain ⟨he, hs⟩ := hw.unique hv
      subst he hs
      rw [ih hr]

/-! ## Junk in front of a text -/

theorem IsJunk.junk {j : List Char} (h : IsJunk j) (rest : List Char) : Junk (j ++ rest) rest := by
  induction h with
  | none => exact .none
  | blank hc _ ih => exact .blank hc ih
  | @line opening w ending j ho hn hr he _ ih =>
    have hend : AtLineEnd (ending ++ (j ++ rest)) ∧ Junk (ending ++ (j ++ rest)) rest := by
      rcases he with he | he
      · subst he
        exact ⟨.inr (.inl ⟨_, rfl⟩), .blank rfl ih⟩
      · subst he
        exact ⟨.inr (.inr ⟨_, rfl⟩), .blank rfl (.blank rfl ih)⟩
    have hline := Junk.line ho hn hr hend.1 hend.2
    simpa using hline
  | @block w j hw _ ih =>
    have hclose : ¬ ['*', '/'] <:+: w ++ ['*'] := by
      rcases List.eq_nil_or_concat w with he | ⟨v, c, he⟩
      · subst he
        exact fun h => absurd h.length_le (by simp)
      · rw [he, List.concat_eq_append] at hw ⊢
        exact no_close_concat hw fun h => absurd h.2 (by decide)
    simpa using Junk.block hclose ih

theorem IsLastJunk.junk {j : List Char} (h : IsLastJunk j) : Junk j [] := by
  cases h with
  | ended h => simpa using h.junk []
  | @comment i opening w h ho hn hr =>
    have hline : Junk (opening ++ w) [] := by simpa using Junk.line ho hn hr (.inl rfl) .none
    simpa using (h.junk (opening ++ w)).trans hline

/-- What junk begins with is not solid. -/
theorem Junk.front {cs rest : List Char} (h : Junk cs rest) :
    cs = rest ∨ ∀ c ∈ cs.head?, isSolid c = false := by
  cases h with
  | none => exact .inl rfl
  | blank hc _ => exact .inr (by simpa [isSolid] using fun h => absurd hc (by simp [h]))
  | line ho _ _ _ _ => rcases ho with ho | ho <;> subst ho <;> exact .inr (by simp [isSolid])
  | block _ _ => exact .inr (by simp [isSolid])

/-! ## Tokens in order -/

/-- What may stand behind a word. A period comes last. -/
def EndsToken (ws : List (List Char)) : Prop :=
  ws = [['.']] ∨ ∀ w ∈ ws.head?, w ∈ [['('], [','], [')'], [']'], [':', '-']]

/-- The tokens of canonical text that are no words. -/
def canonicalMarks : List (List Char) :=
  [[':', '-'], ['('], ['['], [')'], [']'], [','], ['='], ['.']]

/-- `Orderly depth ws`: among the tokens `ws` there are `depth` brackets more closed than opened. -/
inductive Orderly : Nat → List (List Char) → Prop
  | done : Orderly 0 []
  | token {w ws depth} : IsToken w ∧ EndsToken ws ∨ w ∈ canonicalMarks →
      (w = [')'] ∨ w = [']'] → depth ≠ 0) →
      Orderly (depthBehind w depth) ws → Orderly depth (w :: ws)

theorem interspersed_front {ws : List (List Char)} {cs : List Char} (h : Interspersed ws cs)
    {c : Char} (hc : c ∈ cs.head?) (hs : isSolid c = true) :
    ∃ w vs, ws = w :: vs ∧ ∃ r, cs = w ++ r ∧ Interspersed vs r := by
  cases h with
  | done hj =>
    rcases hj.junk.front with he | he
    · subst he
      cases hc
    · rw [he c hc] at hs
      cases hs
  | @token w vs j r hj hr =>
    refine ⟨w, vs, rfl, r, ?_, hr⟩
    rw [List.append_assoc] at hc ⊢
    rcases (hj.junk (w ++ r)).front with he | he
    · exact he
    · rw [he c hc] at hs
      cases hs

theorem isNameChar_of_not_solid {c : Char} (h : isSolid c = false) : isNameChar c = false := by
  simp only [isSolid, Bool.and_eq_false_iff, Bool.not_eq_false', bne_eq_false_iff_eq] at h
  rcases h with (h | h) | h
  · exact isNameChar_of_isGap h
  · subst h; rfl
  · subst h; rfl

section
variable {ws : List (List Char)} {r : List Char} (he : EndsToken ws) (h : Interspersed ws r)
include he h

theorem EndsToken.stops : Stops isNameChar r := by
  intro c hc
  by_cases hs : isSolid c = true
  · obtain ⟨w, vs, hw, q, hr, -⟩ := interspersed_front h hc hs
    have hmem : w ∈ [['('], [','], [')'], [']'], [':', '-'], ['.']] := by
      rcases he with he | he
      · rw [he, List.cons.injEq] at hw
        simp [← hw.1]
      · exact List.mem_append_left [['.']] (he w (by rw [hw]; rfl))
    rw [hr] at hc
    simp only [List.mem_cons, List.not_mem_nil, or_false] at hmem
    rcases hmem with hmem | hmem | hmem | hmem | hmem | hmem
    all_goals
      rw [hmem, List.cons_append, List.head?_cons, Option.mem_some_iff] at hc
      subst hc
      rfl
  · exact isNameChar_of_not_solid (by simpa using hs)

/-- A period behind a word ends the text, so that no digit follows it. -/
theorem EndsToken.point {d : Char} {tail : List Char} (hr : r = '.' :: d :: tail) :
    d.isDigit = false := by
  obtain ⟨w, vs, hw, q, hq, hrest⟩ := interspersed_front h (c := '.') (by rw [hr]; rfl) rfl
  rw [hr] at hq
  rcases he with he | he
  · rw [he, List.cons.injEq] at hw
    rw [← hw.1, List.cons_append, List.nil_append, List.cons.injEq] at hq
    rw [← hw.2, ← hq.2] at hrest
    by_cases hd : isSolid d = true
    · obtain ⟨v, us, hv, -⟩ := interspersed_front hrest (c := d) rfl hd
      cases hv
    · by_cases hdigit : d.isDigit = true
      · exact absurd (isSolid_of_lead (lead?_of_isDigit hdigit)) hd
      · simpa using hdigit
  · have hmem := he w (by rw [hw]; rfl)
    simp only [List.mem_cons, List.not_mem_nil, or_false] at hmem
    rcases hmem with hmem | hmem | hmem | hmem | hmem
    all_goals rw [hmem] at hq; simp at hq

theorem IsToken.longest {w : List Char} (hw : IsToken w) : Longest w r := by
  have hdigits : Stops Char.isDigit r := by
    intro c hc
    by_cases hd : c.isDigit = true
    · have hname : isNameChar c = true := by simp [isNameChar, isAlphanum_iff.mpr (.inr hd)]
      rw [he.stops h c hc] at hname
      cases hname
    · simpa using hd
  cases hw with
  | lower hw => exact longest_lower hw (he.stops h)
  | upper hw => exact longest_upper hw (he.stops h)
  | numeral hs hw hf => exact longest_numeral hs hw hf hdigits fun _ d tail hr => he.point h hr
  | literal hq hi => exact longest_literal r hq hi

end

theorem not_sign_of_front {c : Char} {r : List Char} (hc : c ∉ ['=', '>', '\\']) :
    ∀ sign ∈ longSigns, ¬ sign <+: c :: r := by
  simp only [List.mem_cons, List.not_mem_nil, or_false, not_or] at hc
  intro sign hs hp
  simp only [longSigns, List.mem_cons, List.not_mem_nil, or_false] at hs
  rcases hs with hs | hs | hs | hs | hs
  all_goals
    rw [hs, List.cons_prefix_cons] at hp
    simp [← hp.1] at hc

theorem mark_cases {w : List Char} (h : w ∈ canonicalMarks) :
    w = [':', '-'] ∨ ∃ c, w = [c] ∧ lead? c = none ∧
    isSolid c = true ∧ c ≠ ':' ∧ (c = '=' ∨ c ∉ ['=', '>', '\\']) := by
  simp only [canonicalMarks, List.mem_cons, List.not_mem_nil, or_false] at h
  rcases h with h | h | h | h | h | h | h | h
  · exact .inl h
  all_goals exact .inr ⟨_, h, rfl, rfl, by decide, by decide⟩

/-- A character that is neither junk nor begins a word begins a mark. -/
theorem Orderly.exists_mark {depth : Nat} {ws : List (List Char)} {r : List Char}
    (ho : Orderly depth ws) (h : Interspersed ws r) {c : Char} (hc : c ∈ r.head?)
    (hs : isSolid c = true) (hl : lead? c = none) :
    ∃ w ∈ canonicalMarks, w <+: r := by
  obtain ⟨w, vs, hw, q, hq, -⟩ := interspersed_front h hc hs
  subst hw
  cases ho with
  | token hw _ _ =>
    rcases hw with ⟨hw, -⟩ | hm
    · obtain ⟨d, v, l, he, hd⟩ := hw.exists_lead
      rw [hq, he, List.cons_append, List.head?_cons, Option.mem_some_iff] at hc
      rw [hc, hl] at hd
      cases hd
    · exact ⟨w, hm, q, hq.symm⟩

/-- No sign begins with an equals sign and goes on with a token. -/
theorem Orderly.not_sign {depth : Nat} {ws : List (List Char)} {r : List Char}
    (ho : Orderly depth ws) (h : Interspersed ws r) :
    ∀ sign ∈ longSigns, ¬ sign <+: '=' :: r := by
  -- of the marks only the neck begins with a character that such a sign goes on with, and it has
  -- no equals sign
  have htail {sign : List Char} (hs : sign ∈ longSigns) : ∃ d c v, sign = d :: c :: v ∧
      isSolid c = true ∧ lead? c = none ∧
      ∀ w ∈ canonicalMarks, d = '=' → ¬ (w <+: c :: v ∨ c :: v <+: w) := by
    simp only [longSigns, List.mem_cons, List.not_mem_nil, or_false] at hs
    rcases hs with hs | hs | hs | hs | hs
    all_goals exact ⟨_, _, _, hs, rfl, rfl, by decide⟩
  intro sign hs hp
  obtain ⟨d, c, v, he, hsolid, hl, hclash⟩ := htail hs
  rw [he, List.cons_prefix_cons] at hp
  obtain ⟨hd, hp⟩ := hp
  have hc : c ∈ r.head? := by
    obtain ⟨q, hq⟩ := hp
    rw [← hq]
    rfl
  obtain ⟨w, hw, hpre⟩ := ho.exists_mark h hc hsolid hl
  exact hclash w hw hd (List.prefix_or_prefix_of_prefix hpre hp)

/-- The first of the tokens is the first token of the text, and no sign of a comparison or a
negation. -/
theorem Orderly.front {depth : Nat} {w : List Char} {ws : List (List Char)} {cs : List Char}
    (ho : Orderly depth (w :: ws)) (h : Interspersed (w :: ws) cs) :
    ∃ r, Front w cs r ∧ Interspersed ws r ∧
      ∀ sign ∈ longSigns, ¬ sign <+: skipJunk cs := by
  cases h with
  | @token _ _ j r hj hr =>
    have hjunk : Junk (j ++ w ++ r) (w ++ r) := by simpa using hj.junk (w ++ r)
    cases ho with
    | token hw _ ho =>
      rcases hw with ⟨hw, he⟩ | hm
      · have hskip := hw.skipJunk_eq hjunk
        obtain ⟨c, v, l, hc, hl⟩ := hw.exists_lead
        refine ⟨r, .lexeme hskip (hw.longest he hr), hr, ?_⟩
        rw [hskip, hc]
        refine not_sign_of_front fun hmem => ?_
        simp only [List.mem_cons, List.not_mem_nil, or_false] at hmem
        rcases hmem with hmem | hmem | hmem
        all_goals subst hmem; cases hl
      · rcases mark_cases hm with hn | ⟨c, hc, hl, hs, hn, hsign⟩
        · subst hn
          have hskip : skipJunk (j ++ [':', '-'] ++ r) = ':' :: '-' :: r :=
            skipJunk_of_junk rfl hjunk
          exact ⟨r, .neck hskip, hr, by rw [hskip]; exact not_sign_of_front (by decide)⟩
        · subst hc
          have hskip : skipJunk (j ++ [c] ++ r) = c :: r := skipJunk_of_junk hs hjunk
          refine ⟨r, front_of_mark hskip hl hs hn, hr, ?_⟩
          rw [hskip]
          rcases hsign with he | he
          · rw [he]
            exact ho.not_sign hr
          · exact not_sign_of_front he

/-- However the tokens are interspersed, they are those of the text. -/
theorem Orderly.fallsInto {depth : Nat} {ws : List (List Char)} (ho : Orderly depth ws) :
    ∀ {cs : List Char},
    Interspersed ws cs → FallsInto cs ws := by
  induction ho with
  | done =>
    intro cs h
    cases h with
    | done hj => exact .done (junk_nil_iff.mp hj.junk)
  | token hw hb ho ih =>
    intro cs h
    obtain ⟨r, hr, hi, -⟩ := (Orderly.token hw hb ho).front h
    exact .token hr (ih hi)

theorem Orderly.alike {depth : Nat} {ws : List (List Char)} (ho : Orderly depth ws) :
    ∀ {cs ds : List Char},
    Interspersed ws cs → Interspersed ws ds → Alike [] [] depth cs ds := by
  induction ho with
  | done =>
    intro cs ds hc hd
    cases hc with
    | done hj =>
      cases hd with
      | done hj' => exact .stop (junk_nil_iff.mp hj.junk) (junk_nil_iff.mp hj'.junk)
  | token hw hb ho ih =>
    intro cs ds hc hd
    obtain ⟨r, hr, hi, hsign⟩ := (Orderly.token hw hb ho).front hc
    obtain ⟨s, hs, hi', hsign'⟩ := (Orderly.token hw hb ho).front hd
    refine .token hr hs (fun sign hmem => ?_) hb (ih hi hi')
    exact ⟨fun h => absurd h (hsign sign hmem), fun h => absurd h (hsign' sign hmem)⟩

/-! ## Canonical texts -/

theorem orderly_word {depth : Nat} {w : List Char} {ws : List (List Char)} (hw : IsToken w)
    (he : EndsToken ws) (ho : Orderly depth ws) : Orderly depth (w :: ws) := by
  refine .token (.inl ⟨hw, he⟩) (fun hb => ?_) (by rwa [depthBehind_of_isToken hw])
  obtain ⟨c, v, l, hc, hl⟩ := hw.exists_lead
  rcases hb with hb | hb
  all_goals
    rw [hb, List.cons.injEq] at hc
    rw [← hc.1] at hl
    cases hl

theorem Interspersed.cons {w cs : List Char} {ws : List (List Char)} (h : Interspersed ws cs) :
    Interspersed (w :: ws) (w ++ cs) := .token .none h

theorem Interspersed.blank {cs : List Char} {ws : List (List Char)} (h : Interspersed ws cs) :
    Interspersed ws (' ' :: cs) := by
  cases h with
  | done hj =>
    cases hj with
    | ended hj => exact .done (.ended (.blank rfl hj))
    | @comment j _ _ hj ho hn hr => exact .done (.comment (j := ' ' :: j) (.blank rfl hj) ho hn hr)
  | token hj hr => exact .token (j := ' ' :: _) (.blank rfl hj) hr

section
variable {e : Nat} {ks : List (List Char)} {rest : List Char} (ho : Orderly e ks)
  (he : EndsToken ks)
  (hi : Interspersed ks rest)
include ho he hi

theorem orderly_of_outline {depth : Nat} {cs : List Char} (h : Outline IsToken depth cs) :
    ∃ ws, Orderly (depth + e) ws ∧ Interspersed ws (cs ++ rest) ∧
    (EndsWord cs → EndsToken ws) := by
  have hends {c : Char} {cs : List Char} (h : EndsWord (c :: cs)) : c ∈ ['(', ',', ')', ']'] :=
    h c rfl
  -- a word asks what stands behind it, so the induction also says where the text in front may
  -- end a word
  induction h with
  | done => exact ⟨ks, by rwa [Nat.zero_add], hi, fun _ => he⟩
  | @word w r depth hw hr _ ih =>
    obtain ⟨ws, hws, hcs, hend⟩ := ih
    refine ⟨w :: ws, orderly_word hw (hend hr) hws, by rw [List.append_assoc]; exact hcs.cons,
      fun h => ?_⟩
    obtain ⟨c, v, l, hc, hl⟩ := hw.exists_lead
    rw [hc] at h
    have hmem := hends h
    simp only [List.mem_cons, List.not_mem_nil, or_false] at hmem
    rcases hmem with hmem | hmem | hmem | hmem
    all_goals subst hmem; cases hl
  | @opening c r depth hc _ ih =>
    obtain ⟨ws, hws, hcs, -⟩ := ih
    rw [Nat.add_right_comm] at hws
    simp only [List.mem_cons, List.not_mem_nil, or_false] at hc
    rcases hc with hc | hc
    · subst hc
      exact ⟨['('] :: ws, .token (.inr (by decide)) (by simp) hws, hcs.cons,
        fun _ => .inr (by simp)⟩
    · subst hc
      exact ⟨['['] :: ws, .token (.inr (by decide)) (by simp) hws, hcs.cons,
        fun h => absurd (hends h) (by decide)⟩
  | @closing c r depth hc _ ih =>
    obtain ⟨ws, hws, hcs, -⟩ := ih
    rw [Nat.add_right_comm]
    have hopen : ([c] = [')'] ∨ [c] = [']']) → depth + e + 1 ≠ 0 :=
      fun _ => Nat.succ_ne_zero _
    simp only [List.mem_cons, List.not_mem_nil, or_false] at hc
    rcases hc with hc | hc
    all_goals
      subst hc
      exact ⟨_, .token (.inr (by decide)) hopen hws, hcs.cons, fun _ => .inr (by simp)⟩
  | @comma r depth _ ih =>
    obtain ⟨ws, hws, hcs, -⟩ := ih
    exact ⟨[','] :: ws, .token (.inr (by decide)) (by simp) hws, hcs.blank.cons,
      fun _ => .inr (by simp)⟩
  | @equals r depth _ ih =>
    obtain ⟨ws, hws, hcs, -⟩ := ih
    refine ⟨['='] :: ws, .token (.inr (by decide)) (by simp) hws, hcs.cons, fun h => ?_⟩
    exact absurd (hends h) (by decide)

end

/-- The text is a run of tokens wherever it may stand. -/
def Tokenized (cs : List Char) : Prop :=
  ∀ {e : Nat} {ks : List (List Char)} {rest : List Char}, Orderly e ks →
  EndsToken ks → Interspersed ks rest → ∃ ws, Orderly e ws ∧ Interspersed ws (cs ++ rest)

theorem Atom.WellFormed.tokenized {a : Atom} (h : a.WellFormed) : Tokenized a.chars := by
  intro e ks rest ho he hi
  have hname : ∀ w, isLowerName w = true ∨ isUpperName w = true → IsToken w
    | _, .inl hw => .lower hw
    | _, .inr hw => .upper hw
  have hout : Outline IsToken 0 a.chars :=
    h.outline hname fun c _ hc => (hc.token follows_nil).1.isToken
  obtain ⟨ws, hws, hcs, -⟩ := orderly_of_outline ho he hi hout
  exact ⟨ws, by rwa [Nat.zero_add] at hws, hcs⟩

theorem Body.WellFormed.tokenized {b : Body} (h : b.WellFormed) : Tokenized b.chars := by
  induction h with
  | atom ha => exact ha.tokenized
  | @conj left right _ _ ihl ihr =>
    intro e ks rest ho he hi
    obtain ⟨ws, hws, hcs⟩ := ihr ho he hi
    have hcomma : Orderly e ([','] :: ws) := .token (.inr (by decide)) (by simp) hws
    obtain ⟨vs, hvs, hds⟩ := ihl hcomma (.inr (by simp)) hcs.blank.cons
    exact ⟨vs, hvs, by simpa [Body.chars] using hds⟩
  | @neg inner _ ih =>
    intro e ks rest ho he hi
    have hclose : Orderly (e + 1) ([')'] :: ks) := .token (.inr (by decide)) (by simp) ho
    obtain ⟨ws, hws, hcs⟩ := ih hclose (.inr (by simp)) hi.cons
    have hopen : Orderly e (['('] :: ws) := .token (.inr (by decide)) (by simp) hws
    have hsign : Orderly e (['n', 'o', 't'] :: ['('] :: ws) :=
      orderly_word (.lower rfl) (.inr (by simp)) hopen
    exact ⟨_, hsign,
      by simpa [Body.chars] using (hcs.cons (w := ['('])).cons (w := ['n', 'o', 't'])⟩

theorem Rule.WellFormed.tokenized {r : Rule} (h : r.WellFormed) :
    ∃ ws, Orderly 0 ws ∧ Interspersed ws r.chars := by
  have hperiod : Orderly 0 [['.']] := .token (.inr (by decide)) (by simp) .done
  have hend : Interspersed [['.']] ['.'] := Interspersed.cons (.done (.ended .none))
  obtain ⟨ws, hws, hcs⟩ := h.body.tokenized hperiod (.inl rfl) hend
  have hneck : Orderly 0 ([':', '-'] :: ws) := .token (.inr (by decide)) (by simp) hws
  obtain ⟨vs, hvs, hds⟩ :=
    h.head.tokenized hneck (.inr (by simp)) (hcs.blank.cons (w := [':', '-'])).blank
  exact ⟨vs, hvs, by simpa [Rule.chars] using hds⟩

/-! ## Parsing -/

section
variable {ws : List (List Char)} {cs : List Char} (ho : Orderly 0 ws) (h : Interspersed ws cs)
include ho h

theorem Orderly.fallsInto_iff (vs : List (List Char)) : FallsInto cs vs ↔ vs = ws :=
  ⟨fun hv => hv.unique (ho.fallsInto h), fun he => he ▸ ho.fallsInto h⟩

theorem Orderly.parse_body {ds : List Char} {b : Body} (hd : Interspersed ws ds)
    (hb : Body.parse (String.ofList cs) = .ok b) : Body.parse (String.ofList ds) = .ok b := by
  rw [Body.parse_iff_backtrack, String.toList_ofList] at hb ⊢
  exact takes_of_matches (matches_closedBody (.inl rfl) (.inl rfl) (ho.alike h hd)) hb

theorem Orderly.parse_rule {ds : List Char} {r : Rule} (hd : Interspersed ws ds)
    (hr : Rule.parse (String.ofList cs) = .ok r) : Rule.parse (String.ofList ds) = .ok r := by
  rw [Rule.parse_iff_backtrack, String.toList_ofList] at hr ⊢
  exact takes_of_matches (matches_rule (.inl rfl) (.inl rfl) (ho.alike h hd)) hr

end

/-- **Junk makes no difference.** A well-formed body or rule, its conjunctions nested to the left,
is parsed from the tokens of its canonical text with any junk around each of them. -/
theorem parse_interspersed :
    (∀ b : Body, b.WellFormed → b.leftNested = b →
      ∃ ws, (∀ vs, FallsInto b.chars vs ↔ vs = ws) ∧
      ∀ cs, Interspersed ws cs → Body.parse (String.ofList cs) = .ok b) ∧
    ∀ r : Rule, r.WellFormed → r.leftNested = r →
      ∃ ws, (∀ vs, FallsInto r.chars vs ↔ vs = ws) ∧
      ∀ cs, Interspersed ws cs → Rule.parse (String.ofList cs) = .ok r := by
  constructor
  · intro b hb hn
    obtain ⟨ws, ho, hcanonical⟩ := hb.tokenized .done (.inr (by simp)) (.done (.ended .none))
    rw [List.append_nil] at hcanonical
    have htext : Body.parse (String.ofList b.chars) = .ok b := by
      have hparse := hb.parse_text
      rwa [hn] at hparse
    exact ⟨ws, ho.fallsInto_iff hcanonical, fun cs h => ho.parse_body hcanonical h htext⟩
  · intro r hr hn
    obtain ⟨ws, ho, hcanonical⟩ := hr.tokenized
    have htext : Rule.parse (String.ofList r.chars) = .ok r := by
      have hparse := hr.parse_text
      rwa [hn] at hparse
    exact ⟨ws, ho.fallsInto_iff hcanonical, fun cs h => ho.parse_rule hcanonical h htext⟩

theorem parse_interspersed_of_sample :
    (∃ ws, FallsInto (Body.chars (.neg (.atom ⟨"q", []⟩))) ws ∧
      Interspersed ws "not\t/* ( */(q) // )".toList ∧
      Body.parse "not\t/* ( */(q) // )" = .ok (.neg (.atom ⟨"q", []⟩))) ∧
    ∃ ws, FallsInto (Rule.chars ⟨⟨"p", []⟩, .neg (.atom ⟨"q", []⟩)⟩) ws ∧
      Interspersed ws "/* p. */p% :-\n :-not// (\r\n(q\t) . % p".toList ∧
      Rule.parse "/* p. */p% :-\n :-not// (\r\n(q\t) . % p" =
        .ok ⟨⟨"p", []⟩, .neg (.atom ⟨"q", []⟩)⟩ := by
  obtain ⟨hbody, hrule⟩ := parse_interspersed
  have hp : Atom.WellFormed ⟨"p", []⟩ := ⟨by decide, by decide, by simp⟩
  have hq : Atom.WellFormed ⟨"q", []⟩ := ⟨by decide, by decide, by simp⟩
  have htab : IsJunk ['\t'] := .blank rfl .none
  have hblank : IsJunk [' '] := .blank rfl .none
  constructor
  · obtain ⟨ws, hws, hparse⟩ := hbody (.neg (.atom ⟨"q", []⟩)) (.neg (.atom hq)) rfl
    have ho : Orderly 0 [['n', 'o', 't'], ['('], ['q'], [')']] := by
      refine orderly_word (.lower rfl) (.inr (by simp)) (.token (.inr (by decide)) (by simp) ?_)
      exact orderly_word (.lower rfl) (.inr (by simp))
        (.token (.inr (by decide)) (by simp [depthBehind]) .done)
    have hcanonical : Interspersed [['n', 'o', 't'], ['('], ['q'], [')']] "not(q)".toList := by
      have hclose : Interspersed [[')']] [')'] := Interspersed.cons (.done (.ended .none))
      exact .cons (w := ['n', 'o', 't']) (.cons (w := ['(']) (.cons (w := ['q']) hclose))
    have hfalls := ho.fallsInto hcanonical
    have he := (hws _).mp hfalls
    subst he
    have hblock : IsJunk "\t/* ( */".toList :=
      .blank rfl (.block (w := [' ', '(', ' ']) (by decide) .none)
    have hlast : IsLastJunk " // )".toList :=
      .comment hblank (.inr rfl) (w := [' ', ')']) (by decide) (by decide)
    have hi : Interspersed [['n', 'o', 't'], ['('], ['q'], [')']] "not\t/* ( */(q) // )".toList :=
      .cons (w := ['n', 'o', 't'])
        (.token hblock (.cons (w := ['q']) (.cons (w := [')']) (.done hlast))))
    exact ⟨_, hfalls, hi, hparse _ hi⟩
  · obtain ⟨ws, hws, hparse⟩ :=
      hrule ⟨⟨"p", []⟩, .neg (.atom ⟨"q", []⟩)⟩ ⟨hp, .neg (.atom hq)⟩ rfl
    have ho : Orderly 0 [['p'], [':', '-'], ['n', 'o', 't'], ['('], ['q'], [')'], ['.']] := by
      refine orderly_word (.lower rfl) (.inr (by simp)) (.token (.inr (by decide)) (by simp) ?_)
      refine orderly_word (.lower rfl) (.inr (by simp)) (.token (.inr (by decide)) (by simp) ?_)
      refine orderly_word (.lower rfl) (.inr (by simp))
        (.token (.inr (by decide)) (by simp [depthBehind]) ?_)
      exact .token (.inr (by decide)) (by simp) .done
    have hcanonical : Interspersed [['p'], [':', '-'], ['n', 'o', 't'], ['('], ['q'], [')'], ['.']]
        "p :- not(q).".toList := by
      have hperiod : Interspersed [['.']] ['.'] := Interspersed.cons (.done (.ended .none))
      have hgroup : Interspersed [['('], ['q'], [')'], ['.']] "(q).".toList :=
        .cons (w := ['(']) (.cons (w := ['q']) (.cons (w := [')']) hperiod))
      exact .cons (w := ['p'])
        (.blank (.cons (w := [':', '-']) (.blank (.cons (w := ['n', 'o', 't']) hgroup))))
    have hfalls := ho.fallsInto hcanonical
    have he := (hws _).mp hfalls
    subst he
    have hblock : IsJunk "/* p. */".toList := .block (w := [' ', 'p', '.', ' ']) (by decide) .none
    have hline : IsJunk "% :-\n ".toList :=
      .line (.inl rfl) (w := [' ', ':', '-']) (by decide) (by decide) (.inl rfl) hblank
    have hopen : IsJunk "// (\r\n".toList :=
      .line (.inr rfl) (w := [' ', '(']) (by decide) (by decide) (.inr rfl) .none
    have hlast : IsLastJunk " % p".toList :=
      .comment hblank (.inl rfl) (w := [' ', 'p']) (by decide) (by decide)
    have hgroup : Interspersed [['q'], [')'], ['.']] "q\t) . % p".toList :=
      .cons (w := ['q']) (.token htab (.token hblank (.done hlast)))
    have hi : Interspersed [['p'], [':', '-'], ['n', 'o', 't'], ['('], ['q'], [')'], ['.']]
        "/* p. */p% :-\n :-not// (\r\n(q\t) . % p".toList :=
      .token hblock (.token hline (.cons (w := ['n', 'o', 't']) (.token hopen hgroup)))
    exact ⟨_, hfalls, hi, hparse _ hi⟩

end Clausal
