import Mathlib
import Clausal.Proofs.EntryPoints
import Clausal.Proofs.FormulaShape
import Clausal.Proofs.Layout

/-!
# Printing and parsing

The canonical text of a well-formed value is parsed as that value, up to the
nesting of conjunctions. What parsing itself builds is well formed and nested as
parsing nests, so its text is parsed as the same value again.
-/

namespace Clausal

open Reader Reader.Unbounded

/-! ## Well-formed values -/

theorem Term.WellFormed.parse_text {t : Term} (h : t.WellFormed) : Term.parse t.text = .ok t := by
  rw [Term.parse_iff]
  unfold Term.text
  rw [String.toList_ofList]
  have hd := h.printed [] follows_nil
  rw [List.append_nil] at hd
  exact ⟨[], reads_of_derives hd (avoids_of_nil rfl), rfl⟩

theorem parseList_text {items : List Term} (h : ∀ t ∈ items, t.WellFormed) :
    Term.parseList (Term.list items).text = .ok items := by
  have hd := derives_list_text (fun t ht => (h t ht).printed) []
  rw [List.append_nil] at hd
  apply parseList_of_derives _ .none
  rwa [Term.text, String.toList_ofList]

theorem Compound.WellFormed.parse_text {f : Compound} (h : f.WellFormed) :
    Compound.parse f.text = .ok f := by
  rw [Compound.parse_iff]
  unfold Compound.text Term.text
  rw [String.toList_ofList]
  have hd := h.derives follows_nil
  rw [List.append_nil] at hd
  exact ⟨[], reads_of_derives hd (avoids_of_nil rfl), rfl⟩

theorem Atom.WellFormed.parse_text {a : Atom} (h : a.WellFormed) : Atom.parse a.text = .ok a := by
  rw [Atom.parse_iff]
  unfold Atom.text
  rw [String.toList_ofList]
  have hj : Junk a.chars (a.chars ++ []) := by rw [List.append_nil]; exact .none
  exact ⟨[], atom_of_text h hj (stops_nil _) (avoids_of_nil rfl), rfl⟩

theorem Body.WellFormed.parse_text {b : Body} (h : b.WellFormed) :
    Body.parse b.text = .ok b.leftNested := by
  rw [Body.parse_iff]
  unfold Body.text
  rw [String.toList_ofList]
  have hj : Junk b.chars (b.chars ++ []) := by rw [List.append_nil]; exact .none
  exact takes_closedBody.mpr ⟨[], body_of_text h hj ends_nil (avoids_of_nil rfl), .inl rfl⟩

/-- **Print, then parse.** Every well-formed term, list, function and atom is parsed from its text.
So is every body and rule over well-formed atoms, with its conjunctions nested to the left. -/
theorem parse_text_of_wellFormed :
    (∀ t : Term, t.WellFormed → Term.parse t.text = .ok t) ∧
    (∀ items : List Term, (∀ t ∈ items, t.WellFormed) →
      Term.parseList (Term.list items).text = .ok items) ∧
    (∀ f : Compound, f.WellFormed → Compound.parse f.text = .ok f) ∧
    (∀ a : Atom, a.WellFormed → Atom.parse a.text = .ok a) ∧
    (∀ b : Body, b.WellFormed → Body.parse b.text = .ok b.leftNested) ∧
    ∀ r : Rule, r.WellFormed → Rule.parse r.text = .ok ⟨r.head, r.body.leftNested⟩ :=
  ⟨fun _ h => h.parse_text, fun _ h => parseList_text h, fun _ h => h.parse_text,
    fun _ h => h.parse_text,
    fun _ h => h.parse_text, fun _ h => h.parse_text⟩

theorem parse_text_of_samples :
    Term.parse (Term.const (.float ⟨true, 0x3fe0000000000000⟩)).text =
      .ok (.const (.float ⟨true, 0x3fe0000000000000⟩)) ∧
    Term.parseList (Term.list [.var "X", .const (.str "'A b'")]).text =
      .ok [.var "X", .const (.str "'A b'")] ∧
    Compound.parse (Compound.text ⟨"f", [], [.compound "" [.var "X"] []]⟩) =
      .ok ⟨"f", [], [.compound "" [.var "X"] []]⟩ ∧
    Atom.parse (Atom.text ⟨"p", [.const (.int (-1))]⟩) = .ok ⟨"p", [.const (.int (-1))]⟩ ∧
    Body.parse (Body.conj (.atom ⟨"p", []⟩)
        (.conj (.neg (.atom ⟨"q", []⟩)) (.atom ⟨"r", []⟩))).text =
      .ok (.conj (.conj (.atom ⟨"p", []⟩) (.neg (.atom ⟨"q", []⟩))) (.atom ⟨"r", []⟩)) ∧
    Rule.parse (Rule.text ⟨⟨"p", []⟩, .neg (.conj (.atom ⟨"q", []⟩) (.atom ⟨"r", []⟩))⟩) =
      .ok ⟨⟨"p", []⟩, .neg (.conj (.atom ⟨"q", []⟩) (.atom ⟨"r", []⟩))⟩ := by
  obtain ⟨hterm, hlist, hcompound, hatom, hbody, hrule⟩ := parse_text_of_wellFormed
  have hp : Atom.WellFormed ⟨"p", []⟩ := ⟨by decide, by decide, by simp⟩
  have hq : Atom.WellFormed ⟨"q", []⟩ := ⟨by decide, by decide, by simp⟩
  have hr : Atom.WellFormed ⟨"r", []⟩ := ⟨by decide, by decide, by simp⟩
  have hx : (Term.var "X").WellFormed := .var (by decide)
  have hquoted : IsQuoted ('\'' :: 'A' :: [' ', 'b'] ++ ['\'']) :=
    .mk rfl (List.all_eq_true.mp rfl) rfl rfl
  refine ⟨hterm _ (.const (.float (by decide))), hlist _ ?_, hcompound _ ?_, hatom _ ?_,
    hbody _ ?_, hrule _ ?_⟩
  · exact List.forall_mem_cons.mpr
      ⟨hx, List.forall_mem_cons.mpr ⟨.const (.quoted hquoted), by simp⟩⟩
  · exact .call (by decide) (by simp) (List.forall_mem_cons.mpr
      ⟨.tuple (by simp) (List.forall_mem_cons.mpr ⟨hx, by simp⟩), by simp⟩)
  · exact ⟨by decide, by decide, List.forall_mem_cons.mpr ⟨.const .int, by simp⟩⟩
  · exact .conj (.atom hp) (.conj (.neg (.atom hq)) (.atom hr))
  · exact ⟨hp, .neg (.conj (.atom hq) (.atom hr))⟩

/-! ## Parsed values -/

section
variable {text : String}

theorem Term.wellFormed_of_parse {t : Term} (h : Term.parse text = .ok t)
    (hf : NoInfinity t.constants) :
    t.WellFormed := by
  obtain ⟨rest, ht, -⟩ := Term.parse_iff.mp h
  exact (derives_of_term ht).shaped hf

theorem wellFormed_of_parseList {items : List Term} (h : Term.parseList text = .ok items)
    (hf : NoInfinity (constantsOf items)) : ∀ t ∈ items, t.WellFormed := by
  obtain ⟨rest, hi, -⟩ := Term.parseList_iff.mp h
  exact (derives_of_list hi).shaped.wellFormed hf

theorem Compound.wellFormed_of_parse {f : Compound} (h : Compound.parse text = .ok f)
    (hf : NoInfinity f.constants) : f.WellFormed := by
  obtain ⟨rest, hc, -⟩ := Compound.parse_iff.mp h
  exact (derives_of_compound hc).shaped hf

theorem Atom.wellFormed_of_parse {a : Atom} (h : Atom.parse text = .ok a)
    (hf : NoInfinity a.constants) :
    a.WellFormed := by
  obtain ⟨rest, ha, -⟩ := Atom.parse_iff.mp h
  exact atom_shaped ha hf

theorem Body.shaped_of_parse {b : Body} (h : Body.parse text = .ok b) : b.Shaped := by
  obtain ⟨rest, hb, -⟩ := takes_closedBody.mp (Body.parse_iff.mp h)
  exact body_shaped hb

theorem Rule.shaped_of_parse {r : Rule} (h : Rule.parse text = .ok r) :
    (NoInfinity r.head.constants → r.head.WellFormed) ∧ r.body.Shaped := by
  obtain ⟨rest, hr, -⟩ := Rule.parse_iff.mp h
  simp only [Unbounded.rule, bind_eq_done, pure_eq_done] at hr
  obtain ⟨head, s, hh, u, q, -, b, t, hb, v, w, -, he, -⟩ := hr
  subst he
  exact ⟨atom_shaped hh, body_shaped hb⟩

end

/-! ## Stability -/

section
variable {α : Type} (parse : String → Except ReadError α)
  (constants : α → List Constant) (text : α → String)

/-- Whatever is parsed without infinite floats is parsed from its own text again. -/
def Stable : Prop :=
  ∀ s v, parse s = .ok v → NoInfinity (constants v) → parse (text v) = .ok v

end

theorem stable_body : Stable Body.parse Body.constants Body.text := by
  intro s b h hf
  have hb := Body.shaped_of_parse h
  rw [(hb.wellFormed hf).parse_text, hb.leftNested]

theorem stable_rule : Stable Rule.parse Rule.constants Rule.text := by
  intro s r h hf
  obtain ⟨hhead, hbody⟩ := Rule.shaped_of_parse h
  obtain ⟨hfh, hfb⟩ := noInfinity_union.mp hf
  have hr : r.WellFormed := ⟨hhead hfh, hbody.wellFormed hfb⟩
  rw [hr.parse_text, Rule.leftNested, hbody.leftNested]

theorem stable_formula : Stable Formula.parse Formula.constants Formula.text := by
  intro s φ h hf
  rw [Formula.parse_iff] at h ⊢
  cases φ with
  | body b =>
    have hb : Body.parse b.text = .ok b :=
      stable_body s b (Body.parse_iff.mpr (takes_formula_body.mp h)) hf
    exact takes_formula_body.mpr (Body.parse_iff.mp hb)
  | rule r =>
    have hr : Rule.parse r.text = .ok r :=
      stable_rule s r (Rule.parse_iff.mpr (takes_formula_rule.mp h)) hf
    exact takes_formula_rule.mpr (Rule.parse_iff.mp hr)

/-- **Parse, print, parse.** Each entry point parses the text of what it has parsed as the same
value. -/
theorem parse_stable :
    Stable Term.parse Term.constants Term.text ∧
    Stable Term.parseList constantsOf (fun items => (Term.list items).text) ∧
    Stable Compound.parse Compound.constants Compound.text ∧
    Stable Atom.parse Atom.constants Atom.text ∧
    Stable Body.parse Body.constants Body.text ∧
    Stable Rule.parse Rule.constants Rule.text ∧
    Stable Formula.parse Formula.constants Formula.text := by
  refine ⟨?_, ?_, ?_, ?_, stable_body, stable_rule, stable_formula⟩
  · exact fun s t h hf => (Term.wellFormed_of_parse h hf).parse_text
  · exact fun s items h hf => parseList_text (wellFormed_of_parseList h hf)
  · exact fun s f h hf => (Compound.wellFormed_of_parse h hf).parse_text
  · exact fun s a h hf => (Atom.wellFormed_of_parse h hf).parse_text

theorem parse_stable_of_samples :
    Term.parse (Term.const (.float ⟨true, 0x3fe0000000000000⟩)).text =
      .ok (.const (.float ⟨true, 0x3fe0000000000000⟩)) ∧
    Term.parseList (Term.list [.var "X", .var "Y"]).text = .ok [.var "X", .var "Y"] ∧
    Compound.parse (Compound.text ⟨"f", [], [.const (.str "'A b'")]⟩) =
      .ok ⟨"f", [], [.const (.str "'A b'")]⟩ ∧
    Atom.parse (Atom.text ⟨"lessThan", [.var "X", .const (.int 1)]⟩) =
      .ok ⟨"lessThan", [.var "X", .const (.int 1)]⟩ ∧
    Body.parse (Body.conj (.atom ⟨"p", []⟩) (.neg (.atom ⟨"q", []⟩))).text =
      .ok (.conj (.atom ⟨"p", []⟩) (.neg (.atom ⟨"q", []⟩))) ∧
    Rule.parse (Rule.text ⟨⟨"p", []⟩, .neg (.atom ⟨"q", []⟩)⟩) =
      .ok ⟨⟨"p", []⟩, .neg (.atom ⟨"q", []⟩)⟩ ∧
    Formula.parse (Formula.rule ⟨⟨"p", []⟩, .neg (.atom ⟨"q", []⟩)⟩).text =
      .ok (.rule ⟨⟨"p", []⟩, .neg (.atom ⟨"q", []⟩)⟩) := by
  obtain ⟨hterm, hlist, hcompound, hatom, hbody, hrule, hformula⟩ := parse_stable
  have hfloat : (Term.const (.float ⟨true, 0x3fe0000000000000⟩)).WellFormed :=
    .const (.float (by decide))
  refine ⟨hterm _ _ hfloat.parse_text (by decide), hlist "[X | [Y]]" _ ?_ (by decide),
    hcompound "f() = 'A b'" _ ?_ (by decide), hatom "X < 1" _ ?_ (by decide),
    hbody "p, \\+ (q)" _ ?_ (by decide),
    hrule "p :- not q." _ ?_ (by decide), hformula "p :- not q." _ ?_ (by decide)⟩
  all_goals cbv

end Clausal
