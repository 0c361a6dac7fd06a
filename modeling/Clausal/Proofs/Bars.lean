import Mathlib
import Clausal.Proofs.Continuation
import Clausal.Proofs.TermText

/-!
# Bars in lists

A bar cuts a list in two: the elements in front of it, and a list of those behind
it. It leaves no trace in what is read. The elements behind the bar are spliced,
but no element is, even where it is a list itself.
-/

namespace Clausal

open Lexeme Reader

/-- The texts are those of the terms, one by one. -/
def Elements (heads : List String) (ts : List Term) : Prop :=
  List.Forall₂ (fun text t => Term.parse text = .ok t) heads ts

def listText (heads : List String) : String := "[" ++ "\n,".intercalate heads ++ "\n]"

def barredText (heads : List String) (tail : String) : String :=
  "[" ++ "\n,".intercalate heads ++ "\n|" ++ tail ++ "\n]"

/-- The text writes a list of these elements, with any number of bars at any places. -/
inductive Writes : List Term → String → Prop
  | plain {heads ts} : Elements heads ts → Writes ts (listText heads)
  | bar {heads ts us tail} : heads ≠ [] → Elements heads ts → Writes us tail →
      Writes (ts ++ us) (barredText heads tail)
  | barVariable {heads ts name} : heads ≠ [] → Elements heads ts →
      isUpperName name.toList = true →
      Writes (ts ++ [.var name]) (barredText heads name)

/-! ## Parsing -/

section
variable {heads : List String} {ts : List Term} (h : Elements heads ts) (hne : heads ≠ [])
include h hne

theorem derives_elements (tail : List Char) :
    ∃ rest, Derives (.sequence ts) (("\n,".intercalate heads).toList ++ '\n' :: tail) rest ∧
    Junk rest tail := by
  induction h with
  | nil => exact absurd rfl hne
  | @cons head t heads ts ht hts ih =>
    cases hts with
    | nil =>
      obtain ⟨rest, hd, hj⟩ := derives_of_parse tail ht
      exact ⟨rest, .one (by simpa using hd), hj⟩
    | @cons head' t' heads ts ht' hts =>
      obtain ⟨rest, hlater, hj⟩ := ih (by simp)
      obtain ⟨r, hd, hr⟩ :=
        derives_of_parse (',' :: (("\n,".intercalate (head' :: heads)).toList ++ '\n' :: tail)) ht
      refine ⟨rest, ?_, hj⟩
      have hsequence := Derives.more hd hr hlater
      rw [String.intercalate_cons_cons]
      simpa using hsequence

theorem parseList_barred {tail : String} {us : List Term} (ht : Term.parseList tail = .ok us) :
    Term.parseList (barredText heads tail) = .ok (ts ++ us) := by
  obtain ⟨s, hlist, hs⟩ := derives_of_parseList [']'] ht
  obtain ⟨r, hitems, hr⟩ := derives_elements h hne ('|' :: (tail.toList ++ '\n' :: [']']))
  have hbar := Derives.barList .none hitems hr hlist hs
  exact parseList_of_derives (by simpa [barredText] using hbar) .none

theorem parseList_barred_variable {name : String} (hn : isUpperName name.toList = true) :
    Term.parseList (barredText heads name) = .ok (ts ++ [.var name]) := by
  obtain ⟨r, hitems, hr⟩ := derives_elements h hne ('|' :: (name.toList ++ '\n' :: [']']))
  have hbar := Derives.barVariable .none hitems hr .none hn (.blank rfl .none)
  rw [String.ofList_toList] at hbar
  exact parseList_of_derives (by simpa [barredText] using hbar) .none

end

theorem parseList_plain {heads : List String} {ts : List Term} (h : Elements heads ts) :
    Term.parseList (listText heads) = .ok ts := by
  by_cases hne : heads = []
  · subst hne
    cases h
    exact parseList_of_derives (.emptyList .none (.blank rfl .none)) .none
  · obtain ⟨r, hitems, hr⟩ := derives_elements h hne [']']
    have hlist := Derives.items .none hitems hr
    exact parseList_of_derives (by simpa [listText] using hlist) .none

/-- However a list is written, its elements are read. -/
theorem Writes.parse {ts : List Term} {text : String} (h : Writes ts text) :
    Term.parseList text = .ok ts := by
  induction h with
  | plain h => exact parseList_plain h
  | bar hne h _ ih => exact parseList_barred h hne ih
  | barVariable hne h hn => exact parseList_barred_variable h hne hn

theorem Term.list_text (ts : List Term) :
    (Term.list ts).text = "[" ++ ", ".intercalate (ts.map Term.text) ++ "]" := by
  apply String.toList_injective
  simp [Term.text, Term.chars, Text.listed, charsOf_eq_map, String.toList_intercalate,
    Function.comp_def]

/-- **Bars only regroup.** The elements behind a bar, those of a list or a single variable, follow
the ones in front of it. Hence all texts that write the same elements are parsed as one list, whose
canonical text has no bar. -/
theorem parse_barred :
    (∀ {heads ts tail us}, heads ≠ [] → Elements heads ts → Term.parseList tail = .ok us →
      Term.parseList (barredText heads tail) = .ok (ts ++ us)) ∧
    (∀ {heads ts name}, heads ≠ [] → Elements heads ts → isUpperName name.toList = true →
      Term.parseList (barredText heads name) = .ok (ts ++ [.var name])) ∧
    ∀ {ts text text'}, Writes ts text → Writes ts text' →
      Term.parseList text = .ok ts ∧ Term.parseList text' = .ok ts ∧
      (Term.list ts).text = "[" ++ ", ".intercalate (ts.map Term.text) ++ "]" := by
  refine ⟨fun hne h => parseList_barred h hne, fun hne h => parseList_barred_variable h hne,
    fun h h' => ?_⟩
  exact ⟨h.parse, h'.parse, Term.list_text _⟩

theorem parse_barred_of_sample :
    Term.parseList "[a\n,[b|C] % |\n|[X|Y]\n]" =
      .ok [.const (.str "a"), .list [.const (.str "b"), .var "C"], .var "X", .var "Y"] ∧
    Term.parseList "[a\n|X\n]" = .ok [.const (.str "a"), .var "X"] ∧
    Writes [.const (.str "a"), .var "X"] "[a\n|X\n]" ∧
    Writes [.const (.str "a"), .var "X"] "[a\n|[X\n|[\n]\n]\n]" ∧
    Term.parseList "[a\n|[X\n|[\n]\n]\n]" = .ok [.const (.str "a"), .var "X"] := by
  obtain ⟨hlist, hvariable, hwrites⟩ := parse_barred
  have ha : Term.parse "a" = .ok (.const (.str "a")) := by cbv
  have hb : Term.parse "[b|C] % |" = .ok (.list [.const (.str "b"), .var "C"]) := by cbv
  have hx : Term.parse "X" = .ok (.var "X") := by cbv
  have htail : Term.parseList "[X|Y]" = .ok [.var "X", .var "Y"] := by cbv
  have hmixed : "[a\n,[b|C] % |\n|[X|Y]\n]" = barredText ["a", "[b|C] % |"] "[X|Y]" := by rfl
  have hlast : "[a\n|X\n]" = barredText ["a"] "X" := by rfl
  have hnested : "[a\n|[X\n|[\n]\n]\n]" = barredText ["a"] (barredText ["X"] (listText [])) := by
    rfl
  have hbar : Writes [.const (.str "a"), .var "X"] "[a\n|X\n]" := by
    rw [hlast]
    exact .barVariable (by simp) (.cons ha .nil) (by decide)
  have hbars : Writes [.const (.str "a"), .var "X"] "[a\n|[X\n|[\n]\n]\n]" := by
    rw [hnested]
    exact .bar (by simp) (.cons ha .nil) (.bar (by simp) (.cons hx .nil) (.plain .nil))
  refine ⟨?_, ?_, hbar, hbars, (hwrites hbar hbars).2.1⟩
  · rw [hmixed]
    exact hlist (by simp) (.cons ha (.cons hb .nil)) htail
  · rw [hlast]
    exact hvariable (by simp) (.cons ha .nil) (by decide)

end Clausal
