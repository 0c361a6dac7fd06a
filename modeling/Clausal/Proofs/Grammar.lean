import Clausal.Proofs.Bound

/-!
# The grammar of terms

A grammar without order among its alternatives and without backtracking.
`Derives φ cs rest` says that the text `cs` begins with the phrase `φ` and goes on
with `rest`. Junk may stand before every token, and a name, numeral or literal
that is a term by itself is a longest token.
-/

namespace Clausal

open Lexeme Reader

inductive Phrase
  | term (t : Term)
  | compound (f : Compound)
  | arguments (ts : List Term)
  | values (ts : List Term)
  | group (ts : List Term)
  | list (items : List Term)
  | sequence (ts : List Term)

inductive Derives : Phrase → List Char → List Char → Prop
  | token {t w cs rest} : Junk cs (w ++ rest) → Longest w rest → meaning? w = some t →
      Derives (.term t) cs rest
  | compound {f cs rest} : Derives (.compound f) cs rest → Derives (.term f.toTerm) cs rest
  | list {items cs rest} : Derives (.list items) cs rest → Derives (.term (.list items)) cs rest
  -- calls and tuples
  | call {name args cs r rest} : Junk cs (name ++ r) → isLowerName name = true →
      Derives (.arguments args) r rest →
      Derives (.compound ⟨String.ofList name, args, []⟩) cs rest
  | valued {name args values cs r s rest} : Junk cs (name ++ r) → isLowerName name = true →
      Derives (.arguments args) r s → Derives (.values values) s rest →
      Derives (.compound ⟨String.ofList name, args, values⟩) cs rest
  | tuple {items cs rest} : Derives (.group items) cs rest →
      Derives (.compound (.tuple items)) cs rest
  | noArguments {cs r rest} : Junk cs ('(' :: r) → Junk r (')' :: rest) →
      Derives (.arguments []) cs rest
  | arguments {args cs rest} : Derives (.group args) cs rest → Derives (.arguments args) cs rest
  | severalValues {values cs r rest} : Junk cs ('=' :: r) → Derives (.group values) r rest →
      Derives (.values values) cs rest
  | oneValue {value cs r rest} : Junk cs ('=' :: r) → (∀ s, ¬ Junk r ('(' :: s)) →
      Derives (.term value) r rest → Derives (.values [value]) cs rest
  | group {items cs r s rest} : Junk cs ('(' :: r) → Derives (.sequence items) r s →
      Junk s (')' :: rest) →
      Derives (.group items) cs rest
  -- lists
  | emptyList {cs r rest} : Junk cs ('[' :: r) → Junk r (']' :: rest) →
      Derives (.list []) cs rest
  | items {items cs r s rest} : Junk cs ('[' :: r) → Derives (.sequence items) r s →
      Junk s (']' :: rest) →
      Derives (.list items) cs rest
  | barVariable {items name cs r s t u rest} : Junk cs ('[' :: r) →
      Derives (.sequence items) r s →
      Junk s ('|' :: t) → Junk t (name ++ u) → isUpperName name = true →
      Junk u (']' :: rest) →
      Derives (.list (items ++ [.var (String.ofList name)])) cs rest
  | barList {items tail cs r s t u rest} : Junk cs ('[' :: r) → Derives (.sequence items) r s →
      Junk s ('|' :: t) → Derives (.list tail) t u → Junk u (']' :: rest) →
      Derives (.list (items ++ tail)) cs rest
  -- one or more terms with commas between them
  | one {t cs rest} : Derives (.term t) cs rest → Derives (.sequence [t]) cs rest
  | more {t ts cs r s rest} : Derives (.term t) cs r → Junk r (',' :: s) →
      Derives (.sequence ts) s rest →
      Derives (.sequence (t :: ts)) cs rest

/-- Junk in front of a phrase is junk in front of its first token. -/
theorem Derives.of_junk {φ : Phrase} {cs ds rest : List Char} (hj : Junk cs ds)
    (h : Derives φ ds rest) :
    Derives φ cs rest := by
  induction h with
  | token h hw hm => exact .token (hj.trans h) hw hm
  | compound _ ih => exact .compound (ih hj)
  | list _ ih => exact .list (ih hj)
  | call h hn ha _ => exact .call (hj.trans h) hn ha
  | valued h hn ha hv _ _ => exact .valued (hj.trans h) hn ha hv
  | tuple _ ih => exact .tuple (ih hj)
  | noArguments h h' => exact .noArguments (hj.trans h) h'
  | arguments _ ih => exact .arguments (ih hj)
  | severalValues h hg _ => exact .severalValues (hj.trans h) hg
  | oneValue h hne ht _ => exact .oneValue (hj.trans h) hne ht
  | group h hs h' _ => exact .group (hj.trans h) hs h'
  | emptyList h h' => exact .emptyList (hj.trans h) h'
  | items h hs h' _ => exact .items (hj.trans h) hs h'
  | barVariable h hs hb hv hn h' _ => exact .barVariable (hj.trans h) hs hb hv hn h'
  | barList h hs hb hl h' _ _ => exact .barList (hj.trans h) hs hb hl h'
  | one _ ih => exact .one (ih hj)
  | more _ h hs ih _ => exact .more (ih hj) h hs

end Clausal
