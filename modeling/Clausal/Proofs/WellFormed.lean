import Clausal.Formula.Basic
import Clausal.Lexeme

/-!
# Well-formed values

The values whose canonical text can be read back: every name is one that the
grammar knows, every float is finite, and quotes stand where a bare name would
mean something else.
-/

namespace Clausal

open Lexeme

/-- Quotes and what stands between them, which begins with a letter or digit and needs the
quotes. -/
inductive IsQuoted : List Char → Prop
  | mk {quote c inner} : isQuote quote = true →
      (∀ d ∈ c :: inner, isInside quote d = true) →
      c.isAlphanum = true → isPlain (c :: inner) = false →
      IsQuoted (quote :: c :: inner ++ [quote])

inductive Constant.WellFormed : Constant → Prop
  | bool {b} : WellFormed (.bool b)
  | int {n} : WellFormed (.int n)
  | float {x} : x.isFinite = true → WellFormed (.float x)
  | plain {s} : isPlain s.toList = true → WellFormed (.str s)
  | quoted {s} : IsQuoted s.toList → WellFormed (.str s)

inductive Term.WellFormed : Term → Prop
  | var {name} : isUpperName name.toList = true → WellFormed (.var name)
  | const {c} : c.WellFormed → WellFormed (.const c)
  | call {name args values} : isLowerName name.toList = true → (∀ t ∈ args, WellFormed t) →
      (∀ t ∈ values, WellFormed t) → WellFormed (.compound name args values)
  | tuple {args} : args ≠ [] → (∀ t ∈ args, WellFormed t) →
      WellFormed (.compound "" args [])
  | list {items} : (∀ t ∈ items, WellFormed t) → WellFormed (.list items)

def Compound.WellFormed (f : Compound) : Prop := f.toTerm.WellFormed

structure Atom.WellFormed (a : Atom) : Prop where
  name : isLowerName a.name.toList = true
  name_ne : a.name ≠ "not"
  args : ∀ t ∈ a.args, t.WellFormed

inductive Body.WellFormed : Body → Prop
  | atom {a} : a.WellFormed → WellFormed (.atom a)
  | conj {left right} : WellFormed left → WellFormed right → WellFormed (.conj left right)
  | neg {inner} : WellFormed inner → WellFormed (.neg inner)

structure Rule.WellFormed (r : Rule) : Prop where
  head : r.head.WellFormed
  body : r.body.WellFormed

/-! ## Conjunctions to the left -/

namespace Body

/-- The same literals in the same order, with every conjunction nested to the left. -/
def leftNested : Body → Body
  | atom a => atom a
  | conj left right => left.leftNested.join right.leftNested.literals
  | neg inner => neg inner.leftNested

theorem join_append (first : Body) (others more : List Body) :
    first.join (others ++ more) = (first.join others).join more := List.foldl_append

theorem literals_join (first : Body) (others : List Body) :
    (first.join others).literals = first.literals ++ others.flatMap literals := by
  induction others generalizing first with
  | nil => simp [join]
  | cons b others ih =>
    show (join (conj first b) others).literals = _
    rw [ih (conj first b)]
    simp [literals]

/-- A body that is no conjunction. -/
def IsLiteral (b : Body) : Prop := b.literals = [b]

theorem flatMap_literals {ls : List Body} (h : ∀ l ∈ ls, l.IsLiteral) :
    ls.flatMap literals = ls := by
  induction ls with
  | nil => rfl
  | cons l ls ih =>
    have hl : l.literals = [l] := h l (by simp)
    rw [List.flatMap_cons, hl, ih fun m hm => h m (by simp [hm])]
    rfl

theorem isLiteral_of_mem {b l : Body} (h : l ∈ b.literals) : l.IsLiteral := by
  induction b with
  | atom a => rw [List.mem_singleton.mp h]; rfl
  | neg inner => rw [List.mem_singleton.mp h]; rfl
  | conj left right ihl ihr =>
    rcases List.mem_append.mp h with h | h
    · exact ihl h
    · exact ihr h

theorem exists_literals (b : Body) : ∃ l ls, b.literals = l :: ls := by
  induction b with
  | atom a => exact ⟨_, _, rfl⟩
  | neg inner => exact ⟨_, _, rfl⟩
  | conj left right ihl _ =>
    obtain ⟨l, ls, h⟩ := ihl
    exact ⟨l, ls ++ right.literals, by simp [literals, h]⟩

theorem literals_conj_ne (left right l : Body) : (conj left right).literals ≠ [l] := by
  intro h
  obtain ⟨k, ks, hk⟩ := left.exists_literals
  obtain ⟨m, ms, hm⟩ := right.exists_literals
  have hlen := congrArg List.length h
  simp only [literals, hk, hm, List.length_append, List.length_cons, List.length_nil] at hlen
  omega

theorem eq_of_literals {b l : Body} (h : b.literals = [l]) : b = l := by
  cases b with
  | conj left right => exact absurd h (literals_conj_ne left right l)
  | _ => simpa [literals] using h

theorem IsLiteral.leftNested {l : Body} (h : l.IsLiteral) : l.leftNested.IsLiteral := by
  cases l with
  | atom a => rfl
  | neg inner => rfl
  | conj left right => exact absurd h (literals_conj_ne left right _)

theorem literals_join_leftNested {l : Body} {ls : List Body} (h : ∀ m ∈ l :: ls, m.IsLiteral) :
    (l.leftNested.join (ls.map leftNested)).literals = l.leftNested :: ls.map leftNested := by
  have hl : l.leftNested.literals = [l.leftNested] := (h l (by simp)).leftNested
  rw [literals_join, hl, flatMap_literals fun x hx => ?_]
  · rfl
  · obtain ⟨m, hm, he⟩ := List.mem_map.mp hx
    exact he ▸ (h m (by simp [hm])).leftNested

theorem leftNested_of_literals {b l : Body} {ls : List Body} (h : b.literals = l :: ls) :
    b.leftNested = l.leftNested.join (ls.map leftNested) := by
  induction b generalizing l ls with
  | atom a =>
    simp only [literals, List.cons.injEq] at h
    rw [← h.1, ← h.2]; rfl
  | neg inner =>
    simp only [literals, List.cons.injEq] at h
    rw [← h.1, ← h.2]; rfl
  | conj left right ihl ihr =>
    obtain ⟨k, ks, hk⟩ := left.exists_literals
    obtain ⟨m, ms, hm⟩ := right.exists_literals
    have hlits := literals_join_leftNested fun x hx => isLiteral_of_mem (b := right) (hm ▸ hx)
    rw [literals, hk, hm, List.cons_append, List.cons.injEq] at h
    show left.leftNested.join right.leftNested.literals = _
    rw [← h.1, ← h.2, ihl hk, ihr hm, hlits, List.map_append, List.map_cons, join_append]

/-- Whatever its nesting, a body has the literals of its left-nested form. -/
theorem literals_leftNested (b : Body) : b.leftNested.literals = b.literals.map leftNested := by
  obtain ⟨l, ls, h⟩ := b.exists_literals
  rw [leftNested_of_literals h, h, List.map_cons]
  exact literals_join_leftNested fun x hx => isLiteral_of_mem (h ▸ hx)

end Body

theorem Body.WellFormed.of_mem {b l : Body} (h : b.WellFormed) (hl : l ∈ b.literals) :
    l.WellFormed := by
  induction h with
  | atom ha => rw [List.mem_singleton.mp hl]; exact .atom ha
  | neg hi _ => rw [List.mem_singleton.mp hl]; exact .neg hi
  | conj _ _ ihl ihr =>
    rcases List.mem_append.mp hl with hl | hl
    · exact ihl hl
    · exact ihr hl

end Clausal
