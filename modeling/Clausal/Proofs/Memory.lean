import Clausal.Proofs.Occurrence

/-!
# Remembered contents

A construct may keep the sets of its contents once they have been asked for.
Each node has a cell for each set, empty when the node is built and filled when
the set is asked for the first time; the cells of its parts are filled on the
way. However a construct has been built and whatever has been asked before, the
answer is the contents.
-/

namespace Clausal

open Distinct

/-! ## Cells -/

/-- The cells of a construct and of all that is below it, each node with the positions that lead to
it. -/
abbrev Memory := List Nat → (k : Facet) → Option (List k.Member)

namespace Memory

/-- The cells of the `i`-th part. -/
def below (m : Memory) (i : Nat) : Memory := fun path => m (i :: path)

def replace (m : Memory) (i : Nat) (m' : Memory) : Memory
  | [] => m []
  | j :: path => if j = i then m' path else m (j :: path)

/-- The cell of the node itself is filled. -/
def fill (m : Memory) (k : Facet) (s : List k.Member) : Memory
  | [], k' => if h : k = k' then some (h ▸ s) else m [] k'
  | i :: path, k' => m (i :: path) k'

end Memory

/-- Single variables and constants have no cells. -/
def Construct.hasCells : Construct → Bool
  | term (.var _) => false
  | term (.const _) => false
  | _ => true

/-- What a construct adds to the contents of its parts. -/
def Construct.own (k : Facet) : Construct → List k.Member
  | term t => k.own t
  | _ => []

mutual

/-- The answer of a construct that is asked for its contents, and its cells after that. The cell of
a compound leaves the compound itself out. -/
def look (k : Facet) (c : Construct) (m : Memory) : List k.Member × Memory :=
  match m [] k with
  | some s => (union (c.own k) s, m)
  | none =>
    let inside := lookInside k c c.parts (fun _ hp => hp) 0 m
    (union (c.own k) inside.1, if c.hasCells then inside.2.fill k inside.1 else inside.2)
termination_by (sizeOf c, 1, 0)

/-- The parts from the `i`-th on are asked one after the other. -/
def lookInside (k : Facet) (c : Construct) (ps : List Construct) (hps : ∀ p ∈ ps, p ∈ c.parts)
    (i : Nat) (m : Memory) : List k.Member × Memory :=
  match ps with
  | [] => ([], m)
  | p :: ps =>
    let first := look k p (m.below i)
    let others := lookInside k c ps (fun q hq => hps q (List.mem_cons_of_mem p hq)) (i + 1)
      (m.replace i first.2)
    (union first.1 others.1, others.2)
termination_by (sizeOf c, 0, ps.length)
decreasing_by
  · have := sizeOf_of_mem_parts (hps p (by simp))
    exact Prod.Lex.left _ _ this
  · exact Prod.Lex.right _ (Prod.Lex.right _ (Nat.lt_succ_self _))

end

/-! ## Sound cells -/

/-- Whatever is in a cell is what the parts of its node contain. -/
inductive Sound : Construct → Memory → Prop
  | node {c m} : (∀ k s, m [] k = some s → ∀ a, a ∈ s ↔
      ∃ p ∈ c.parts, a ∈ p.contents k) →
      (∀ i p, c.parts[i]? = some p → Sound p (m.below i)) → Sound c m

namespace Sound

variable {c p : Construct} {m m' : Memory} {k : Facet} {i : Nat}

theorem cell (h : Sound c m) {s : List k.Member} (hs : m [] k = some s) (a : k.Member) :
    a ∈ s ↔ ∃ p ∈ c.parts, a ∈ p.contents k := by
  cases h with
  | node hcell _ => exact hcell k s hs a

theorem part (h : Sound c m) (hp : c.parts[i]? = some p) : Sound p (m.below i) := by
  cases h with
  | node _ hparts => exact hparts i p hp

theorem replace (h : Sound c m) (hp : c.parts[i]? = some p) (hm : Sound p m') :
    Sound c (m.replace i m') := by
  refine .node (fun k s hs => h.cell hs) fun j q hq => ?_
  by_cases hj : j = i
  · subst hj
    have hbelow : (m.replace j m').below j = m' := by
      funext path
      simp [Memory.below, Memory.replace]
    rw [hp, Option.some.injEq] at hq
    rw [hbelow, ← hq]
    exact hm
  · have hbelow : (m.replace i m').below j = m.below j := by
      funext path
      simp [Memory.below, Memory.replace, hj]
    rw [hbelow]
    exact h.part hq

theorem fill (h : Sound c m) {s : List k.Member}
    (hs : ∀ a, a ∈ s ↔ ∃ p ∈ c.parts, a ∈ p.contents k) :
    Sound c (m.fill k s) := by
  refine .node (fun k' s' hs' => ?_) fun j q hq => h.part hq
  by_cases hk : k = k'
  · subst hk
    simp only [Memory.fill, dite_true, Option.some.injEq] at hs'
    exact hs' ▸ hs
  · simp only [Memory.fill, dif_neg hk] at hs'
    exact h.cell hs'

end Sound

theorem mem_own {k : Facet} {a : k.Member} {c : Construct} :
    a ∈ c.own k ↔ c = .term (k.term a) := by
  cases c with
  | term t => rw [Construct.own, Facet.mem_own, Construct.term.injEq]
  | _ => simp [Construct.own]

theorem lookInside_exact {k : Facet} {c : Construct}
    (ih : ∀ p ∈ c.parts, ∀ m, Sound p m →
      (∀ a, a ∈ (look k p m).1 ↔ a ∈ p.contents k) ∧ Sound p (look k p m).2)
    {ps : List Construct} (hps : ∀ p ∈ ps, p ∈ c.parts) {i : Nat} (hi : c.parts.drop i = ps)
    {m : Memory} (h : Sound c m) :
    (∀ a, a ∈ (lookInside k c ps hps i m).1 ↔ ∃ p ∈ ps, a ∈ p.contents k) ∧
    Sound c (lookInside k c ps hps i m).2 := by
  induction ps generalizing i m with
  | nil =>
    rw [lookInside]
    exact ⟨by simp, h⟩
  | cons p ps ih' =>
    have hp : c.parts[i]? = some p := by
      rw [← List.head?_drop, hi, List.head?_cons]
    have htail : c.parts.drop (i + 1) = ps := by
      rw [← List.tail_drop, hi, List.tail_cons]
    obtain ⟨hfirst, hm⟩ := ih p (hps p (by simp)) _ (h.part hp)
    obtain ⟨hothers, hm'⟩ :=
      ih' (fun q hq => hps q (List.mem_cons_of_mem p hq)) htail (h.replace hp hm)
    rw [lookInside]
    refine ⟨fun a => ?_, hm'⟩
    simp only [mem_union, hfirst, hothers, List.mem_cons, exists_eq_or_imp]

/-- Asking for the contents answers them, and leaves sound cells behind. -/
theorem look_exact (k : Facet) (c : Construct) {m : Memory} (h : Sound c m) :
    (∀ a, a ∈ (look k c m).1 ↔ a ∈ c.contents k) ∧ Sound c (look k c m).2 := by
  have ih : ∀ p ∈ c.parts, ∀ m, Sound p m →
      (∀ a, a ∈ (look k p m).1 ↔ a ∈ p.contents k) ∧ Sound p (look k p m).2 := by
    intro p hp m hm
    have := sizeOf_of_mem_parts hp
    exact look_exact k p hm
  rw [look]
  cases hs : m [] k with
  | some s =>
    refine ⟨fun a => ?_, h⟩
    rw [mem_union, mem_own, h.cell hs, Construct.mem_contents]
  | none =>
    obtain ⟨hinside, hm⟩ := lookInside_exact ih (fun _ hp => hp) (List.drop_zero) h
    refine ⟨fun a => ?_, ?_⟩
    · rw [mem_union, mem_own, hinside, Construct.mem_contents]
    · by_cases hc : c.hasCells = true
      · simp only [if_pos hc]
        exact hm.fill hinside
      · simp only [if_neg hc]
        exact hm
termination_by sizeOf c

/-! ## Histories -/

/-- A construct, or one of its parts, is asked for one of the sets. -/
inductive Asked : Construct → Memory → Memory → Prop
  | node {c m} (k) : Asked c m (look k c m).2
  | part {c m i p m'} : c.parts[i]? = some p → Asked p (m.below i) m' →
      Asked c m (m.replace i m')

/-- The cells that a construct can come to have. -/
inductive Arises : Construct → Memory → Prop
  -- a new node, over parts with cells of their own
  | built {c m} : (∀ k, m [] k = none) →
      (∀ i p, c.parts[i]? = some p → Arises p (m.below i)) → Arises c m
  | asked {c m m'} : Arises c m → Asked c m m' → Arises c m'
  | taken {c m i p} : Arises c m → c.parts[i]? = some p → Arises p (m.below i)
  -- a compound becomes a term, an atom becomes a body, a body a formula, and back
  | recast {c d m} : Arises c m → d.parts = c.parts → Arises d m

/-- A construct that has never been asked. -/
theorem arises_empty (c : Construct) : Arises c fun _ _ => none := by
  refine .built (fun _ => rfl) fun i p hp => ?_
  have := sizeOf_of_mem_parts (List.mem_of_getElem? hp)
  exact arises_empty p
termination_by sizeOf c

theorem Asked.sound {c : Construct} {m m' : Memory} (h : Asked c m m') (hs : Sound c m) :
    Sound c m' := by
  induction h with
  | node k => exact (look_exact k _ hs).2
  | part hp _ ih => exact hs.replace hp (ih (hs.part hp))

theorem Arises.sound {c : Construct} {m : Memory} (h : Arises c m) : Sound c m := by
  induction h with
  | built hnone _ ih => exact .node (fun k s hs => by rw [hnone k] at hs; cases hs) ih
  | asked _ ha ih => exact ha.sound ih
  | taken _ hp ih => exact ih.part hp
  | recast _ hparts ih =>
    refine .node (fun k s hs => ?_) fun i p hp => ih.part (hparts ▸ hp)
    rw [hparts]
    exact ih.cell hs

/-- **Contents are occurrences.** The variables, constants and compounds of a construct are those
that occur in it, at any depth; a compound counts for the term that it is and not for itself. A
construct is ground if no variable occurs in it. Answers from cells are the same, whatever has been
asked before. -/
theorem contents_are_occurrences (c : Construct) :
    (∀ x, x ∈ c.vars ↔ OccursIn (.term (.var x)) c) ∧
    (∀ x, x ∈ c.constants ↔ OccursIn (.term (.const x)) c) ∧
    (∀ f, f ∈ c.compounds ↔ OccursIn (.term f.toTerm) c) ∧
    (∀ f : Compound, f ∈ f.toTerm.compounds ∧ f ∉ f.compounds) ∧
    (∀ x sequences, x ∈ varsOfAll sequences ↔
      ∃ ts ∈ sequences, ∃ t ∈ ts, OccursIn (.term (.var x)) (.term t)) ∧
    (c.isGround = true ↔ ∀ x, ¬ OccursIn (.term (.var x)) c) ∧
    ∀ m, Arises c m → ∀ k a, a ∈ (look k c m).1 ↔ a ∈ c.contents k := by
  refine ⟨fun x => ?_, fun x => ?_, fun f => ?_, fun f => ⟨?_, not_mem_own_compounds f⟩,
    fun x sequences => mem_varsOfAll,
    isGround_iff c, fun m hm k => (look_exact k c hm.sound).1⟩
  · exact @mem_contents_iff_occurs .vars x c
  · exact @mem_contents_iff_occurs .constants x c
  · exact @mem_contents_iff_occurs .compounds f c
  · exact (@mem_contents_iff_occurs .compounds f (.term f.toTerm)).mpr .here

theorem contents_are_occurrences_of_sample :
    Arises (.atom ⟨"p", [.list [.const (.int 1)]]⟩)
      (look .vars (.atom ⟨"p", [.list [.const (.int 1)]]⟩) fun _ _ => none).2 ∧
    ∀ x : Constant, x ∈ (look .constants (.atom ⟨"p", [.list [.const (.int 1)]]⟩)
      (look .vars (.atom ⟨"p", [.list [.const (.int 1)]]⟩) fun _ _ => none).2).1 ↔
        x = .int 1 := by
  have harises :=
    Arises.asked (arises_empty (.atom ⟨"p", [.list [.const (.int 1)]]⟩)) (.node .vars)
  obtain ⟨-, -, -, -, -, -, hlook⟩ :=
    contents_are_occurrences (.atom ⟨"p", [.list [.const (.int 1)]]⟩)
  refine ⟨harises, fun x => (hlook _ harises .constants x).trans ?_⟩
  have hcontents : (Construct.atom ⟨"p", [.list [.const (.int 1)]]⟩).contents .constants =
      [.int 1] := by decide
  rw [hcontents, List.mem_singleton]

end Clausal
