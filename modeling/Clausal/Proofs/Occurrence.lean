import Clausal.Construct

/-!
# What occurs in a construct

The variables, constants and compounds of a construct are exactly those that are
met on the way down through its parts, and each of them is listed once.
-/

namespace Clausal

open Distinct

/-! ## Parts -/

def compoundParts (f : Compound) : List Construct := (f.args ++ f.values).map .term

def bodyParts : Body → List Construct
  | .atom a => a.args.map .term
  | .conj left right => [.body left, .body right]
  | .neg inner => [.body inner]

def ruleParts (r : Rule) : List Construct := [.atom r.head, .body r.body]

/-- The constructs directly below. A term that is a compound has the parts of the compound, and a
formula those of its body or rule. -/
def Construct.parts : Construct → List Construct
  | term (.var _) => []
  | term (.const _) => []
  | term (.compound name args values) => compoundParts ⟨name, args, values⟩
  | term (.list items) => items.map .term
  | list items => items.map .term
  | compound f => compoundParts f
  | atom a => a.args.map .term
  | body b => bodyParts b
  | rule r => ruleParts r
  | formula (.body b) => bodyParts b
  | formula (.rule r) => ruleParts r
  | directive _ => []
  | signature _ => []

/-- `d` is met on the way down from the construct. -/
inductive OccursIn (d : Construct) : Construct → Prop
  | here : OccursIn d d
  | inside {c p} : p ∈ c.parts → OccursIn d p → OccursIn d c

/-! ## The three sets -/

/-- What a construct is searched for. -/
inductive Facet
  | vars
  | constants
  | compounds
deriving DecidableEq

namespace Facet

abbrev Member : Facet → Type
  | vars => String
  | constants => Constant
  | compounds => Compound

instance (k : Facet) : DecidableEq k.Member :=
  match k with
  | vars => inferInstanceAs (DecidableEq String)
  | constants => inferInstanceAs (DecidableEq Constant)
  | compounds => inferInstanceAs (DecidableEq Compound)

/-- The term that a member is. -/
def term : (k : Facet) → k.Member → Term
  | vars, x => .var x
  | constants, x => .const x
  | compounds, f => f.toTerm

/-- What a term adds to the contents of its parts. -/
def own : (k : Facet) → Term → List k.Member
  | vars, .var x => [x]
  | constants, .const x => [x]
  | compounds, .compound name args values => [⟨name, args, values⟩]
  | _, _ => []

theorem mem_own {k : Facet} {a : k.Member} {t : Term} : a ∈ k.own t ↔ t = k.term a := by
  cases k with
  | vars => cases t <;> simp [own, term, eq_comm]
  | constants => cases t <;> simp [own, term, eq_comm]
  | compounds =>
    cases t with
    | compound name args values =>
      obtain ⟨g, bs, ws⟩ := a
      simp [own, term, Compound.toTerm, eq_comm]
    | _ => simp [own, term, Compound.toTerm]

end Facet

/-- The contents of a sequence of terms. -/
def contentsOf (ts : List Term) : (k : Facet) → List k.Member
  | .vars => varsOf ts
  | .constants => constantsOf ts
  | .compounds => compoundsOf ts

namespace Construct

def contents (c : Construct) : (k : Facet) → List k.Member
  | .vars => c.vars
  | .constants => c.constants
  | .compounds => c.compounds

variable {k : Facet}

theorem contents_term (t : Term) : (term t).contents k = union (k.own t) (match t with
    | .compound name args values => (compound ⟨name, args, values⟩).contents k
    | .list items => contentsOf items k
    | _ => []) := by
  cases k <;> cases t <;> rfl

theorem contentsOf_cons (t : Term) (ts : List Term) :
    contentsOf (t :: ts) k = union ((term t).contents k) (contentsOf ts k) := by
  cases k <;> rfl

theorem contents_list (items : List Term) : (list items).contents k = contentsOf items k := by
  cases k <;> rfl

theorem contents_compound (f : Compound) :
    (compound f).contents k = union (contentsOf f.args k) (contentsOf f.values k) := by
  cases k <;> rfl

theorem contents_atom (a : Atom) : (atom a).contents k = contentsOf a.args k := by
  cases k <;> rfl

theorem contents_literal (a : Atom) : (body (.atom a)).contents k = contentsOf a.args k := by
  cases k <;> rfl

theorem contents_conj (left right : Body) :
    (body (.conj left right)).contents k =
      union ((body left).contents k) ((body right).contents k) := by
  cases k <;> rfl

theorem contents_neg (inner : Body) : (body (.neg inner)).contents k = (body inner).contents k := by
  cases k <;> rfl

theorem contents_rule (r : Rule) :
    (rule r).contents k = union ((atom r.head).contents k) ((body r.body).contents k) := by
  cases k <;> rfl

theorem contents_formula (φ : Formula) : (formula φ).contents k = (match φ with
    | .body b => (body b).contents k
    | .rule r => (rule r).contents k) := by
  cases k <;> cases φ <;> rfl

theorem mem_contentsOf {a : k.Member} {ts : List Term} :
    a ∈ contentsOf ts k ↔ ∃ p ∈ ts.map term, a ∈ p.contents k := by
  induction ts with
  | nil => cases k <;> simp [contentsOf, varsOf, constantsOf, compoundsOf]
  | cons t ts ih =>
    simp only [contentsOf_cons, mem_union, ih, List.map_cons, List.mem_cons, exists_eq_or_imp]

theorem mem_compound {a : k.Member} {f : Compound} :
    a ∈ (compound f).contents k ↔ ∃ p ∈ compoundParts f, a ∈ p.contents k := by
  rw [contents_compound, mem_union, mem_contentsOf, mem_contentsOf, compoundParts, List.map_append]
  simp only [List.mem_append, or_and_right, exists_or]

theorem mem_body {a : k.Member} {b : Body} :
    a ∈ (body b).contents k ↔ ∃ p ∈ bodyParts b, a ∈ p.contents k := by
  cases b with
  | atom c => rw [contents_literal, mem_contentsOf, bodyParts]
  | conj left right => simp [contents_conj, mem_union, bodyParts]
  | neg inner => simp [contents_neg, bodyParts]

theorem mem_rule {a : k.Member} {r : Rule} :
    a ∈ (rule r).contents k ↔ ∃ p ∈ ruleParts r, a ∈ p.contents k := by
  simp [contents_rule, mem_union, ruleParts]

/-- The contents of a construct are its own and those of its parts. -/
theorem mem_contents {a : k.Member} {c : Construct} :
    a ∈ c.contents k ↔ c = term (k.term a) ∨ ∃ p ∈ c.parts, a ∈ p.contents k := by
  cases c with
  | term t =>
    rw [contents_term, mem_union, Facet.mem_own, term.injEq]
    cases t with
    | var x => simp [parts]
    | const x => simp [parts]
    | compound name args values => rw [mem_compound, parts]
    | list items => rw [mem_contentsOf, parts]
  | list items => simp [contents_list, mem_contentsOf, parts]
  | compound f => simp [mem_compound, parts]
  | atom b => simp [contents_atom, mem_contentsOf, parts]
  | body b => simp [mem_body, parts]
  | rule r => simp [mem_rule, parts]
  | formula φ =>
    cases φ with
    | body b => simp [contents_formula, mem_body, parts]
    | rule r => simp [contents_formula, mem_rule, parts]
  | directive i => cases k <;> simp [contents, vars, constants, compounds, parts]
  | signature s => cases k <;> simp [contents, vars, constants, compounds, parts]

/-! ## Once each -/

theorem nodup_contentsOf (ts : List Term) : (contentsOf ts k).Nodup := by
  induction ts with
  | nil => cases k <;> exact List.nodup_nil
  | cons t ts ih =>
    rw [contentsOf_cons]
    exact nodup_union ih

theorem nodup_compound (f : Compound) : ((compound f).contents k).Nodup := by
  rw [contents_compound]
  exact nodup_union (nodup_contentsOf f.values)

theorem nodup_body (b : Body) : ((body b).contents k).Nodup := by
  induction b with
  | atom a =>
    rw [contents_literal]
    exact nodup_contentsOf a.args
  | conj left right _ ihr =>
    rw [contents_conj]
    exact nodup_union ihr
  | neg inner ih =>
    rw [contents_neg]
    exact ih

theorem nodup_rule (r : Rule) : ((rule r).contents k).Nodup := by
  rw [contents_rule]
  exact nodup_union (nodup_body r.body)

/-- **No repetition.** Whatever occurs in a construct is listed once in its contents, however often
it occurs. -/
theorem nodup_contents (c : Construct) (k : Facet) : (c.contents k).Nodup := by
  cases c with
  | term t =>
    rw [contents_term]
    refine nodup_union ?_
    cases t with
    | compound name args values => exact nodup_compound _
    | list items => exact nodup_contentsOf items
    | _ => exact List.nodup_nil
  | list items =>
    rw [contents_list]
    exact nodup_contentsOf items
  | compound f => exact nodup_compound f
  | atom a =>
    rw [contents_atom]
    exact nodup_contentsOf a.args
  | body b => exact nodup_body b
  | rule r => exact nodup_rule r
  | formula φ =>
    rw [contents_formula]
    cases φ with
    | body b => exact nodup_body b
    | rule r => exact nodup_rule r
  | directive i => cases k <;> exact List.nodup_nil
  | signature s => cases k <;> exact List.nodup_nil

end Construct

/-! ## Reachability -/

theorem sizeOf_of_mem_map {ts : List Term} {p : Construct} (h : p ∈ ts.map .term) :
    sizeOf p ≤ sizeOf ts := by
  obtain ⟨t, ht, rfl⟩ := List.mem_map.mp h
  have := List.sizeOf_lt_of_mem ht
  simp only [Construct.term.sizeOf_spec]
  omega

theorem sizeOf_of_mem_compoundParts {f : Compound} {p : Construct} (h : p ∈ compoundParts f) :
    sizeOf p < sizeOf f := by
  rw [compoundParts, List.map_append, List.mem_append] at h
  have hsize : sizeOf f = 1 + sizeOf f.name + sizeOf f.args + sizeOf f.values :=
    Compound.mk.sizeOf_spec ..
  rcases h with h | h
  all_goals
    have := sizeOf_of_mem_map h
    omega

theorem sizeOf_of_mem_bodyParts {b : Body} {p : Construct} (h : p ∈ bodyParts b) :
    sizeOf p ≤ sizeOf b := by
  cases b with
  | atom a =>
    have := sizeOf_of_mem_map h
    have hsize : sizeOf a = 1 + sizeOf a.name + sizeOf a.args := Atom.mk.sizeOf_spec ..
    rw [Body.atom.sizeOf_spec]
    omega
  | conj left right =>
    simp only [bodyParts, List.mem_cons, List.not_mem_nil, or_false] at h
    rcases h with rfl | rfl
    all_goals
      rw [Construct.body.sizeOf_spec, Body.conj.sizeOf_spec]
      omega
  | neg inner =>
    simp only [bodyParts, List.mem_cons, List.not_mem_nil, or_false] at h
    subst h
    have hsize := Body.neg.sizeOf_spec inner
    rw [Construct.body.sizeOf_spec]
    omega

theorem sizeOf_of_mem_ruleParts {r : Rule} {p : Construct} (h : p ∈ ruleParts r) :
    sizeOf p ≤ sizeOf r := by
  have hsize : sizeOf r = 1 + sizeOf r.head + sizeOf r.body := Rule.mk.sizeOf_spec ..
  simp only [ruleParts, List.mem_cons, List.not_mem_nil, or_false] at h
  rcases h with rfl | rfl
  · rw [Construct.atom.sizeOf_spec]
    omega
  · rw [Construct.body.sizeOf_spec]
    omega

theorem sizeOf_of_mem_parts {c p : Construct} (h : p ∈ c.parts) : sizeOf p < sizeOf c := by
  cases c with
  | term t =>
    cases t with
    | compound name args values =>
      have := sizeOf_of_mem_compoundParts h
      simp only [Construct.term.sizeOf_spec, Term.compound.sizeOf_spec,
        Compound.mk.sizeOf_spec] at this ⊢
      omega
    | list items =>
      have := sizeOf_of_mem_map h
      simp only [Construct.term.sizeOf_spec, Term.list.sizeOf_spec]
      omega
    | _ => cases h
  | list items =>
    have := sizeOf_of_mem_map h
    simp only [Construct.list.sizeOf_spec]
    omega
  | compound f =>
    have := sizeOf_of_mem_compoundParts h
    simp only [Construct.compound.sizeOf_spec]
    omega
  | atom a =>
    have := sizeOf_of_mem_map h
    have hsize : sizeOf a = 1 + sizeOf a.name + sizeOf a.args := Atom.mk.sizeOf_spec ..
    simp only [Construct.atom.sizeOf_spec]
    omega
  | body b =>
    have := sizeOf_of_mem_bodyParts h
    simp only [Construct.body.sizeOf_spec]
    omega
  | rule r =>
    have := sizeOf_of_mem_ruleParts h
    simp only [Construct.rule.sizeOf_spec]
    omega
  | formula φ =>
    cases φ with
    | body b =>
      have := sizeOf_of_mem_bodyParts h
      simp only [Construct.formula.sizeOf_spec, Formula.body.sizeOf_spec]
      omega
    | rule r =>
      have := sizeOf_of_mem_ruleParts h
      simp only [Construct.formula.sizeOf_spec, Formula.rule.sizeOf_spec]
      omega
  | directive i => cases h
  | signature s => cases h

theorem occurs_iff {d c : Construct} :
    OccursIn d c ↔ c = d ∨ ∃ p ∈ c.parts, OccursIn d p := by
  constructor
  · intro h
    cases h with
    | here => exact .inl rfl
    | inside hp h => exact .inr ⟨_, hp, h⟩
  · intro h
    rcases h with h | ⟨p, hp, h⟩
    · exact h ▸ .here
    · exact .inside hp h

/-- **Contents.** Each of the three sets holds what occurs in the construct, and nothing else. -/
theorem mem_contents_iff_occurs {k : Facet} {a : k.Member} (c : Construct) :
    a ∈ c.contents k ↔ OccursIn (.term (k.term a)) c := by
  rw [Construct.mem_contents, occurs_iff]
  apply or_congr_right
  apply exists_congr
  intro p
  apply and_congr_right
  intro hp
  have := sizeOf_of_mem_parts hp
  exact mem_contents_iff_occurs p
termination_by sizeOf c

theorem OccursIn.sizeOf_le {d c : Construct} (h : OccursIn d c) : sizeOf d ≤ sizeOf c := by
  induction h with
  | here => exact Nat.le_refl _
  | inside hp _ ih => exact Nat.le_of_lt (Nat.lt_of_le_of_lt ih (sizeOf_of_mem_parts hp))

/-- A compound counts among the compounds of the term that it is, but not among its own. -/
theorem not_mem_own_compounds (f : Compound) : f ∉ f.compounds := by
  intro hf
  obtain ⟨p, hp, hf⟩ :=
    Construct.mem_compound.mp (show f ∈ (Construct.compound f).contents .compounds from hf)
  have hle := (mem_contents_iff_occurs p |>.mp hf).sizeOf_le
  have hlt := sizeOf_of_mem_compoundParts hp
  obtain ⟨name, args, values⟩ := f
  simp only [Facet.term, Compound.toTerm, Construct.term.sizeOf_spec, Term.compound.sizeOf_spec,
    Compound.mk.sizeOf_spec] at hle hlt
  omega

/-! ## Ground constructs -/

theorem union_eq_nil {α : Type} [DecidableEq α] {xs ys : List α} :
    union xs ys = [] ↔ xs = [] ∧ ys = [] := by
  simp only [List.eq_nil_iff_forall_not_mem, mem_union, not_or, forall_and]

mutual

theorem Term.isGround_iff : (t : Term) → (t.isGround = true ↔ t.vars = [])
  | .var name => by simp [Term.isGround, Term.vars]
  | .const c => by simp [Term.isGround, Term.vars]
  | .compound name args values => by
    simp only [Term.isGround, Term.vars, union_eq_nil, Bool.and_eq_true, areGround_iff args,
      areGround_iff values]
  | .list items => by simp only [Term.isGround, Term.vars, areGround_iff items]

theorem areGround_iff : (ts : List Term) → (areGround ts = true ↔ varsOf ts = [])
  | [] => by simp [areGround, varsOf]
  | t :: ts =>
    by simp only [areGround, varsOf, union_eq_nil, Bool.and_eq_true, t.isGround_iff,
      areGround_iff ts]

end

/-- Terms are searched for a variable; of all else the set of the variables tells. -/
def Construct.isGround : Construct → Bool
  | term t => t.isGround
  | list items => (varsOf items).isEmpty
  | compound f => f.isGround
  | atom a => a.isGround
  | body b => b.isGround
  | rule r => r.isGround
  | formula φ => φ.isGround
  | directive _ => true
  | signature _ => true

theorem isGround_iff (c : Construct) :
    c.isGround = true ↔ ∀ x, ¬ OccursIn (.term (.var x)) c := by
  have hvars : c.isGround = true ↔ c.vars = [] := by
    cases c with
    | term t => exact t.isGround_iff
    | directive i => simp [Construct.isGround, Construct.vars]
    | signature s => simp [Construct.isGround, Construct.vars]
    | _ => exact List.isEmpty_iff
  rw [hvars, List.eq_nil_iff_forall_not_mem]
  exact forall_congr' fun x => not_congr (@mem_contents_iff_occurs .vars x c)

theorem nodup_varsOfAll (sequences : List (List Term)) : (varsOfAll sequences).Nodup :=
  @Construct.nodup_contentsOf .vars sequences.flatten

theorem mem_varsOfAll {x : String} {sequences : List (List Term)} :
    x ∈ varsOfAll sequences ↔
      ∃ ts ∈ sequences, ∃ t ∈ ts, OccursIn (.term (.var x)) (.term t) := by
  have hmem := @Construct.mem_contentsOf .vars x sequences.flatten
  simp only [List.mem_map, List.mem_flatten] at hmem
  rw [varsOfAll]
  refine hmem.trans ⟨fun h => ?_, fun h => ?_⟩
  · obtain ⟨p, ⟨t, ⟨ts, hts, ht⟩, rfl⟩, h⟩ := h
    exact ⟨ts, hts, t, ht, (mem_contents_iff_occurs _).mp h⟩
  · obtain ⟨ts, hts, t, ht, h⟩ := h
    exact ⟨_, ⟨t, ⟨ts, hts, ht⟩, rfl⟩, (mem_contents_iff_occurs _).mpr h⟩

end Clausal
