import Mathlib

/-!
# Finite sets of node numbers

Its members in increasing order, and its nonempty subsets in numeric-mask order.
-/

namespace PgOrca

open Finset List

variable {s t : Finset ℕ}

def bits (s : Finset ℕ) : List ℕ := (List.range (s.sup id + 1)).filter (· ∈ s)

@[simp] theorem mem_bits {x : ℕ} : x ∈ bits s ↔ x ∈ s := by
  simp only [bits,List.mem_filter,List.mem_range,decide_eq_true_eq,and_iff_right_iff_imp]
  intro hx
  have hle : id x ≤ s.sup id := le_sup hx
  simp only [id_eq] at hle
  omega

theorem bits_nodup (s : Finset ℕ) : (bits s).Nodup :=
  List.Nodup.filter _ nodup_range

@[simp] theorem bits_eq_nil : bits s = [] ↔ s = ∅ := by
  rw [eq_nil_iff_forall_not_mem,eq_empty_iff_forall_notMem]
  simp only [mem_bits]

/-- The smallest member; the callers only ask for it on nonempty sets. -/
def lowestBit (s : Finset ℕ) : ℕ := (bits s).headD 0

theorem lowestBit_mem (hs : s.Nonempty) : lowestBit s ∈ s := by
  cases hb : bits s with
  | nil =>
    rw [bits_eq_nil] at hb
    exact absurd hb hs.ne_empty
  | cons x xs =>
    have hx : x ∈ s := by rw [← mem_bits,hb]; exact List.mem_cons_self
    simpa only [lowestBit,hb,headD_cons] using hx

@[simp] theorem lowestBit_singleton (x : ℕ) : lowestBit {x} = x := by
  simpa using lowestBit_mem (singleton_nonempty x)

/-- Subsets of `base ∪ bs` that contain `base`, those without the head of `bs` first. -/
def subsetsFrom : List ℕ → Finset ℕ → List (Finset ℕ)
  | [], base => if base.card = 0 then [] else [base]
  | b :: bs, base => subsetsFrom bs base ++ subsetsFrom bs (insert b base)

/-- All nonempty subsets of a set; the lowest member toggles fastest. -/
def subsets (s : Finset ℕ) : List (Finset ℕ) := subsetsFrom (bits s).reverse ∅

theorem mem_subsetsFrom {bs : List ℕ} {base : Finset ℕ} :
    t ∈ subsetsFrom bs base ↔ t.Nonempty ∧ base ⊆ t ∧ ∀ x ∈ t, x ∈ base ∨ x ∈ bs := by
  induction bs generalizing base with
  | nil =>
    by_cases hb : base.card = 0
    · have he : base = ∅ := card_eq_zero.mp hb
      subst he
      simp only [subsetsFrom,card_empty,if_true,not_mem_nil,false_iff]
      rintro ⟨⟨x,hx⟩,-,h⟩
      simpa using h x hx
    · have hne : base.Nonempty := card_ne_zero.mp hb
      simp only [subsetsFrom,hb,if_false,List.mem_singleton,not_mem_nil,or_false]
      constructor
      · rintro rfl
        exact ⟨hne,subset_rfl,fun x hx => hx⟩
      · rintro ⟨-,h1,h2⟩
        exact Finset.Subset.antisymm h2 h1
  | cons b bs ih =>
    simp only [subsetsFrom,mem_append,ih,List.mem_cons,mem_insert,insert_subset_iff]
    constructor
    · rintro (⟨h1,h2,h3⟩ | ⟨h1,⟨hb,h2⟩,h3⟩)
      · exact ⟨h1,h2,fun x hx => (h3 x hx).imp_right Or.inr⟩
      · refine ⟨h1,h2,fun x hx => ?_⟩
        rcases h3 x hx with (rfl | h) | h
        · exact .inr (.inl rfl)
        · exact .inl h
        · exact .inr (.inr h)
    · rintro ⟨h1,h2,h3⟩
      by_cases hb : b ∈ t
      · refine .inr ⟨h1,⟨hb,h2⟩,fun x hx => ?_⟩
        rcases h3 x hx with h | rfl | h
        · exact .inl (.inr h)
        · exact .inl (.inl rfl)
        · exact .inr h
      · refine .inl ⟨h1,h2,fun x hx => ?_⟩
        rcases h3 x hx with h | rfl | h
        · exact .inl h
        · exact absurd hx hb
        · exact .inr h

@[simp] theorem mem_subsets : t ∈ subsets s ↔ t.Nonempty ∧ t ⊆ s := by
  simp only [subsets,mem_subsetsFrom,empty_subset,true_and,notMem_empty,
    false_or,mem_reverse,mem_bits]
  rfl

end PgOrca
