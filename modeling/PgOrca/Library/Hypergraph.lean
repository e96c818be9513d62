import Mathlib

/-!
# Constructible node sets of a hypergraph

A set is constructible when it is a single node or the disjoint union of two constructible sets that
some edge connects. A coarser edge relation only makes more sets constructible.
-/

namespace PgOrca

open Finset

variable {α : Type*} [DecidableEq α]

def Connects (E : Finset α → Finset α → Prop) (s t : Finset α) : Prop :=
  ∃ u v, E u v ∧ u ⊆ s ∧ v ⊆ t

inductive Constructible (E : Finset α → Finset α → Prop) : Finset α → Prop
  | singleton (a : α) : Constructible E {a}
  | union {s t : Finset α} : Constructible E s → Constructible E t → Disjoint s t →
      Connects E s t → Constructible E (s ∪ t)

structure ConnectedPair (E : Finset α → Finset α → Prop) (s t : Finset α) : Prop where
  left : Constructible E s
  right : Constructible E t
  disjoint : Disjoint s t
  connects : Connects E s t

variable {E E' : Finset α → Finset α → Prop} {s t : Finset α}

omit [DecidableEq α] in
theorem Connects.symm (hE : ∀ u v, E u v → E v u) (h : Connects E s t) : Connects E t s := by
  obtain ⟨u,v,he,hu,hv⟩ := h
  exact ⟨v,u,hE u v he,hv,hu⟩

theorem ConnectedPair.symm (hE : ∀ u v, E u v → E v u) (h : ConnectedPair E s t) :
    ConnectedPair E t s :=
  ⟨h.right,h.left,h.disjoint.symm,h.connects.symm hE⟩

theorem Constructible.nonempty (h : Constructible E s) : s.Nonempty := by
  induction h with
  | singleton a => exact singleton_nonempty a
  | union _ _ _ _ ih _ => exact ih.mono subset_union_left

omit [DecidableEq α] in
theorem Connects.mono (hE : ∀ u v, E u v → ∃ u' v', E' u' v' ∧ u' ⊆ u ∧ v' ⊆ v)
    (h : Connects E s t) : Connects E' s t := by
  obtain ⟨u,v,he,hu,hv⟩ := h
  obtain ⟨u',v',he',hu',hv'⟩ := hE u v he
  exact ⟨u',v',he',hu'.trans hu,hv'.trans hv⟩

theorem Constructible.mono (hE : ∀ u v, E u v → ∃ u' v', E' u' v' ∧ u' ⊆ u ∧ v' ⊆ v)
    (h : Constructible E s) : Constructible E' s := by
  induction h with
  | singleton a => exact .singleton a
  | union _ _ hd hc ih₁ ih₂ => exact .union ih₁ ih₂ hd (hc.mono hE)

theorem ConnectedPair.mono (hE : ∀ u v, E u v → ∃ u' v', E' u' v' ∧ u' ⊆ u ∧ v' ⊆ v)
    (h : ConnectedPair E s t) : ConnectedPair E' s t :=
  ⟨h.left.mono hE,h.right.mono hE,h.disjoint,h.connects.mono hE⟩

end PgOrca
