import Mathlib

/-!
# Binary trees with labelled leaves and branches

A nonempty set of leaves cuts one branch less than it has leaves, whatever the shape of the tree.
-/

namespace PgOrca

open Finset List

inductive BinaryTree (α β : Type*) where
  | leaf (a : α)
  | branch (b : β) (left right : BinaryTree α β)
  deriving DecidableEq

namespace BinaryTree

variable {α β : Type*} [DecidableEq α]

def leaves : BinaryTree α β → Finset α
  | leaf a => {a}
  | branch _ l r => l.leaves ∪ r.leaves

def labels : BinaryTree α β → List β
  | leaf _ => []
  | branch b l r => l.labels ++ r.labels ++ [b]

def Separated : BinaryTree α β → Prop
  | leaf _ => True
  | branch _ l r => l.Separated ∧ r.Separated ∧ Disjoint l.leaves r.leaves

def IsBranch : BinaryTree α β → β → BinaryTree α β → BinaryTree α β → Prop
  | leaf _, _, _, _ => False
  | branch b l r, b', l', r' =>
    (b = b' ∧ l = l' ∧ r = r') ∨ l.IsBranch b' l' r' ∨ r.IsBranch b' l' r'

def cut (s : Finset α) : BinaryTree α β → List β
  | leaf _ => []
  | branch b l r =>
    l.cut s ++ r.cut s ++
      if ¬ Disjoint s l.leaves ∧ ¬ Disjoint s r.leaves then [b] else []

variable {t l r l' r' : BinaryTree α β} {b b' : β} {s : Finset α}

theorem leaves_nonempty (t : BinaryTree α β) : t.leaves.Nonempty := by
  induction t with
  | leaf a => exact singleton_nonempty a
  | branch _ l _ ihl _ => exact ihl.mono subset_union_left

omit [DecidableEq α] in
theorem isBranch_root : (branch b l r).IsBranch b l r := .inl ⟨rfl,rfl,rfl⟩

omit [DecidableEq α] in
theorem mem_labels : b ∈ t.labels ↔ ∃ l r, t.IsBranch b l r := by
  induction t with
  | leaf a => simp [labels,IsBranch]
  | branch c l r ihl ihr =>
    simp only [labels,mem_append,List.mem_singleton,ihl,ihr,IsBranch]
    constructor
    · intro h
      rcases h with (⟨l',r',h⟩ | ⟨l',r',h⟩) | h
      · exact ⟨l',r',.inr (.inl h)⟩
      · exact ⟨l',r',.inr (.inr h)⟩
      · exact ⟨l,r,.inl ⟨h.symm,rfl,rfl⟩⟩
    · intro ⟨l',r',h⟩
      rcases h with h | h | h
      · exact .inr h.1.symm
      · exact .inl (.inl ⟨l',r',h⟩)
      · exact .inl (.inr ⟨l',r',h⟩)

theorem IsBranch.leaves_subset (h : t.IsBranch b l r) : l.leaves ∪ r.leaves ⊆ t.leaves := by
  induction t with
  | leaf a => exact h.elim
  | branch c l' r' ihl ihr =>
    rcases h with ⟨_,hl,hr⟩ | h | h
    · rw [leaves,hl,hr]
    · exact (ihl h).trans subset_union_left
    · exact (ihr h).trans subset_union_right

theorem IsBranch.disjoint (h : t.IsBranch b l r) (ht : t.Separated) :
    Disjoint l.leaves r.leaves := by
  induction t with
  | leaf a => exact h.elim
  | branch c l' r' ihl ihr =>
    rcases h with ⟨_,hl,hr⟩ | h | h
    · rw [← hl,← hr]
      exact ht.2.2
    · exact ihl h ht.1
    · exact ihr h ht.2.1

omit [DecidableEq α] in
theorem IsBranch.trans (h : t.IsBranch b l r) (h' : (branch b l r).IsBranch b' l' r') :
    t.IsBranch b' l' r' := by
  induction t with
  | leaf a => exact h.elim
  | branch c u v ihu ihv =>
    rcases h with ⟨rfl,rfl,rfl⟩ | h | h
    · exact h'
    · exact .inr (.inl (ihu h))
    · exact .inr (.inr (ihv h))

theorem mem_cut :
    b ∈ t.cut s ↔
      ∃ l r, t.IsBranch b l r ∧ ¬ Disjoint s l.leaves ∧ ¬ Disjoint s r.leaves := by
  induction t with
  | leaf a => simp [cut,IsBranch]
  | branch c l r ihl ihr =>
    simp only [cut,mem_append,ihl,ihr,IsBranch]
    constructor
    · intro h
      rcases h with (⟨l',r',h,hm⟩ | ⟨l',r',h,hm⟩) | h
      · exact ⟨l',r',.inr (.inl h),hm⟩
      · exact ⟨l',r',.inr (.inr h),hm⟩
      · split at h
        case isTrue hm =>
          exact ⟨l,r,.inl ⟨(List.mem_singleton.mp h).symm,rfl,rfl⟩,hm⟩
        case isFalse => cases h
    · intro ⟨l',r',h,hm⟩
      rcases h with ⟨rfl,rfl,rfl⟩ | h | h
      · exact .inr (by simp [hm])
      · exact .inl (.inl ⟨l',r',h,hm⟩)
      · exact .inl (.inr ⟨l',r',h,hm⟩)

private theorem card_inter_branch (h : Disjoint l.leaves r.leaves) :
    (s ∩ (l.leaves ∪ r.leaves)).card = (s ∩ l.leaves).card + (s ∩ r.leaves).card := by
  rw [inter_union_distrib_left,card_union_of_disjoint]
  exact h.mono inter_subset_right inter_subset_right

private theorem meets_iff (s u : Finset α) : ¬ Disjoint s u ↔ 0 < (s ∩ u).card := by
  rw [card_pos,not_disjoint_iff_nonempty_inter]

theorem length_cut (ht : t.Separated) : (t.cut s).length = (s ∩ t.leaves).card - 1 := by
  induction t with
  | leaf a =>
    have h : (s ∩ {a}).card ≤ 1 :=
      (card_le_card inter_subset_right).trans_eq (card_singleton a)
    simp only [cut,leaves,length_nil]
    omega
  | branch b l r ihl ihr =>
    obtain ⟨hl,hr,hd⟩ := ht
    rw [cut,leaves,card_inter_branch hd,length_append,length_append,ihl hl,ihr hr]
    simp only [meets_iff]
    split
    case isTrue h =>
      rw [length_singleton]
      omega
    case isFalse h =>
      rw [length_nil]
      omega

theorem length_labels (ht : t.Separated) : t.labels.length + 1 = t.leaves.card := by
  induction t with
  | leaf a => rfl
  | branch b l r ihl ihr =>
    obtain ⟨hl,hr,hd⟩ := ht
    rw [labels,leaves,card_union_of_disjoint hd,length_append,length_append,
      ← ihl hl,← ihr hr,length_singleton]
    omega

theorem IsBranch.of_leaves_subset (ht : t.Separated) (h : t.IsBranch b l r)
    (h' : t.IsBranch b' l' r') (hsub : l'.leaves ∪ r'.leaves ⊆ l.leaves ∪ r.leaves) :
    (branch b l r).IsBranch b' l' r' := by
  have hne : (l'.leaves ∪ r'.leaves).Nonempty := l'.leaves_nonempty.mono subset_union_left
  induction t with
  | leaf a => exact h.elim
  | branch c u v ihu ihv =>
    obtain ⟨hu,hv,hd⟩ := ht
    rcases h with ⟨rfl,rfl,rfl⟩ | h | h
    · exact h'
    · rcases h' with ⟨_,rfl,rfl⟩ | h' | h'
      · obtain ⟨x,hx⟩ := v.leaves_nonempty
        have := h.leaves_subset (hsub (mem_union_right _ hx))
        exact absurd hx (disjoint_left.mp hd this)
      · exact ihu hu h h'
      · obtain ⟨x,hx⟩ := hne
        exact absurd (h'.leaves_subset hx) (disjoint_left.mp hd (h.leaves_subset (hsub hx)))
    · rcases h' with ⟨_,rfl,rfl⟩ | h' | h'
      · obtain ⟨x,hx⟩ := u.leaves_nonempty
        have := h.leaves_subset (hsub (mem_union_left _ hx))
        exact absurd this (disjoint_left.mp hd hx)
      · obtain ⟨x,hx⟩ := hne
        exact absurd (h.leaves_subset (hsub hx)) (disjoint_left.mp hd (h'.leaves_subset hx))
      · exact ihv hv h h'

theorem IsBranch.leaves_subset_of_meets (ht : t.Separated) (h : t.IsBranch b l r)
    (h' : t.IsBranch b' l' r') (hl : ¬ Disjoint (l.leaves ∪ r.leaves) l'.leaves)
    (hr : ¬ Disjoint (l.leaves ∪ r.leaves) r'.leaves) :
    l'.leaves ∪ r'.leaves ⊆ l.leaves ∪ r.leaves := by
  induction t with
  | leaf a => exact h.elim
  | branch c u v ihu ihv =>
    obtain ⟨hu,hv,hd⟩ := ht
    rcases h with ⟨_,rfl,rfl⟩ | h | h
    · exact h'.leaves_subset
    · rcases h' with ⟨_,rfl,rfl⟩ | h' | h'
      · exact absurd (hd.mono_left h.leaves_subset) hr
      · exact ihu hu h h'
      · have hv' := subset_union_left.trans h'.leaves_subset
        exact absurd (hd.mono h.leaves_subset hv') hl
    · rcases h' with ⟨_,rfl,rfl⟩ | h' | h'
      · exact absurd (hd.symm.mono_left h.leaves_subset) hl
      · have hu' := subset_union_left.trans h'.leaves_subset
        exact absurd (hd.symm.mono h.leaves_subset hu') hl
      · exact ihv hv h h'

omit [DecidableEq α] in
theorem IsBranch.label_lt [LT β] (h : t.IsBranch b l r) (ht : t.labels.Pairwise (· < ·)) {c : β}
    (hc : c ∈ l.labels ∨ c ∈ r.labels) : c < b := by
  induction t with
  | leaf a => exact h.elim
  | branch b' l' r' ihl ihr =>
    rw [labels,pairwise_append,pairwise_append] at ht
    obtain ⟨⟨hl,hr,_⟩,_,hroot⟩ := ht
    rcases h with ⟨rfl,rfl,rfl⟩ | h | h
    · exact hroot c (mem_append.mpr hc) b' (List.mem_singleton_self b')
    · exact ihl h hl
    · exact ihr h hr

end BinaryTree

end PgOrca
