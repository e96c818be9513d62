import PgOrca.Library.Rows

/-!
# How many rows a join has

A full join has either a matching pair, and then no more rows than the product of its inputs, or
none, and then all rows of both.
-/

namespace PgOrca

open Multiset

variable {κ ν : Type*} {m : Row κ ν → Bool} {X Y : Multiset (Row κ ν)}

theorem card_bind_le {α β : Type*} {s : Multiset α} {f : α → Multiset β} {n : ℕ}
    (h : ∀ a ∈ s, (f a).card ≤ n) : (s.bind f).card ≤ s.card * n := by
  rw [card_bind,← smul_eq_mul,← card_map (card ∘ f)]
  refine sum_le_card_nsmul _ _ fun k hk => ?_
  obtain ⟨a,ha,rfl⟩ := mem_map.mp hk
  exact h a ha

namespace LeftKind

theorem card_extensions_le (k : LeftKind) (partners : Multiset (Row κ ν)) :
    (k.extensions partners).card ≤ max 1 partners.card := by
  cases k <;> simp only [extensions] <;> (try split) <;> simp

variable (partners : Multiset (Row κ ν))

theorem card_extensions_semi_le : (LeftKind.semi.extensions partners).card ≤ 1 := by
  simp only [extensions]
  split <;> simp

theorem card_extensions_anti_le : (LeftKind.anti.extensions partners).card ≤ 1 := by
  simp only [extensions]
  split <;> simp

end LeftKind

theorem card_partners_le (m : Row κ ν → Bool) (x : Row κ ν) (Y : Multiset (Row κ ν)) :
    (partners m x Y).card ≤ Y.card := card_le_card (partners_le m x Y)

theorem card_leftJoin_inner_le (m : Row κ ν → Bool) (X Y : Multiset (Row κ ν)) :
    (leftJoin .inner m X Y).card ≤ X.card * Y.card := by
  refine card_bind_le fun x _ => ?_
  rw [card_map]
  exact card_partners_le m x Y

theorem card_leftJoin_outer_le (m : Row κ ν → Bool) (X Y : Multiset (Row κ ν)) :
    (leftJoin .outer m X Y).card ≤ X.card * max 1 Y.card := by
  refine card_bind_le fun x _ => ?_
  rw [card_map]
  exact (LeftKind.card_extensions_le .outer _).trans (max_le_max le_rfl (card_partners_le m x Y))

theorem card_leftJoin_semi_le (m : Row κ ν → Bool) (X Y : Multiset (Row κ ν)) :
    (leftJoin .semi m X Y).card ≤ X.card := by
  rw [← mul_one X.card]
  refine card_bind_le fun x _ => ?_
  rw [card_map]
  exact LeftKind.card_extensions_semi_le _

theorem extensions_of_no_match (h : ∀ r, m r = false) {k : LeftKind} (hk : k = .inner ∨ k = .semi)
    (x : Row κ ν) (Y : Multiset (Row κ ν)) : (k.extensions (partners m x Y)).map x.merge = 0 := by
  have hzero : partners m x Y = 0 := filter_eq_nil.mpr fun y _ => by simp [h]
  rcases hk with rfl | rfl <;> simp [hzero,LeftKind.extensions]

theorem leftJoin_of_no_match (h : ∀ r, m r = false) {k : LeftKind} (hk : k = .inner ∨ k = .semi)
    (X Y : Multiset (Row κ ν)) : leftJoin k m X Y = 0 := by
  refine eq_zero_of_forall_notMem fun r hr => ?_
  obtain ⟨x,_,hmap⟩ := mem_bind.mp hr
  rw [extensions_of_no_match h hk] at hmap
  exact notMem_zero _ hmap

def SomeMatch (m : Row κ ν → Bool) (X Y : Multiset (Row κ ν)) : Prop :=
  ∃ x ∈ X, ∃ y ∈ Y, m (x.merge y) = true

theorem partners_eq_zero_iff {x : Row κ ν} :
    (partners m x Y).card = 0 ↔ ∀ y ∈ Y, m (x.merge y) ≠ true := by
  rw [card_eq_zero,partners,filter_eq_nil]

def unmatched (m : Row κ ν → Bool) (X Y : Multiset (Row κ ν)) : Multiset (Row κ ν) :=
  X.filter fun x => (partners m x Y).card = 0

theorem leftJoin_anti_eq_unmatched (m : Row κ ν → Bool) (X Y : Multiset (Row κ ν)) :
    leftJoin .anti m X Y = unmatched m X Y := by
  induction X using Multiset.induction_on with
  | empty => rfl
  | cons x X ih =>
    rw [leftJoin,cons_bind,← leftJoin,ih,unmatched,unmatched,filter_cons]
    by_cases h : (partners m x Y).card = 0 <;> simp [LeftKind.extensions,h]

theorem card_fullJoin_of_no_match (hm : ∀ x ∈ X, ∀ y ∈ Y, m (x.merge y) = m (y.merge x))
    (h : ¬ SomeMatch m X Y) : (fullJoin m X Y).card = X.card + Y.card := by
  have hx : ∀ x ∈ X, (partners m x Y).card = 0 := fun x hx =>
    partners_eq_zero_iff.mpr fun y hy hmt => h ⟨x,hx,y,hy,hmt⟩
  have hy : ∀ y ∈ Y, (partners m y X).card = 0 := fun y hy =>
    partners_eq_zero_iff.mpr fun x hx hmt => h ⟨x,hx,y,hy,(hm x hx y hy).trans hmt⟩
  have hleft : (leftJoin .outer m X Y).card = X.card := by
    have hone : ∀ x ∈ X, ((LeftKind.outer.extensions (partners m x Y)).map x.merge).card = 1 := by
      intro x hmem
      rw [card_map,LeftKind.extensions,if_pos (hx x hmem),card_singleton]
    have hmap : X.map (card ∘ fun x =>
        (LeftKind.outer.extensions (partners m x Y)).map x.merge) = X.map fun _ => 1 :=
      Multiset.map_congr rfl hone
    rw [leftJoin,card_bind,hmap,map_const',sum_replicate,smul_eq_mul,mul_one]
  rw [fullJoin,card_add,hleft,leftJoin_anti_eq_unmatched,unmatched,filter_eq_self.mpr hy]

theorem card_fullJoin_le_of_match (hm : ∀ x ∈ X, ∀ y ∈ Y, m (x.merge y) = m (y.merge x))
    (h : SomeMatch m X Y) : (fullJoin m X Y).card ≤ X.card * Y.card := by
  obtain ⟨x₀,hx₀,y₀,hy₀,hmt⟩ := h
  have hsp : (Y.filter fun y => ¬ (partners m y X).card = 0).card +
      (unmatched m Y X).card = Y.card := by
    rw [unmatched,add_comm,← card_add,filter_add_not]
  set matched := (Y.filter fun y => ¬ (partners m y X).card = 0).card with hmat
  have hpos : 1 ≤ matched := by
    refine card_pos_iff_exists_mem.mpr ⟨y₀,mem_filter.mpr ⟨hy₀,?_⟩⟩
    intro hzero
    exact partners_eq_zero_iff.mp hzero x₀ hx₀ ((hm x₀ hx₀ y₀ hy₀).symm.trans hmt)
  have hpa : ∀ x ∈ X, (partners m x Y).card ≤ matched := by
    intro x hx
    refine card_le_card (le_filter.mpr ⟨partners_le m x Y,?_⟩)
    intro y hy hzero
    obtain ⟨hyY,hxy⟩ := mem_filter.mp hy
    exact partners_eq_zero_iff.mp hzero x hx ((hm x hx y hyY).symm.trans hxy)
  have hleft : (leftJoin .outer m X Y).card ≤ X.card * matched := by
    refine card_bind_le fun x hx => ?_
    rw [card_map]
    exact (LeftKind.card_extensions_le .outer _).trans (max_le hpos (hpa x hx))
  have hX : 1 ≤ X.card := card_pos_iff_exists_mem.mpr ⟨x₀,hx₀⟩
  calc (fullJoin m X Y).card
      = (leftJoin .outer m X Y).card + (unmatched m Y X).card := by
        rw [fullJoin,card_add,leftJoin_anti_eq_unmatched]
    _ ≤ X.card * matched + X.card * (unmatched m Y X).card :=
        Nat.add_le_add hleft (Nat.le_mul_of_pos_left _ hX)
    _ = X.card * Y.card := by rw [← mul_add,hsp]

end PgOrca
