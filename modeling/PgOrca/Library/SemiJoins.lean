import PgOrca.Library.Grouping
import PgOrca.Library.JoinSize
import PgOrca.Library.Keys

/-!
# Joins that only filter their left input

A semi or anti join filters its left input. An inner join repeats every left row once for each
partner, which is a filter as well exactly when no row has more than one partner.
-/

namespace PgOrca

open Multiset

section

variable {α : Type*} {X : Multiset α}

theorem filter_eq_filter_iff {p q : α → Prop} [DecidablePred p] [DecidablePred q] :
    X.filter p = X.filter q ↔ ∀ x ∈ X, (p x ↔ q x) := by
  constructor
  · intro h x hx
    have hmem : x ∈ X.filter p ↔ x ∈ X.filter q := by rw [h]
    simpa [hx] using hmem
  · exact filter_congr

theorem bind_replicate_of_le_one {n : α → ℕ} (h : ∀ x ∈ X, n x ≤ 1) :
    (X.bind fun x => replicate (n x) x) = X.filter fun x => n x ≠ 0 := by
  induction X using Multiset.induction_on with
  | empty => rfl
  | cons x X ih =>
    rw [cons_bind,filter_cons,ih fun y hy => h y (mem_cons_of_mem hy)]
    rcases Nat.le_one_iff_eq_zero_or_eq_one.mp (h x (mem_cons_self x X)) with h | h <;> simp [h]

theorem bind_replicate_eq_filter_iff {n : α → ℕ} :
    (X.bind fun x => replicate (n x) x) = X.filter (fun x => n x ≠ 0) ↔ ∀ x ∈ X, n x ≤ 1 := by
  refine ⟨fun h => ?_,bind_replicate_of_le_one⟩
  have hcut : (X.bind fun x => replicate (min (n x) 1) x) = X.filter fun x => n x ≠ 0 := by
    rw [bind_replicate_of_le_one fun x _ => min_le_right _ _]
    apply filter_congr
    intro x _
    omega
  have hsum := congrArg card (h.trans hcut.symm)
  simp only [card_bind,Function.comp_def,card_replicate] at hsum
  by_contra hmany
  push Not at hmany
  obtain ⟨x,hx,hlt⟩ := hmany
  have hless : (X.map fun x => min (n x) 1).sum < (X.map n).sum :=
    sum_lt_sum (fun _ _ => min_le_left _ _) ⟨x,hx,by omega⟩
  exact hless.ne' hsum

theorem bind_filter_card_ne_zero {β : Type*} (X : Multiset α) (f : α → Multiset β) :
    (X.filter fun x => (f x).card ≠ 0).bind f = X.bind f := by
  induction X using Multiset.induction_on with
  | empty => rfl
  | cons x X ih =>
    rw [cons_bind,filter_cons,add_bind,ih]
    by_cases h : f x = 0 <;> simp [h]

end

variable {κ ν : Type*} {m : Row κ ν → Bool} {X Y : Multiset (Row κ ν)}

theorem leftJoin_semi_eq_filter (m : Row κ ν → Bool) (X Y : Multiset (Row κ ν)) :
    leftJoin .semi m X Y = X.filter fun x => (partners m x Y).card ≠ 0 := by
  induction X using Multiset.induction_on with
  | empty => rfl
  | cons x X ih =>
    rw [leftJoin,cons_bind,← leftJoin,ih,filter_cons]
    by_cases h : (partners m x Y).card = 0 <;> simp [LeftKind.extensions,h]

theorem restrict_leftJoin_inner [DecidableEq κ] {L R : Finset κ} (hX : Over X L) (hY : Over Y R)
    (hLR : Disjoint L R) : (leftJoin .inner m X Y).map (Row.restrict L) =
      X.bind fun x => replicate (partners m x Y).card x := by
  rw [leftJoin,Multiset.map_bind]
  apply Multiset.bind_congr
  intro x hx
  rw [map_map,LeftKind.extensions,← map_const']
  apply Multiset.map_congr rfl
  intro y hy
  have hyR := hY y (mem_of_le (partners_le m x Y) hy)
  funext c
  by_cases hc : c ∈ L
  · have hcR : c ∉ (R : Set κ) := fun h => Finset.disjoint_left.mp hLR hc (Finset.mem_coe.mp h)
    simp [Row.restrict,hc,Row.merge,hyR c hcR]
  · simp [Row.restrict,hc,hX x hx c (by simpa using hc)]

section

variable [DecidableEq κ] {m' : Row κ ν → Bool} {Y' : Multiset (Row κ ν)} {G : Finset κ}
  {x : Row κ ν}

/-- The bag has one row for each combination of values of `G` in the other. -/
structure Represents (G : Finset κ) (Y' Y : Multiset (Row κ ν)) : Prop where
  key : IsKey G Y'
  exists_row : ∀ y' ∈ Y', ∃ y ∈ Y, Row.AgreeOn G y' y
  exists_representative : ∀ y ∈ Y, ∃ y' ∈ Y', Row.AgreeOn G y' y

theorem Represents.refl (h : IsKey G Y) : Represents G Y Y :=
  ⟨h,fun y hy => ⟨y,hy,.refl G y⟩,fun y hy => ⟨y,hy,.refl G y⟩⟩

namespace Represents

variable (h : Represents G Y' Y)
  (hm : ∀ y' ∈ Y', ∀ y ∈ Y, Row.AgreeOn G y' y → m' (x.merge y') = m (x.merge y))
include h hm

theorem partners : Represents G (partners m' x Y') (partners m x Y) := by
  refine ⟨h.key.of_le (partners_le _ _ _),fun y' hy' => ?_,fun y hy => ?_⟩
  · obtain ⟨hy',hmt⟩ := mem_filter.mp hy'
    obtain ⟨y,hy,hag⟩ := h.exists_row y' hy'
    exact ⟨y,mem_filter.mpr ⟨hy,by rwa [← hm y' hy' y hy hag]⟩,hag⟩
  · obtain ⟨hy,hmt⟩ := mem_filter.mp hy
    obtain ⟨y',hy',hag⟩ := h.exists_representative y hy
    exact ⟨y',mem_filter.mpr ⟨hy',by rwa [hm y' hy' y hy hag]⟩,hag⟩

omit m m' x hm
theorem card_ne_zero_iff : Y'.card ≠ 0 ↔ Y.card ≠ 0 := by
  simp only [← Nat.pos_iff_ne_zero,card_pos_iff_exists_mem]
  constructor
  · rintro ⟨y',hy'⟩
    obtain ⟨y,hy,_⟩ := h.exists_row y' hy'
    exact ⟨y,hy⟩
  · rintro ⟨y,hy⟩
    obtain ⟨y',hy',_⟩ := h.exists_representative y hy
    exact ⟨y',hy'⟩

theorem card_le_one_iff : Y'.card ≤ 1 ↔ ∀ y ∈ Y, ∀ z ∈ Y, Row.AgreeOn G y z := by
  constructor
  · intro hcard y hy z hz
    obtain ⟨y',hy',hyy⟩ := h.exists_representative y hy
    obtain ⟨z',hz',hzz⟩ := h.exists_representative z hz
    obtain ⟨s,hs⟩ := card_eq_one.mp (hcard.antisymm (card_pos_iff_exists_mem.mpr ⟨y',hy'⟩))
    rw [hs,mem_singleton] at hy' hz'
    exact (hy' ▸ hyy).symm.trans (hz' ▸ hzz)
  · intro hag
    rcases Y'.empty_or_exists_mem with rfl | ⟨s,hs⟩
    · exact Nat.zero_le 1
    · refine h.key.card_le_one (r := s) fun t ht => ?_
      obtain ⟨y,hy,hty⟩ := h.exists_row t ht
      obtain ⟨z,hz,hsz⟩ := h.exists_row s hs
      exact (hty.trans (hag y hy z hz)).trans hsz.symm

end Represents

end

section

variable [DecidableEq κ] [DecidableEq ν] {L R : Finset κ} {columns : List κ}
  (hY : Over Y R) (hLR : Disjoint L R) (hcolumns : columns.toFinset ⊆ L)
  (hkey : IsKey columns.toFinset X)
include hY hLR hcolumns

omit [DecidableEq ν] in
theorem tuple_merge_partner (x : Row κ ν) : ∀ r ∈ (partners m x Y).map x.merge,
    r.tuple columns = x.tuple columns := by
  intro r hr
  obtain ⟨y,hy,rfl⟩ := mem_map.mp hr
  refine Row.tuple_congr fun c hc => ?_
  have hcR : c ∉ (R : Set κ) := Finset.disjoint_left.mp hLR (hcolumns hc)
  simp [Row.merge,hY y (mem_of_le (partners_le m x Y) hy) c hcR]

include hkey

/-- Grouping a join by a key of its left input makes one group of every left row with partners. -/
theorem keysOf_leftJoin_inner : keysOf (Row.tuple columns) (leftJoin .inner m X Y) =
    (X.filter fun x => (partners m x Y).card ≠ 0).map (Row.tuple columns) := by
  have hfil := bind_filter_card_ne_zero X fun x => (partners m x Y).map x.merge
  simp only [card_map] at hfil
  rw [leftJoin]
  simp only [LeftKind.extensions]
  rw [← hfil]
  refine keysOf_bind (fun x hx => ?_) (fun x _ => tuple_merge_partner hY hLR hcolumns x) ?_
  · rw [← card_pos,card_map]
    exact Nat.pos_of_ne_zero (mem_filter.mp hx).2
  · refine Multiset.Nodup.map_on (fun x hx y hy heq => ?_) (hkey.nodup.filter _)
    refine hkey.eq_of_agreeOn (mem_of_mem_filter hx) (mem_of_mem_filter hy) fun c hc => ?_
    exact Row.tuple_eq_iff.mp heq c (List.mem_toFinset.mp hc)

end

end PgOrca
