import Mathlib

/-!
# Splitting a bag by a key

A bag is the sum of its groups of equal keys, taken once for every key.
-/

namespace PgOrca

open Multiset

variable {α β : Type*} [DecidableEq β]

def keysOf (f : α → β) (X : Multiset α) : Multiset β := (X.map f).dedup

def withKey (f : α → β) (X : Multiset α) (key : β) : Multiset α := X.filter fun x => f x = key

variable {f : α → β} {X : Multiset α}

theorem mem_keysOf {key : β} : key ∈ keysOf f X ↔ ∃ x ∈ X, f x = key := by
  rw [keysOf,mem_dedup,mem_map]

theorem nodup_keysOf (f : α → β) (X : Multiset α) : (keysOf f X).Nodup := nodup_dedup _

theorem mem_withKey {key : β} {x : α} : x ∈ withKey f X key ↔ x ∈ X ∧ f x = key :=
  mem_filter

theorem withKey_map {γ : Type*} (f : α → β) (g : γ → α) (Z : Multiset γ) (key : β) :
    withKey f (Z.map g) key = (Z.filter fun z => f (g z) = key).map g := filter_map _ _ _

theorem bind_withKey (f : α → β) (X : Multiset α) : (keysOf f X).bind (withKey f X) = X := by
  classical
  ext x
  have hcnt : ∀ key, (withKey f X key).count x = if f x = key then X.count x else 0 :=
    fun key => count_filter
  have hsum : ∀ K : Multiset β, K.Nodup →
      (K.map fun key => if f x = key then X.count x else 0).sum
        = if f x ∈ K then X.count x else 0 := by
    intro K
    induction K using Multiset.induction_on with
    | empty => exact fun _ => rfl
    | cons key K ih =>
      intro hn
      obtain ⟨hkey,hK⟩ := nodup_cons.mp hn
      rw [map_cons,sum_cons,ih hK]
      by_cases h : f x = key
      · have : f x ∉ K := fun hmem => hkey (h ▸ hmem)
        simp [h ▸ this,h]
      · simp [h]
  rw [count_bind]
  simp only [hcnt]
  rw [hsum _ (nodup_keysOf f X)]
  by_cases hx : x ∈ X
  · rw [if_pos (mem_keysOf.mpr ⟨x,hx,rfl⟩)]
  · rw [count_eq_zero_of_notMem hx,ite_self]

section

variable {γ : Type*} {Z : Multiset γ} {E : γ → Multiset α} {key : γ → β}

theorem keysOf_bind (hE : ∀ z ∈ Z, E z ≠ 0) (hkey : ∀ z ∈ Z, ∀ e ∈ E z, f e = key z)
    (hn : (Z.map key).Nodup) : keysOf f (Z.bind E) = Z.map key := by
  refine (Multiset.Nodup.ext (nodup_keysOf f _) hn).mpr fun k => ?_
  rw [mem_keysOf,mem_map]
  constructor
  · rintro ⟨e,he,rfl⟩
    obtain ⟨z,hz,hez⟩ := mem_bind.mp he
    exact ⟨z,hz,(hkey z hz e hez).symm⟩
  · rintro ⟨z,hz,rfl⟩
    obtain ⟨e,he⟩ := exists_mem_of_ne_zero (hE z hz)
    exact ⟨e,mem_bind.mpr ⟨z,hz,he⟩,hkey z hz e he⟩

theorem withKey_bind (hkey : ∀ z ∈ Z, ∀ e ∈ E z, f e = key z) (hn : (Z.map key).Nodup) {z : γ}
    (hz : z ∈ Z) : withKey f (Z.bind E) (key z) = E z := by
  obtain ⟨Z,rfl⟩ := exists_cons_of_mem hz
  have hfr : key z ∉ Z.map key := (nodup_cons.mp (by rwa [map_cons] at hn)).1
  have hself : (E z).filter (fun e => f e = key z) = E z :=
    filter_eq_self.mpr (hkey z hz)
  have hrest : (Z.bind E).filter (fun e => f e = key z) = 0 := by
    refine filter_eq_nil.mpr fun e he heq => hfr ?_
    obtain ⟨z',hz',he'⟩ := mem_bind.mp he
    exact mem_map.mpr ⟨z',hz',by
      rw [← hkey z' (mem_cons_of_mem hz') e he',heq]⟩
  rw [withKey,cons_bind,filter_add,hself,hrest,add_zero]

end

end PgOrca
