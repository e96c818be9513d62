import Mathlib

/-!
# Lists that correspond element by element

List functions that look at their elements only through tests on which related elements agree keep
lists in correspondence (`List.Forall₂`).
-/

namespace PgOrca

open List

section

variable {α β γ δ : Type*} {R : α → β → Prop} {S : γ → δ → Prop} {X : List α} {Y : List β}

section

variable (h : List.Forall₂ R X Y)

include h

theorem aligned_filter {p : α → Bool} {q : β → Bool}
    (hpq : ∀ a b, R a b → p a = q b) : List.Forall₂ R (X.filter p) (Y.filter q) :=
  rel_filter (fun {a b} hab => Iff.of_eq (congrArg (· = true) (hpq a b hab))) h

theorem aligned_map {f : α → γ} {g : β → δ}
    (hfg : ∀ a b, R a b → S (f a) (g b)) : List.Forall₂ S (X.map f) (Y.map g) :=
  rel_map (fun {a b} hab => hfg a b hab) h

theorem aligned_flatMap {f : α → List γ} {g : β → List δ}
    (hfg : ∀ a b, R a b → List.Forall₂ S (f a) (g b)) :
    List.Forall₂ S (X.flatMap f) (Y.flatMap g) :=
  rel_flatMap h fun {a b} hab => hfg a b hab

theorem map_eq_of_aligned {f : α → γ} {g : β → γ}
    (hfg : ∀ a b, R a b → f a = g b) : X.map f = Y.map g := by
  induction h with
  | nil => rfl
  | cons hab _ ih => rw [map_cons,map_cons,hfg _ _ hab,ih]

theorem isEmpty_eq_of_aligned : X.isEmpty = Y.isEmpty := by
  cases h <;> rfl

theorem any_eq_of_aligned {p : α → Bool} {q : β → Bool}
    (hpq : ∀ a b, R a b → p a = q b) : X.any p = Y.any q := by
  induction h with
  | nil => rfl
  | cons hab _ ih => rw [List.any_cons,List.any_cons,hpq _ _ hab,ih]

theorem aligned_mapIdx {f : ℕ → α → γ} {g : ℕ → β → δ}
    (hfg : ∀ i a b, R a b → S (f i a) (g i b)) : List.Forall₂ S (X.mapIdx f) (Y.mapIdx g) := by
  induction h generalizing f g with
  | nil => exact .nil
  | cons hab _ ih =>
    rw [mapIdx_cons,mapIdx_cons]
    exact .cons (hfg 0 _ _ hab) (ih fun i => hfg (i + 1))

theorem aligned_map_get (positions : List (Fin X.length)) :
    List.Forall₂ R (positions.map X.get)
      ((positions.map (Fin.cast h.length_eq)).map Y.get) := by
  rw [map_map,forall₂_map_left_iff,forall₂_map_right_iff,forall₂_same]
  exact fun i _ => h.get i.isLt (h.length_eq ▸ i.isLt)

theorem exists_aligned_left {b : β} (hb : b ∈ Y) : ∃ a ∈ X, R a b := by
  induction h with
  | nil => exact absurd hb not_mem_nil
  | @cons a b' X Y hab _ ih =>
    rcases mem_cons.mp hb with rfl | hb
    · exact ⟨a,mem_cons_self,hab⟩
    · obtain ⟨a',ha',hab'⟩ := ih hb
      exact ⟨a',mem_cons_of_mem _ ha',hab'⟩

end

end

end PgOrca
