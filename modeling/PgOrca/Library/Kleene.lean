import Mathlib

/-!
# Three-valued logic

Truth values are `some true`, `some false` and `none` for NULL. The connectives commute with either
reading of NULL, and negation swaps the two.
-/

namespace PgOrca

namespace Kleene

variable {s t : Option Bool} {ts : List (Option Bool)}

def not (t : Option Bool) : Option Bool := t.map Bool.not

def and : Option Bool → Option Bool → Option Bool
  | some false, _ => some false
  | _, some false => some false
  | some true, some true => some true
  | _, _ => none

def or : Option Bool → Option Bool → Option Bool
  | some true, _ => some true
  | _, some true => some true
  | some false, some false => some false
  | _, _ => none

def all (ts : List (Option Bool)) : Option Bool := ts.foldr and (some true)

def any (ts : List (Option Bool)) : Option Bool := ts.foldr or (some false)

def anyOf (ts : Multiset (Option Bool)) : Option Bool :=
  if some true ∈ ts then some true else if none ∈ ts then none else some false

def allOf (ts : Multiset (Option Bool)) : Option Bool :=
  if some false ∈ ts then some false else if none ∈ ts then none else some true

@[simp] theorem getD_not (t : Option Bool) (nulls : Bool) :
    (not t).getD nulls = !t.getD (!nulls) := by
  cases t <;> simp [not]

@[simp] theorem getD_and (s t : Option Bool) (nulls : Bool) :
    (and s t).getD nulls = (s.getD nulls && t.getD nulls) := by
  rcases s with _ | _ | _ <;> rcases t with _ | _ | _ <;> cases nulls <;> rfl

@[simp] theorem getD_or (s t : Option Bool) (nulls : Bool) :
    (or s t).getD nulls = (s.getD nulls || t.getD nulls) := by
  rcases s with _ | _ | _ <;> rcases t with _ | _ | _ <;> cases nulls <;> rfl

@[simp] theorem all_cons (t : Option Bool) (ts : List (Option Bool)) :
    all (t :: ts) = and t (all ts) := rfl

@[simp] theorem any_cons (t : Option Bool) (ts : List (Option Bool)) :
    any (t :: ts) = or t (any ts) := rfl

theorem true_and (t : Option Bool) : and (some true) t = t := by
  rcases t with _ | _ | _ <;> rfl

theorem and_true (t : Option Bool) : and t (some true) = t := by
  rcases t with _ | _ | _ <;> rfl

theorem some_and_some (a b : Bool) : and (some a) (some b) = some (a && b) := by
  cases a <;> cases b <;> rfl

theorem false_or (t : Option Bool) : or (some false) t = t := by
  rcases t with _ | _ | _ <;> rfl

theorem or_false (t : Option Bool) : or t (some false) = t := by
  rcases t with _ | _ | _ <;> rfl

theorem getD_all (ts : List (Option Bool)) (nulls : Bool) :
    (all ts).getD nulls = ts.all fun t => t.getD nulls := by
  induction ts with
  | nil => rfl
  | cons t ts ih => rw [all_cons,getD_and,ih,List.all_cons]

theorem getD_any (ts : List (Option Bool)) (nulls : Bool) :
    (any ts).getD nulls = ts.any fun t => t.getD nulls := by
  induction ts with
  | nil => rfl
  | cons t ts ih => rw [any_cons,getD_or,ih,List.any_cons]

theorem and_eq_true_iff : and s t = some true ↔ s = some true ∧ t = some true := by
  rcases s with _ | _ | _ <;> rcases t with _ | _ | _ <;> simp [and]

theorem or_eq_true_iff : or s t = some true ↔ s = some true ∨ t = some true := by
  rcases s with _ | _ | _ <;> rcases t with _ | _ | _ <;> simp [or]

theorem all_eq_true_iff : all ts = some true ↔ ∀ t ∈ ts, t = some true := by
  induction ts with
  | nil => simp [all]
  | cons t ts ih => rw [all_cons,and_eq_true_iff,ih,List.forall_mem_cons]

theorem any_eq_true_iff : any ts = some true ↔ ∃ t ∈ ts, t = some true := by
  induction ts with
  | nil => simp [any]
  | cons t ts ih => rw [any_cons,or_eq_true_iff,ih,List.exists_mem_cons_iff]

theorem and_eq_false_iff : and s t = some false ↔ s = some false ∨ t = some false := by
  rcases s with _ | _ | _ <;> rcases t with _ | _ | _ <;> simp [and]

theorem or_eq_false_iff : or s t = some false ↔ s = some false ∧ t = some false := by
  rcases s with _ | _ | _ <;> rcases t with _ | _ | _ <;> simp [or]

theorem all_eq_false_iff : all ts = some false ↔ ∃ t ∈ ts, t = some false := by
  induction ts with
  | nil => simp [all]
  | cons t ts ih => rw [all_cons,and_eq_false_iff,ih,List.exists_mem_cons_iff]

theorem any_eq_false_iff : any ts = some false ↔ ∀ t ∈ ts, t = some false := by
  induction ts with
  | nil => simp [any]
  | cons t ts ih => rw [any_cons,or_eq_false_iff,ih,List.forall_mem_cons]

theorem eq_none_iff : t = none ↔ t ≠ some true ∧ t ≠ some false := by
  rcases t with _ | _ | _ <;> simp

theorem all_eq_none (hne : ts ≠ []) (h : ∀ t ∈ ts, t = none) : all ts = none := by
  obtain ⟨t,ht⟩ := List.exists_mem_of_ne_nil ts hne
  refine eq_none_iff.mpr ⟨fun heq => ?_,fun heq => ?_⟩
  · exact absurd ((h t ht).symm.trans (all_eq_true_iff.mp heq t ht)) nofun
  · obtain ⟨s,hs,hff⟩ := all_eq_false_iff.mp heq
    exact absurd ((h s hs).symm.trans hff) nofun

theorem any_eq_none (hne : ts ≠ []) (h : ∀ t ∈ ts, t = none) : any ts = none := by
  obtain ⟨t,ht⟩ := List.exists_mem_of_ne_nil ts hne
  refine eq_none_iff.mpr ⟨fun heq => ?_,fun heq => ?_⟩
  · obtain ⟨s,hs,htrue⟩ := any_eq_true_iff.mp heq
    exact absurd ((h s hs).symm.trans htrue) nofun
  · exact absurd ((h t ht).symm.trans (any_eq_false_iff.mp heq t ht)) nofun

theorem any_append (ss ts : List (Option Bool)) : any (ss ++ ts) = or (any ss) (any ts) := by
  induction ss with
  | nil => exact (false_or _).symm
  | cons s ss ih =>
    rw [List.cons_append,any_cons,ih,any_cons]
    rcases s with _ | _ | _ <;> rcases any ss with _ | _ | _ <;> rcases any ts with _ | _ | _ <;> rfl

theorem all_map_some {α : Type*} (p : α → Bool) (l : List α) :
    all (l.map fun a => some (p a)) = some (l.all p) := by
  induction l with
  | nil => rfl
  | cons a l ih =>
    rw [List.map_cons,all_cons,ih,List.all_cons]
    cases p a <;> cases l.all p <;> rfl

theorem any_map_some {α : Type*} (p : α → Bool) (l : List α) :
    any (l.map fun a => some (p a)) = some (l.any p) := by
  induction l with
  | nil => rfl
  | cons a l ih =>
    rw [List.map_cons,any_cons,ih,List.any_cons]
    cases p a <;> cases l.any p <;> rfl

theorem allOf_map_not (ts : Multiset (Option Bool)) : allOf (ts.map not) = not (anyOf ts) := by
  have hmem (t : Option Bool) : not t ∈ ts.map not ↔ t ∈ ts :=
    Multiset.mem_map_of_injective (Option.map_injective Bool.involutive_not.injective)
  have htrue : some false ∈ ts.map not ↔ some true ∈ ts := hmem (some true)
  have hnull : none ∈ ts.map not ↔ none ∈ ts := hmem none
  simp only [allOf,anyOf,htrue,hnull]
  split_ifs <;> rfl

end Kleene

end PgOrca
