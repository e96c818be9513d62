import PgOrca.Library.Rows

/-!
# Rows over lists of columns

Positional operations read a row as the tuple of its values at a list of columns.
-/

namespace PgOrca

variable {κ ν : Type*} [DecidableEq κ]

namespace Row

variable {columns : List κ}

def restrict (C : Finset κ) (r : Row κ ν) : Row κ ν := fun c => if c ∈ C then r c else none

/-- What a scalar over an input with the columns `C` reads below the outer row `outer`. -/
def scope (C : Finset κ) (r outer : Row κ ν) : Row κ ν := fun c => if c ∈ C then r c else outer c

def AgreeOn (C : Finset κ) (r s : Row κ ν) : Prop := ∀ c ∈ C, r c = s c

def tuple (columns : List κ) (r : Row κ ν) : List (Option ν) := columns.map r

/-- The row with the given values at the columns; the first of several equal columns counts. -/
def ofTuple : List κ → List (Option ν) → Row κ ν
  | c :: columns, v :: values => fun d => if d = c then v else ofTuple columns values d
  | _, _ => null

variable {C D : Finset κ} {r s u : Row κ ν}

omit [DecidableEq κ] in
theorem AgreeOn.refl (C : Finset κ) (r : Row κ ν) : AgreeOn C r r := fun _ _ => rfl

omit [DecidableEq κ] in
theorem AgreeOn.symm (h : AgreeOn C r s) : AgreeOn C s r := fun c hc => (h c hc).symm

omit [DecidableEq κ] in
theorem AgreeOn.trans (h : AgreeOn C r s) (h' : AgreeOn C s u) : AgreeOn C r u :=
  fun c hc => (h c hc).trans (h' c hc)

omit [DecidableEq κ] in
theorem AgreeOn.mono (h : AgreeOn D r s) (hCD : C ⊆ D) : AgreeOn C r s :=
  fun c hc => h c (hCD hc)

theorem restrict_eq_iff : restrict C r = restrict C s ↔ AgreeOn C r s := by
  constructor
  · intro h c hc
    have := congrFun h c
    simpa only [restrict,if_pos hc] using this
  · intro h
    funext c
    by_cases hc : c ∈ C
    · simp only [restrict,if_pos hc,h c hc]
    · simp only [restrict,if_neg hc]

@[simp]
theorem scope_restrict (C : Finset κ) (r outer : Row κ ν) :
    (restrict C r).scope C outer = r.scope C outer := by
  funext c
  by_cases hc : c ∈ C <;> simp [scope,restrict,hc]

theorem restrict_supportedOn (C : Finset κ) (r : Row κ ν) : (restrict C r).SupportedOn C := by
  intro c hc
  simp only [restrict,if_neg (fun h => hc (Finset.mem_coe.mpr h))]

theorem restrict_of_supportedOn (h : r.SupportedOn C) : restrict C r = r := by
  funext c
  by_cases hc : c ∈ C
  · rw [restrict,if_pos hc]
  · rw [restrict,if_neg hc,h c hc]

theorem agreeOn_restrict (hCD : C ⊆ D) (r : Row κ ν) : AgreeOn C (restrict D r) r := by
  intro c hc
  simp only [restrict,if_pos (hCD hc)]

omit [DecidableEq κ] in
theorem tuple_eq_iff :
    tuple columns r = tuple columns s ↔ ∀ c ∈ columns, r c = s c := List.map_inj_left

theorem tuple_congr (h : AgreeOn columns.toFinset r s) : r.tuple columns = s.tuple columns :=
  tuple_eq_iff.mpr fun c hc => h c (List.mem_toFinset.mpr hc)

theorem AgreeOn.scope (h : AgreeOn (C \ D) r s) (y : Row κ ν) :
    AgreeOn C (y.scope D r) (y.scope D s) := by
  intro c hc
  by_cases hD : c ∈ D
  · simp only [Row.scope,if_pos hD]
  · simp only [Row.scope,if_neg hD,h c (Finset.mem_sdiff.mpr ⟨hc,hD⟩)]

theorem ofTuple_cons (c : κ) (columns : List κ) (v : Option ν) (values : List (Option ν)) (d : κ) :
    ofTuple (c :: columns) (v :: values) d = if d = c then v else ofTuple columns values d := rfl

theorem ofTuple_of_notMem (values : List (Option ν)) {c : κ}
    (h : c ∉ columns) : ofTuple columns values c = none := by
  induction columns generalizing values with
  | nil => rfl
  | cons d columns ih =>
    obtain ⟨hcd,hc⟩ := not_or.mp (List.mem_cons.not.mp h)
    cases values with
    | nil => rfl
    | cons v values =>
      rw [ofTuple_cons,if_neg hcd]
      exact ih values hc

theorem ofTuple_supportedOn (columns : List κ) (values : List (Option ν)) :
    (ofTuple columns values).SupportedOn (columns.toFinset : Finset κ) := by
  intro c hc
  exact ofTuple_of_notMem values fun h => hc (Finset.mem_coe.mpr (List.mem_toFinset.mpr h))

theorem ofTuple_tuple {c : κ} (h : c ∈ columns) : ofTuple columns (tuple columns r) c = r c := by
  induction columns with
  | nil => cases h
  | cons d columns ih =>
    rw [tuple,List.map_cons,ofTuple_cons]
    by_cases hcd : c = d
    · rw [if_pos hcd,hcd]
    · rw [if_neg hcd]
      exact ih ((List.mem_cons.mp h).resolve_left hcd)

theorem tuple_ofTuple {values : List (Option ν)} (hn : columns.Nodup)
    (hl : values.length = columns.length) : tuple columns (ofTuple columns values) = values := by
  induction columns generalizing values with
  | nil => rw [List.length_eq_zero_iff.mp hl,tuple,List.map_nil]
  | cons d columns ih =>
    obtain ⟨v,values,rfl⟩ := List.exists_cons_of_length_eq_add_one hl
    have hd : d ∉ columns := (List.nodup_cons.mp hn).1
    have hrest : tuple columns (ofTuple (d :: columns) (v :: values))
        = tuple columns (ofTuple columns values) := by
      rw [tuple_eq_iff]
      intro c hc
      have hcd : c ≠ d := fun heq => hd (heq ▸ hc)
      rw [ofTuple_cons,if_neg hcd]
    have hhead : ofTuple (d :: columns) (v :: values) d = v := if_pos rfl
    rw [tuple,List.map_cons,hhead]
    congr 1
    exact hrest.trans (ih (List.nodup_cons.mp hn).2 (by simpa using hl))

end Row

end PgOrca
