import Mathlib

/-!
# Rows and joins of bags of rows

A row over few columns is NULL everywhere else, so that combining two rows over disjoint columns and
extending a row by NULLs are the same operation.
-/

namespace PgOrca

open Multiset
open Option (or_none none_or)

variable {κ ν : Type*}

/-- A row: `none` is NULL. -/
abbrev Row (κ ν : Type*) := κ → Option ν

namespace Row

def null : Row κ ν := fun _ => none

def merge (r s : Row κ ν) : Row κ ν := fun c => (r c).or (s c)

def SupportedOn (r : Row κ ν) (C : Set κ) : Prop := ∀ c, c ∉ C → r c = none

def AgreeOff (C : Set κ) (r s : Row κ ν) : Prop := ∀ c, c ∉ C → r c = s c

variable {r s u : Row κ ν} {C D : Set κ}

@[simp] theorem merge_null (r : Row κ ν) : merge r null = r := by
  funext c
  exact or_none

@[simp] theorem null_merge (r : Row κ ν) : merge null r = r := by
  funext c
  exact none_or

theorem merge_assoc (r s u : Row κ ν) : merge (merge r s) u = merge r (merge s u) := by
  funext c
  exact Option.or_assoc

theorem null_supportedOn (C : Set κ) : (null : Row κ ν).SupportedOn C := fun _ _ => rfl

theorem SupportedOn.mono (h : r.SupportedOn C) (hCD : C ⊆ D) : r.SupportedOn D :=
  fun c hc => h c fun hmem => hc (hCD hmem)

theorem SupportedOn.merge (hr : r.SupportedOn C) (hs : s.SupportedOn D) :
    (merge r s).SupportedOn (C ∪ D) := by
  intro c hc
  rw [Set.mem_union,not_or] at hc
  simp only [Row.merge,hr c hc.1,hs c hc.2,or_none]

theorem merge_comm (hr : r.SupportedOn C) (hs : s.SupportedOn D) (hCD : Disjoint C D) :
    merge r s = merge s r := by
  funext c
  by_cases hc : c ∈ C
  · simp only [merge,hs c (Set.disjoint_left.mp hCD hc),or_none,none_or]
  · simp only [merge,hr c hc,or_none,none_or]

theorem merge_right_comm (hs : s.SupportedOn C) (hu : u.SupportedOn D) (hCD : Disjoint C D) :
    merge (merge r s) u = merge (merge r u) s := by
  rw [merge_assoc,merge_assoc,merge_comm hs hu hCD]

theorem agreeOff_merge_right (hs : s.SupportedOn C) : AgreeOff C (merge r s) r := by
  intro c hc
  simp only [merge,hs c hc,or_none]

theorem AgreeOff.merge_congr (h : AgreeOff C r s) (u : Row κ ν) :
    AgreeOff C (merge r u) (merge s u) := by
  intro c hc
  simp only [merge,h c hc]

theorem agreeOff_merge_left (hs : s.SupportedOn C) : AgreeOff C (merge s r) r := by
  intro c hc
  simp only [merge,hs c hc,none_or]

theorem AgreeOff.merge_left (h : AgreeOff C r s) (u : Row κ ν) :
    AgreeOff C (merge u r) (merge u s) := by
  intro c hc
  simp only [merge,h c hc]

end Row

def Ignores (m : Row κ ν → Bool) (C : Set κ) : Prop :=
  ∀ r s, Row.AgreeOff C r s → m r = m s

def Over (X : Multiset (Row κ ν)) (C : Set κ) : Prop := ∀ x ∈ X, x.SupportedOn C

inductive LeftKind where
  | inner
  | outer
  | semi
  | anti
  deriving DecidableEq

namespace LeftKind

variable {partners : Multiset (Row κ ν)}

/-- By which rows a left row is extended, given the right rows it matches. -/
def extensions : LeftKind → Multiset (Row κ ν) → Multiset (Row κ ν)
  | inner, partners => partners
  | outer, partners => if partners.card = 0 then {Row.null} else partners
  | semi, partners => if partners.card = 0 then 0 else {Row.null}
  | anti, partners => if partners.card = 0 then {Row.null} else 0

theorem mem_extensions {k : LeftKind} {w : Row κ ν}
    (h : w ∈ k.extensions partners) : w ∈ partners ∨ w = Row.null := by
  cases k with
  | inner => exact .inl h
  | outer =>
    simp only [extensions] at h
    split at h
    · exact .inr (mem_singleton.mp h)
    · exact .inl h
  | semi =>
    simp only [extensions] at h
    split at h
    · cases notMem_zero _ h
    · exact .inr (mem_singleton.mp h)
  | anti =>
    simp only [extensions] at h
    split at h
    · exact .inr (mem_singleton.mp h)
    · cases notMem_zero _ h

theorem eq_null_of_mem_extensions {k : LeftKind} (hk : k = .semi ∨ k = .anti) {w : Row κ ν}
    (h : w ∈ k.extensions partners) : w = Row.null := by
  rcases hk with rfl | rfl <;> simp only [extensions] at h <;> split at h
  · cases notMem_zero _ h
  · exact mem_singleton.mp h
  · exact mem_singleton.mp h
  · cases notMem_zero _ h

end LeftKind

def partners (m : Row κ ν → Bool) (x : Row κ ν) (Y : Multiset (Row κ ν)) : Multiset (Row κ ν) :=
  Y.filter fun y => m (x.merge y)

def leftJoin (k : LeftKind) (m : Row κ ν → Bool) (X Y : Multiset (Row κ ν)) : Multiset (Row κ ν) :=
  X.bind fun x => (k.extensions (partners m x Y)).map x.merge

def fullJoin (m : Row κ ν → Bool) (X Y : Multiset (Row κ ν)) : Multiset (Row κ ν) :=
  leftJoin .outer m X Y + leftJoin .anti m Y X

section

variable {k : LeftKind} {m : Row κ ν → Bool} {X Y Z : Multiset (Row κ ν)} {C D : Set κ}

theorem over_singleton {x : Row κ ν} (hx : x.SupportedOn C) : Over {x} C := by
  intro r hr
  rwa [mem_singleton.mp hr]

theorem over_pair {x : Row κ ν} (hx : x.SupportedOn C) : Over {x, x} C := by
  intro r hr
  rwa [show r = x by simpa using hr]

theorem Over.mono (h : Over X C) (hCD : C ⊆ D) : Over X D := fun x hx => (h x hx).mono hCD

theorem Over.add (hX : Over X C) (hY : Over Y C) : Over (X + Y) C := by
  intro r hr
  rcases mem_add.mp hr with h | h
  · exact hX r h
  · exact hY r h

theorem partners_le (m : Row κ ν → Bool) (x : Row κ ν) (Y : Multiset (Row κ ν)) :
    partners m x Y ≤ Y := filter_le _ Y

theorem Over.of_le (h : Over Y C) (hle : X ≤ Y) : Over X C :=
  fun x hx => h x (mem_of_le hle hx)

theorem Over.extensions (hY : Over Y C) (k : LeftKind) : Over (k.extensions Y) C := by
  intro w hw
  rcases LeftKind.mem_extensions hw with h | h
  · exact hY w h
  · rw [h]
    exact Row.null_supportedOn C

theorem Over.extension (hY : Over Y C) (x : Row κ ν) : Over (k.extensions (partners m x Y)) C :=
  (hY.of_le (partners_le m x Y)).extensions k

theorem Over.leftJoin (hX : Over X C) (hY : Over Y D) : Over (leftJoin k m X Y) (C ∪ D) := by
  intro r hr
  obtain ⟨x,hx,hmap⟩ := mem_bind.mp hr
  obtain ⟨w,hw,rfl⟩ := mem_map.mp hmap
  exact (hX x hx).merge (hY.extension x w hw)

theorem Over.leftJoin_of_keepsLeft (hX : Over X C) (hk : k = .semi ∨ k = .anti) :
    Over (PgOrca.leftJoin k m X Y) C := by
  intro r hr
  obtain ⟨x,hx,hmap⟩ := mem_bind.mp hr
  obtain ⟨w,hw,rfl⟩ := mem_map.mp hmap
  rw [LeftKind.eq_null_of_mem_extensions hk hw,Row.merge_null]
  exact hX x hx

theorem Over.leftJoin_anti (hX : Over X C) : Over (PgOrca.leftJoin .anti m X Y) C :=
  hX.leftJoin_of_keepsLeft (.inr rfl)

theorem Over.leftJoin_semi (hX : Over X C) : Over (PgOrca.leftJoin .semi m X Y) C :=
  hX.leftJoin_of_keepsLeft (.inl rfl)

theorem Over.fullJoin (hX : Over X C) (hY : Over Y D) : Over (fullJoin m X Y) (C ∪ D) :=
  (hX.leftJoin hY).add (hY.leftJoin_anti.mono Set.subset_union_right)

end

end PgOrca
