import PgOrca.Constraint.ScalarExpr
import PgOrca.Library.Rows

/-!
# Minimum and maximum from an index

An index holds the rows of a table sorted by its keys; two values that its operators take for equal
are one. A minimum is read off the first row, by the order of the stored column, also where the
aggregate is over a cast of it.
-/

namespace PgOrca.IndexOrder

open List

universe u

variable {D : Type u}

inductive EIndexScanDirection where
  | eForwardScan
  | eBackwardScan
  deriving DecidableEq

/-- A key of an index, or a column of an order specification over the default operators. -/
structure COrderExpression where
  colref : ℕ
  fDescending : Bool
  fNullsFirst : Bool
  deriving DecidableEq

abbrev COrderSpec := List COrderExpression

structure IMDIndex where
  indexType : EmdindexType
  keys : COrderSpec

def computeOrderSpecForIndexKey : EIndexScanDirection → COrderExpression → COrderExpression
  | .eForwardScan, key => key
  | .eBackwardScan, key => ⟨key.colref, !key.fDescending, !key.fNullsFirst⟩

/-! ### The order of the rows -/

section

variable [LinearOrder D] {pos : COrderSpec}

def COrderExpression.compare (poe : COrderExpression) : Option D → Option D → Ordering
  | none, none => .eq
  | none, some _ => if poe.fNullsFirst then .lt else .gt
  | some _, none => if poe.fNullsFirst then .gt else .lt
  | some a, some b => if poe.fDescending then Ord.compare b a else Ord.compare a b

def COrderSpec.compare : COrderSpec → Row ℕ D → Row ℕ D → Ordering
  | [], _, _ => .eq
  | poe :: pos, r, s => (poe.compare (r poe.colref) (s poe.colref)).then (compare pos r s)

def COrderSpec.Sorts (pos : COrderSpec) (X : List (Row ℕ D)) : Prop :=
  X.Pairwise fun r s => pos.compare r s ≠ .gt

def scanRows : EIndexScanDirection → List (Row ℕ D) → List (Row ℕ D)
  | .eForwardScan, stored => stored
  | .eBackwardScan, stored => stored.reverse

theorem colref_computeOrderSpecForIndexKey (direction : EIndexScanDirection)
    (key : COrderExpression) : (computeOrderSpecForIndexKey direction key).colref = key.colref := by
  cases direction <;> rfl

theorem compare_backward (key : COrderExpression) (v w : Option D) :
    (computeOrderSpecForIndexKey .eBackwardScan key).compare v w = key.compare w v := by
  obtain ⟨c,d,n⟩ := key
  cases v <;> cases w <;> cases d <;> cases n <;> rfl

theorem compare_map_backward (r s : Row ℕ D) :
    COrderSpec.compare (pos.map (computeOrderSpecForIndexKey .eBackwardScan)) r s =
      pos.compare s r := by
  induction pos with
  | nil => rfl
  | cons key pos ih =>
    rw [map_cons,COrderSpec.compare,ih,compare_backward,colref_computeOrderSpecForIndexKey]
    rfl

theorem sorts_scanRows {stored : List (Row ℕ D)} (h : pos.Sorts stored)
    (direction : EIndexScanDirection) :
    COrderSpec.Sorts (pos.map (computeOrderSpecForIndexKey direction))
      (scanRows direction stored) := by
  cases direction with
  | eForwardScan =>
    have hid : pos.map (computeOrderSpecForIndexKey .eForwardScan) = pos := map_id pos
    rw [hid]
    exact h
  | eBackwardScan =>
    refine pairwise_reverse.mpr (h.imp fun hrs => ?_)
    rw [compare_map_backward]
    exact hrs

end

/-! ### Minimum and maximum -/

/-- An ungrouped minimum or maximum of a column or of a cast of one. -/
structure CMinMaxAgg (D T : Type*) where
  fMin : Bool
  colref : ℕ
  cast : Option D → Option T

def Precedes {T : Type*} [LE T] (fMin : Bool) (a b : T) : Prop := if fMin then a ≤ b else b ≤ a

namespace CMinMaxAgg

variable {T : Type*} (agg : CMinMaxAgg D T) {rows stored table : List (Row ℕ D)}

def arguments (rows : List (Row ℕ D)) : List T := rows.filterMap fun r => agg.cast (r agg.colref)

def value [LinearOrder T] (rows : List (Row ℕ D)) : Option T :=
  if agg.fMin then (agg.arguments rows).min? else (agg.arguments rows).max?

/-- `CXformMinMax2IndexGet::GetScanDirection` -/
def getScanDirection (key : COrderExpression) : EIndexScanDirection :=
  if agg.fMin then if key.fDescending then .eBackwardScan else .eForwardScan
  else if key.fDescending then .eForwardScan else .eBackwardScan

/-- The rows of the scan whose column is not NULL. -/
def notNullRows (key : COrderExpression) (stored : List (Row ℕ D)) : List (Row ℕ D) :=
  (scanRows (agg.getScanDirection key) stored).filter fun r => (r agg.colref).isSome

/-- What the alternative for the index returns: the aggregate over a limit of one row. -/
def transform [LinearOrder T] (pmdindex : IMDIndex) (stored : List (Row ℕ D)) : Option (Option T) :=
  match pmdindex.keys with
  | [] => none
  | key :: _ =>
    if pmdindex.indexType = .emdindBtree ∧ key.colref = agg.colref then
      some (agg.value ((agg.notNullRows key stored).take 1))
    else none

section

variable [LinearOrder D]

/-- No value of the column comes before the value. -/
def IsExtreme (table : List (Row ℕ D)) (d : D) : Prop :=
  (∃ r ∈ table, r agg.colref = some d) ∧
    ∀ r ∈ table, ∀ d', r agg.colref = some d' → Precedes agg.fMin d d'

theorem IsExtreme.unique {agg : CMinMaxAgg D T} {a b : D} (ha : agg.IsExtreme table a)
    (hb : agg.IsExtreme table b) : a = b := by
  obtain ⟨⟨r,hr,hra⟩,ha⟩ := ha
  obtain ⟨⟨s,hs,hsb⟩,hb⟩ := hb
  have hab := ha s hs b hsb
  have hba := hb r hr a hra
  unfold Precedes at hab hba
  split at hab
  · exact le_antisymm hab (by simpa [*] using hba)
  · exact le_antisymm (by simpa [*] using hba) hab

theorem precedes_of_compare (key : COrderExpression) {a b : D}
    (h : (computeOrderSpecForIndexKey (agg.getScanDirection key) key).compare (some a) (some b)
      ≠ .gt) : Precedes agg.fMin a b := by
  obtain ⟨c,d,n⟩ := key
  rw [getScanDirection] at h
  rw [Precedes]
  cases d <;> cases hmin : agg.fMin <;>
    simpa [hmin,computeOrderSpecForIndexKey,COrderExpression.compare,compare_gt_iff_gt] using h

variable {key : COrderExpression} {keys : COrderSpec}

omit [LinearOrder D] in
theorem mem_notNullRows (hperm : stored.Perm table) {r : Row ℕ D} :
    r ∈ agg.notNullRows key stored ↔ r ∈ table ∧ (r agg.colref).isSome = true := by
  have hscan : r ∈ scanRows (agg.getScanDirection key) stored ↔ r ∈ table := by
    rw [← hperm.mem_iff]
    cases agg.getScanDirection key
    · exact Iff.rfl
    · exact mem_reverse
  rw [notNullRows,mem_filter,hscan]

/-- The first row with a value has an extreme value. -/
theorem isExtreme_head {r : Row ℕ D} {rest : List (Row ℕ D)} (hperm : stored.Perm table)
    (hsto : COrderSpec.Sorts (key :: keys) stored) (hkey : key.colref = agg.colref)
    (h : agg.notNullRows key stored = r :: rest) :
    ∃ d, r agg.colref = some d ∧ agg.IsExtreme table d := by
  have hso := (sorts_scanRows hsto (agg.getScanDirection key)).filter fun r =>
    (r agg.colref).isSome
  change (agg.notNullRows key stored).Pairwise _ at hso
  have hmem := (agg.mem_notNullRows hperm).mp (h ▸ mem_cons_self)
  obtain ⟨d,hd⟩ := Option.isSome_iff_exists.mp hmem.2
  refine ⟨d,hd,⟨r,hmem.1,hd⟩,fun s hs d' hd' => ?_⟩
  have hs : s ∈ agg.notNullRows key stored :=
    (agg.mem_notNullRows hperm).mpr ⟨hs,Option.isSome_iff_exists.mpr ⟨d',hd'⟩⟩
  rw [h] at hs hso
  rcases mem_cons.mp hs with rfl | hs
  · cases hd.symm.trans hd'
    rw [Precedes,ite_self]
  · have hcmp := rel_of_pairwise_cons hso hs
    rw [map_cons,COrderSpec.compare,colref_computeOrderSpecForIndexKey,hkey,hd,hd'] at hcmp
    refine agg.precedes_of_compare key fun hgt => hcmp ?_
    rw [hgt]
    rfl

end

variable [LinearOrder T]

theorem value_eq_iff {v : Option T} : agg.value rows = v ↔ (∀ e ∈ v, e ∈ agg.arguments rows) ∧
    ∀ e' ∈ agg.arguments rows, ∃ e ∈ v, Precedes agg.fMin e e' := by
  rw [value]
  cases v with
  | none => cases agg.fMin <;> simp [eq_nil_iff_forall_not_mem]
  | some e => cases agg.fMin <;> simp [Precedes,min?_eq_some_iff,max?_eq_some_iff]

theorem value_singleton (r : Row ℕ D) : agg.value [r] = agg.cast (r agg.colref) := by
  rw [value,arguments]
  cases h : agg.cast (r agg.colref) <;> simp [h]

variable [LinearOrder D]

theorem value_first_iff {key : COrderExpression} {keys : COrderSpec} (hperm : stored.Perm table)
    (hsto : COrderSpec.Sorts (key :: keys) stored) (hkey : key.colref = agg.colref) {e : T} :
    agg.value ((agg.notNullRows key stored).take 1) = some e ↔
      ∃ d, agg.IsExtreme table d ∧ agg.cast (some d) = some e := by
  cases hrows : agg.notNullRows key stored with
  | nil =>
    refine ⟨fun h => ?_,fun ⟨d,hext,_⟩ => ?_⟩
    · exact absurd ((agg.value_eq_iff.mp h).1 e rfl) not_mem_nil
    · obtain ⟨r,hr,hd⟩ := hext.1
      have hmem : r ∈ agg.notNullRows key stored :=
        (agg.mem_notNullRows hperm).mpr ⟨hr,Option.isSome_iff_exists.mpr ⟨d,hd⟩⟩
      exact absurd (hrows ▸ hmem) not_mem_nil
  | cons r rest =>
    obtain ⟨d,hd,hext⟩ := agg.isExtreme_head hperm hsto hkey hrows
    rw [take_succ_cons,take_zero,value_singleton,hd]
    refine ⟨fun h => ⟨d,hext,h⟩,fun ⟨d',hext',h⟩ => ?_⟩
    rw [hext.unique hext']
    exact h

/-- The alternative is exact just when the cast of the extreme value of the column is extreme among
the arguments of the aggregate. -/
theorem transform_exact_iff (pmdindex : IMDIndex) (stored table : List (Row ℕ D))
    (hperm : stored.Perm table) (hstored : pmdindex.keys.Sorts stored) (v : Option T)
    (h : agg.transform pmdindex stored = some v) :
    v = agg.value table ↔ ∀ e' ∈ agg.arguments table, ∃ d e, agg.IsExtreme table d ∧
      agg.cast (some d) = some e ∧ Precedes agg.fMin e e' := by
  rw [transform] at h
  split at h
  · cases h
  · next key keys hkeys =>
    obtain ⟨⟨-,hkey⟩,hv⟩ := Option.ite_none_right_eq_some.mp h
    have hfst {e : T} : v = some e ↔ ∃ d, agg.IsExtreme table d ∧ agg.cast (some d) = some e := by
      rw [← Option.some.inj hv]
      exact agg.value_first_iff hperm (hkeys ▸ hstored) hkey
    have hmem : ∀ e ∈ v, e ∈ agg.arguments table := fun e he => by
      obtain ⟨d,⟨⟨r,hr,hd⟩,-⟩,hcast⟩ := hfst.mp he
      exact mem_filterMap.mpr ⟨r,hr,hd ▸ hcast⟩
    rw [eq_comm,value_eq_iff,and_iff_right hmem]
    refine forall₂_congr fun e' _ => ⟨fun ⟨e,he,hle⟩ => ?_,fun ⟨d,e,hext,hcast,hle⟩ => ?_⟩
    · obtain ⟨d,hext,hcast⟩ := hfst.mp he
      exact ⟨d,e,hext,hcast,hle⟩
    · exact ⟨e,hfst.mpr ⟨d,hext,hcast⟩,hle⟩

end CMinMaxAgg

/-! ### A column of signed integers, taken for object identifiers -/

namespace ObjectIds

def intIndex : IMDIndex := ⟨.emdindBtree, [⟨0, false, false⟩]⟩

def intRow (i : ℤ) : Row ℕ ℤ := fun c => if c = 0 then some i else none

def ints : List (Row ℕ ℤ) := [intRow (-1), intRow 1]

def minOfInt : CMinMaxAgg ℤ ℤ := ⟨true, 0, id⟩

/-- The 32 bits of the integer are read as an unsigned number. -/
def minOfOid : CMinMaxAgg ℤ ℕ := ⟨true, 0, fun v => v.map fun i => (i % 2 ^ 32).toNat⟩

theorem ints_sorted : intIndex.keys.Sorts ints := by
  unfold COrderSpec.Sorts
  decide

theorem min_of_column_exact : minOfInt.transform intIndex ints = some (some (-1)) ∧
    ∀ e' ∈ minOfInt.arguments ints, ∃ d e, minOfInt.IsExtreme ints d ∧
      minOfInt.cast (some d) = some e ∧ Precedes minOfInt.fMin e e' :=
  ⟨by decide,(minOfInt.transform_exact_iff intIndex ints ints (.refl _) ints_sorted
    (some (-1)) (by decide)).mp (by decide)⟩

/-- The index finds -1, which is the largest of all object identifiers. -/
theorem min_of_cast_wrong : intIndex.keys.Sorts ints ∧
    minOfOid.transform intIndex ints = some (some 4294967295) ∧ minOfOid.value ints = some 1 :=
  ⟨ints_sorted,by decide,by decide⟩

end ObjectIds

end PgOrca.IndexOrder
