import PgOrca.Library.SemiJoins
import PgOrca.Logical.KeySoundness

/-!
# Semi joins turned into inner joins

One rule groups the inner side by the columns of the predicate, the other one groups the inner join
by the columns of the outer side. An outer row is repeated by the first when matching inner rows
differ on those columns.
-/

namespace PgOrca

open Multiset

variable {G : Finset ℕ}

namespace CLogical

variable {C ν : Type*} [ScalarLeaf C] [ScalarMeaning C ν] [DecidableEq ν] {child : CLogical C ν}
  {tables : Tables ν} {env : Row ℕ ν}

omit [ScalarLeaf C] [ScalarMeaning C ν] [DecidableEq ν] in
theorem ofTuple_tuple_sort (G : Finset ℕ) (r : Row ℕ ν) :
    Row.ofTuple (G.sort (· ≤ ·)) (r.tuple (G.sort (· ≤ ·))) = r.restrict G := by
  funext c
  by_cases hc : c ∈ G
  · rw [Row.ofTuple_tuple ((Finset.mem_sort _).mpr hc),Row.restrict,if_pos hc]
  · rw [Row.ofTuple_of_notMem _ (mt (Finset.mem_sort _).mp hc),Row.restrict,if_neg hc]

/-- Grouping without aggregates keeps one row for each combination of values. -/
theorem rows_gbAgg_nil (hG : G.Nonempty) (hsub : G ⊆ child.outputColumns) :
    (gbAgg child (G.sort (· ≤ ·)) []).rows tables env =
      (keysOf (Row.tuple (G.sort (· ≤ ·))) (child.rows tables env)).map
        (Row.ofTuple (G.sort (· ≤ ·))) := by
  have hne : (G.sort (· ≤ ·)).isEmpty = false := by
    rw [List.isEmpty_eq_false_iff,ne_eq,← List.toFinset_eq_empty_iff,Finset.sort_toFinset]
    exact hG.ne_empty
  rw [rows_gbAgg (by rwa [Finset.sort_toFinset])]
  simp only [groupKeys,hne]
  apply Multiset.map_congr rfl
  intro key _
  funext c
  simp [groupRow,Row.assign]

theorem represents_gbAgg (hG : G.Nonempty) (hsub : G ⊆ child.outputColumns) :
    Represents G ((gbAgg child (G.sort (· ≤ ·)) []).rows tables env) (child.rows tables env) := by
  have hag (y : Row ℕ ν) : Row.AgreeOn G
      (Row.ofTuple (G.sort (· ≤ ·)) (y.tuple (G.sort (· ≤ ·)))) y := by
    rw [ofTuple_tuple_sort]
    exact Row.agreeOn_restrict subset_rfl y
  rw [rows_gbAgg_nil hG hsub]
  refine ⟨?_,fun y' hy' => ?_,fun y hy => ?_⟩
  · rw [IsKey,map_map]
    refine Multiset.Nodup.map_on (fun key hkey key' hkey' heq => ?_) (nodup_keysOf _ _)
    obtain ⟨r,_,rfl⟩ := mem_keysOf.mp hkey
    obtain ⟨s,_,rfl⟩ := mem_keysOf.mp hkey'
    have hrs := ((hag r).symm.trans (Row.restrict_eq_iff.mp heq)).trans (hag s)
    exact Row.tuple_eq_iff.mpr fun c hc => hrs c ((Finset.mem_sort _).mp hc)
  · obtain ⟨key,hkey,rfl⟩ := mem_map.mp hy'
    obtain ⟨y,hy,rfl⟩ := mem_keysOf.mp hkey
    exact ⟨y,hy,hag y⟩
  · exact ⟨_,mem_map_of_mem _ (mem_keysOf.mpr ⟨y,hy,rfl⟩),hag y⟩

end CLogical

variable {ν : Type*}

/-- `FSimpleEqualityUsingCols`, where `fEquality` tells the equalities of two columns. -/
def CScalar.fSimpleEqualityUsingCols (fEquality : CScalarTest ν → Bool) (pcrs : Finset ℕ)
    (e : CScalar (CScalarTest ν)) : Bool :=
  e.pdrgpexprConjuncts.all fun
    | .other c => fEquality c && !decide (Disjoint pcrs c.usedColumns)
    | _ => false

/-- `PdrgpcrGroupingKey`: the columns the query uses and a key, a hashable one if there is. -/
def CLogical.pdrgpcrGroupingKey (fContradiction : CLogical (CScalarTest ν) ν → Bool)
    (fUsed fHashable : ℕ → Bool) (t : CLogical (CScalarTest ν) ν) : Finset ℕ :=
  let keys := t.deriveKeyCollection fContradiction
  t.outputColumns.filter (fUsed ·) ∪
    ((keys.find? fun key => ∀ c ∈ key, fHashable c).or keys.head?).getD ∅

structure CLeftSemiJoin (ν : Type*) where
  outer : CLogical (CScalarTest ν) ν
  inner : CLogical (CScalarTest ν) ν
  predicate : CScalar (CScalarTest ν)
  hasOuterRefs : Bool

namespace CLeftSemiJoin

variable (j : CLeftSemiJoin ν) (fContradiction : CLogical (CScalarTest ν) ν → Bool)
  (fEquality : CScalarTest ν → Bool) (fUsed fHashable : ℕ → Bool)

def toLogical : CLogical (CScalarTest ν) ν := .join .leftSemi j.outer j.inner j.predicate

def pcrsGb : Finset ℕ := j.predicate.usedColumns \ j.outer.outputColumns

/-- The inner side, grouped when the columns of the predicate cover no key. -/
def pexprInner : CLogical (CScalarTest ν) ν :=
  if ∃ key ∈ j.inner.deriveKeyCollection fContradiction, key ⊆ j.pcrsGb then j.inner
  else .gbAgg j.inner (j.pcrsGb.sort (· ≤ ·)) []

/-- `CXformLeftSemiJoin2InnerJoin`; grouping columns are asserted to exist. -/
def leftSemiJoin2InnerJoin : Option (CLogical (CScalarTest ν) ν) :=
  if !j.hasOuterRefs && j.predicate.fSimpleEqualityUsingCols fEquality j.inner.outputColumns then
    if Disjoint j.outer.outputColumns j.inner.outputColumns ∧
        j.predicate.usedColumns ⊆ j.outer.outputColumns ∪ j.inner.outputColumns ∧ j.pcrsGb ≠ ∅ then
      some (.join .inner j.outer (j.pexprInner fContradiction) j.predicate)
    else none
  else none

def leftSemiJoin2InnerJoinUnderGb : Option (CLogical (CScalarTest ν) ν) :=
  if !j.hasOuterRefs && !(j.outer.deriveKeyCollection fContradiction).isEmpty &&
      !j.predicate.fSimpleEqualityUsingCols fEquality j.inner.outputColumns then
    if Disjoint j.outer.outputColumns j.inner.outputColumns then
      some (.gbAgg (.join .inner j.outer j.inner j.predicate)
        ((j.outer.pdrgpcrGroupingKey fContradiction fUsed fHashable).sort (· ≤ ·)) [])
    else none
  else none

variable [DecidableEq ν] (tables : Tables ν) (env : Row ℕ ν)

def matching (x : Row ℕ ν) : Multiset (Row ℕ ν) :=
  partners (j.predicate.joinMatch .leftSemi (j.outer.outputColumns ∪ j.inner.outputColumns) env) x
    (j.inner.rows tables env)

variable {j fContradiction tables env}

theorem rows_toLogical : j.toLogical.rows tables env =
    (j.outer.rows tables env).filter fun x => (j.matching tables env x).card ≠ 0 := by
  rw [toLogical,CLogical.rows,JoinType.rows,leftJoin_semi_eq_filter]
  rfl

theorem represents_pexprInner (hkeys : j.inner.KeysSound tables fContradiction)
    (hne : j.pcrsGb.Nonempty) (hout : j.pcrsGb ⊆ j.inner.outputColumns) :
    Represents j.pcrsGb ((j.pexprInner fContradiction).rows tables env)
      (j.inner.rows tables env) := by
  rw [pexprInner]
  split
  · rename_i h
    obtain ⟨K,hK,hsub⟩ := h
    exact .refl (((hkeys K hK).2 env).mono hsub)
  · exact CLogical.represents_gbAgg hne hout

theorem rows_innerJoin_iff (hkeys : j.inner.KeysSound tables fContradiction)
    (hLR : Disjoint j.outer.outputColumns j.inner.outputColumns)
    (hcv : j.predicate.usedColumns ⊆ j.outer.outputColumns ∪ j.inner.outputColumns)
    (hne : j.pcrsGb.Nonempty) :
    ((CLogical.join .inner j.outer (j.pexprInner fContradiction) j.predicate).rows tables env).map
        (Row.restrict j.outer.outputColumns) = j.toLogical.rows tables env ↔
      ∀ x ∈ j.outer.rows tables env, ∀ y ∈ j.matching tables env x,
        ∀ z ∈ j.matching tables env x, Row.AgreeOn j.pcrsGb y z := by
  have hout : j.pcrsGb ⊆ j.inner.outputColumns := fun c hc =>
    (Finset.mem_union.mp (hcv (Finset.mem_sdiff.mp hc).1)).resolve_left (Finset.mem_sdiff.mp hc).2
  have hcols : j.pcrsGb ⊆ (j.pexprInner fContradiction).outputColumns ∧
      (j.pexprInner fContradiction).outputColumns ⊆ j.inner.outputColumns := by
    rw [pexprInner]
    split
    · exact ⟨hout,subset_rfl⟩
    · simp [CLogical.outputColumns,Finset.inter_eq_left.mpr hout,hout]
  have hover := (j.pexprInner fContradiction).over_rows tables env
  have hLR' := hLR.mono_right hcols.2
  have hrep (x : Row ℕ ν) : Represents j.pcrsGb (partners (j.predicate.joinMatch .inner
      (j.outer.outputColumns ∪ (j.pexprInner fContradiction).outputColumns) env) x
      ((j.pexprInner fContradiction).rows tables env)) (j.matching tables env x) := by
    refine (represents_pexprInner hkeys hne hout).partners fun y' hy' y hy hag => ?_
    change decide _ = decide _
    rw [j.predicate.eval_congr fun c hc => ?_]
    by_cases hcO : c ∈ j.outer.outputColumns
    · have hni {I : Finset ℕ} (hI : Disjoint j.outer.outputColumns I) : c ∉ (I : Set ℕ) :=
        Finset.disjoint_left.mp hI hcO
      simp [Row.scope,hcO,Row.merge,hover y' hy' c (hni hLR'),
        j.inner.over_rows tables env y hy c (hni hLR)]
    · have hGb : c ∈ j.pcrsGb := Finset.mem_sdiff.mpr ⟨hc,hcO⟩
      simp [Row.scope,hcols.1 hGb,hout hGb,Row.merge,hag c hGb]
  rw [CLogical.rows,JoinType.rows,
    restrict_leftJoin_inner (j.outer.over_rows tables env) hover hLR',rows_toLogical,
    filter_congr fun x _ => (hrep x).card_ne_zero_iff.symm,bind_replicate_eq_filter_iff]
  exact forall₂_congr fun x _ => (hrep x).card_le_one_iff

omit [DecidableEq ν] in
theorem mem_key {t : CLogical (CScalarTest ν) ν} (h : t.deriveKeyCollection fContradiction ≠ []) :
    ∃ key ∈ t.deriveKeyCollection fContradiction,
      t.pdrgpcrGroupingKey fContradiction fUsed fHashable =
        t.outputColumns.filter (fUsed ·) ∪ key := by
  rw [CLogical.pdrgpcrGroupingKey]
  rcases hfind : (t.deriveKeyCollection fContradiction).find? fun key => ∀ c ∈ key, fHashable c with
    _ | key
  · exact ⟨_,List.head_mem h,by simp [hfind,List.head?_eq_some_head h]⟩
  · exact ⟨key,List.mem_of_find?_eq_some hfind,by simp [hfind]⟩

theorem rows_underGb_iff (hkeys : j.outer.KeysSound tables fContradiction)
    (hkey : j.outer.deriveKeyCollection fContradiction ≠ [])
    (hLR : Disjoint j.outer.outputColumns j.inner.outputColumns)
    (hG : j.outer.pdrgpcrGroupingKey fContradiction fUsed fHashable = G) :
    (CLogical.gbAgg (.join .inner j.outer j.inner j.predicate) (G.sort (· ≤ ·)) []).rows tables
        env = (j.toLogical.rows tables env).map (Row.restrict G) ↔
      (G = ∅ → (j.toLogical.rows tables env).card ≠ 0) := by
  obtain ⟨key,hmem,heq⟩ := mem_key fUsed fHashable hkey
  obtain ⟨hout,hrows⟩ := hkeys key hmem
  have hsub : key ⊆ G := by
    rw [← hG,heq]
    exact Finset.subset_union_right
  have hGout : G ⊆ j.outer.outputColumns := by
    rw [← hG,heq]
    exact Finset.union_subset (Finset.filter_subset _ _) hout
  rcases G.eq_empty_or_nonempty with rfl | hne
  · have hle : (j.toLogical.rows tables env).card ≤ 1 := by
      rw [rows_toLogical]
      exact ((hrows env).of_le (filter_le _ _)).card_le_one (r := Row.null) fun s _ c hc => by
        cases hsub hc
    have hone : (CLogical.gbAgg (.join .inner j.outer j.inner j.predicate)
        ((∅ : Finset ℕ).sort (· ≤ ·)) []).rows tables env = {Row.null} := by
      rw [CLogical.rows_gbAgg (by simp)]
      simp only [Finset.sort_empty,groupKeys,List.isEmpty_nil,if_true,map_singleton]
      rfl
    rw [hone]
    rcases Nat.le_one_iff_eq_zero_or_eq_one.mp hle with h | h
    · simp [card_eq_zero.mp h]
    · obtain ⟨x,hx⟩ := card_eq_one.mp h
      simp [hx,Row.restrict,Row.null,funext_iff]
  · have hcols : (G.sort (· ≤ ·)).toFinset = G := Finset.sort_toFinset _ _
    rw [CLogical.rows_gbAgg_nil hne (hGout.trans Finset.subset_union_left),CLogical.rows,JoinType.rows,keysOf_leftJoin_inner
      (j.inner.over_rows tables env) hLR (by rwa [hcols])
      (by rw [hcols]; exact (hrows env).mono hsub),map_map,rows_toLogical]
    refine iff_of_true (Multiset.map_congr rfl fun x _ => ?_) fun h => absurd h hne.ne_empty
    exact CLogical.ofTuple_tuple_sort G x

theorem rewrites_rows_iff (j : CLeftSemiJoin ν) (fContradiction : CLogical (CScalarTest ν) ν → Bool)
    (fEquality : CScalarTest ν → Bool) (fUsed fHashable : ℕ → Bool) (tables : Tables ν)
    (houter : j.outer.KeysSound tables fContradiction)
    (hinner : j.inner.KeysSound tables fContradiction) (env : Row ℕ ν) :
    (∀ alternative, j.leftSemiJoin2InnerJoin fContradiction fEquality = some alternative →
      ((alternative.rows tables env).map (Row.restrict j.outer.outputColumns) =
          j.toLogical.rows tables env ↔
        ∀ x ∈ j.outer.rows tables env, ∀ y ∈ j.matching tables env x,
          ∀ z ∈ j.matching tables env x, Row.AgreeOn j.pcrsGb y z)) ∧
    ∀ alternative, j.leftSemiJoin2InnerJoinUnderGb fContradiction fEquality fUsed fHashable =
        some alternative →
      (alternative.rows tables env = (j.toLogical.rows tables env).map
          (Row.restrict (j.outer.pdrgpcrGroupingKey fContradiction fUsed fHashable)) ↔
        (j.outer.pdrgpcrGroupingKey fContradiction fUsed fHashable = ∅ →
          (j.toLogical.rows tables env).card ≠ 0)) := by
  refine ⟨fun alternative h => ?_,fun alternative h => ?_⟩
  · rw [leftSemiJoin2InnerJoin] at h
    split_ifs at h with _ hche
    cases h
    exact rows_innerJoin_iff hinner hche.1 hche.2.1 (Finset.nonempty_iff_ne_empty.mpr hche.2.2)
  · rw [leftSemiJoin2InnerJoinUnderGb] at h
    split_ifs at h with hexfp hLR
    cases h
    simp only [Bool.and_eq_true,Bool.not_eq_true',List.isEmpty_eq_false_iff] at hexfp
    exact rows_underGb_iff fUsed fHashable houter hexfp.1.2 hLR rfl

end CLeftSemiJoin

namespace CLeftSemiJoin.SmallTables

/-- A table with one column, one with two, and a predicate over columns of the second. -/
def semiJoin (left right : ℕ) : CLeftSemiJoin ℕ :=
  ⟨.get 0 [0] [], .get 1 [1, 2] [], .other (.equal left right), false⟩

def tables : Tables ℕ
  | 0 => {[some 1]}
  | _ => {[some 1, some 1], [some 2, some 2]}

theorem keysSound_get (table : ℕ) (output : List ℕ) :
    (CLogical.get table output [] : CLogical (CScalarTest ℕ) ℕ).KeysSound tables
      fun _ => false := by
  intro K hK
  cases hK

/-- Grouping by two inner columns that are compared with each other repeats the outer row. -/
theorem repeated_for_inner_columns :
    ∃ alternative, (semiJoin 1 2).leftSemiJoin2InnerJoin (fun _ => false) (fun _ => true) =
        some alternative ∧
      (alternative.rows tables Row.null).map (Row.restrict {0}) ≠
        (semiJoin 1 2).toLogical.rows tables Row.null := by
  refine ⟨_,rfl,mt (rows_innerJoin_iff (keysSound_get 1 [1,2]) (by decide) (by decide)
    ⟨1,by decide⟩).mp fun h => ?_⟩
  have hag := h _ (mem_singleton_self _) (Row.ofTuple [1,2] [some 1,some 1]) (.head _)
    (Row.ofTuple [1,2] [some 2,some 2]) (.tail _ (.head _)) 1 (by decide)
  exact absurd hag (by decide)

theorem kept_for_outer_column :
    ((CLogical.join .inner (semiJoin 0 1).outer ((semiJoin 0 1).pexprInner fun _ => false)
        (semiJoin 0 1).predicate).rows tables Row.null).map (Row.restrict {0}) =
      (semiJoin 0 1).toLogical.rows tables Row.null := by
  refine ((rewrites_rows_iff (semiJoin 0 1) (fun _ => false) (fun _ => true) (fun _ => true)
    (fun _ => true) tables (keysSound_get 0 [0]) (keysSound_get 1 [1,2]) Row.null).1 _ rfl).mpr ?_
  intro x hx y hy z hz
  have hmat : (semiJoin 0 1).matching tables Row.null x =
      {Row.ofTuple [1,2] [some 1,some 1]} := by
    rw [mem_singleton.mp hx]
    rfl
  rw [hmat,mem_singleton] at hy hz
  rw [hy,hz]
  exact .refl _ _

end CLeftSemiJoin.SmallTables

end PgOrca
