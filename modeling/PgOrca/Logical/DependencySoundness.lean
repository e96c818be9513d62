import PgOrca.Logical.Dependencies

/-!
# The derived functional dependencies hold

Inherited dependencies hold unless the operator mixes rows: an outer join adds NULL rows, and a set
operation may fill the columns of one input from the others.
-/

namespace PgOrca

open Finset Multiset CFunctionalDependency
open Finset (disjoint_left mem_coe disjoint_of_subset_left mem_union)
open Option (some)
open Multiset (mem_map mem_filter mem_add mem_map_of_mem)

variable {C ν : Type*}

section

variable {m : Row ℕ ν → Bool} {X Y : Multiset (Row ℕ ν)} {L R : Finset ℕ} {r : Row ℕ ν}

theorem agreeOn_left_of_mem_leftJoin {k : LeftKind} (hY : Over Y R) (hLR : Disjoint L R)
    (hr : r ∈ leftJoin k m X Y) : ∃ x ∈ X, Row.AgreeOn L r x := by
  obtain ⟨x,hx,hmap⟩ := mem_bind.mp hr
  obtain ⟨w,hw,rfl⟩ := mem_map.mp hmap
  exact ⟨x,hx,agreeOn_merge_left (hY.extension x w hw) hLR (Finset.Subset.refl L)⟩

/-- On the right columns a row of an outer join repeats a right row, or is NULL because its left
row has no partner. -/
theorem agreeOn_right_of_mem_leftJoin {k : LeftKind} (hk : k = .inner ∨ k = .outer) (hX : Over X L)
    (hLR : Disjoint L R) (hr : r ∈ leftJoin k m X Y) :
    (∃ y ∈ Y, Row.AgreeOn R r y) ∨ k = .outer ∧ unmatched m X Y ≠ 0 ∧ NullOn R r := by
  obtain ⟨x,hx,hmap⟩ := mem_bind.mp hr
  obtain ⟨w,hw,rfl⟩ := mem_map.mp hmap
  have hag : Row.AgreeOn R (x.merge w) w :=
    agreeOn_merge_right (hX x hx) hLR (Finset.Subset.refl R)
  rcases hk with rfl | rfl
  · exact .inl ⟨w,(mem_filter.mp hw).1,hag⟩
  · by_cases hzero : (partners m x Y).card = 0
    · rw [LeftKind.extensions,if_pos hzero,Multiset.mem_singleton] at hw
      have hx' : x ∈ unmatched m X Y := mem_filter.mpr ⟨hx,hzero⟩
      refine .inr ⟨rfl,fun h => ?_,fun c hc => ?_⟩
      · rw [h] at hx'
        exact notMem_zero x hx'
      · rw [hag c hc,hw]
        rfl
    · rw [LeftKind.extensions,if_neg hzero] at hw
      exact .inl ⟨w,(mem_filter.mp hw).1,hag⟩

variable (joinType : JoinType)

/-- Whether the join has rows that are NULL on the right columns because no right row was found. -/
def NullExtendsRight (m : Row ℕ ν → Bool) (X Y : Multiset (Row ℕ ν)) : Prop :=
  (joinType = .leftOuter ∨ joinType = .fullOuter) ∧ unmatched m X Y ≠ 0

def NullExtendsLeft (m : Row ℕ ν → Bool) (X Y : Multiset (Row ℕ ν)) : Prop :=
  (joinType = .rightOuter ∨ joinType = .fullOuter) ∧ unmatched m Y X ≠ 0

theorem agreeOn_left_of_mem_rows {joinType : JoinType} (hY : Over Y R) (hLR : Disjoint L R)
    (hr : r ∈ joinType.rows m X Y) :
    (∃ x ∈ X, Row.AgreeOn L r x) ∨ NullExtendsLeft joinType m X Y ∧ NullOn L r := by
  cases joinType with
  | inner | leftOuter | leftSemi | leftAntiSemi | leftAntiSemiNotIn =>
    exact .inl (agreeOn_left_of_mem_leftJoin hY hLR hr)
  | rightOuter =>
    refine (agreeOn_right_of_mem_leftJoin (.inr rfl) hY hLR.symm hr).imp_right ?_
    exact fun h => ⟨⟨.inl rfl,h.2.1⟩,h.2.2⟩
  | fullOuter =>
    rcases mem_add.mp hr with hr | hr
    · exact .inl (agreeOn_left_of_mem_leftJoin hY hLR hr)
    · rw [leftJoin_anti_eq_unmatched] at hr
      refine .inr ⟨⟨.inr rfl,fun h => ?_⟩,fun c hc => ?_⟩
      · rw [h] at hr
        exact notMem_zero _ hr
      · exact hY r (mem_filter.mp hr).1 c fun h =>
          disjoint_left.mp hLR hc (mem_coe.mp h)

theorem agreeOn_right_of_mem_rows (hX : Over X L) (hLR : Disjoint L R) :
    joinType.outputColumns L R = L ∨ ∀ r ∈ joinType.rows m X Y,
      (∃ y ∈ Y, Row.AgreeOn R r y) ∨ NullExtendsRight joinType m X Y ∧ NullOn R r := by
  cases joinType with
  | leftSemi | leftAntiSemi | leftAntiSemiNotIn => exact .inl rfl
  | inner =>
    refine .inr fun r hr => ?_
    exact (agreeOn_right_of_mem_leftJoin (.inl rfl) hX hLR hr).imp_right fun h => nomatch h.1
  | leftOuter =>
    refine .inr fun r hr => ?_
    exact (agreeOn_right_of_mem_leftJoin (.inr rfl) hX hLR hr).imp_right
      fun h => ⟨⟨.inl rfl,h.2.1⟩,h.2.2⟩
  | rightOuter => exact .inr fun r hr => .inl (agreeOn_left_of_mem_leftJoin hX hLR.symm hr)
  | fullOuter =>
    refine .inr fun r hr => ?_
    rcases mem_add.mp hr with hr | hr
    · exact (agreeOn_right_of_mem_leftJoin (.inr rfl) hX hLR hr).imp_right
        fun h => ⟨⟨.inr rfl,h.2.1⟩,h.2.2⟩
    · rw [leftJoin_anti_eq_unmatched] at hr
      exact .inl ⟨r,(mem_filter.mp hr).1,Row.AgreeOn.refl R r⟩

/-- A dependency among columns that repeat rows it holds for or are NULL. -/
theorem Determines.of_rows {K D Q : Finset ℕ} {Z : Multiset (Row ℕ ν)} {extended : Prop}
    (h : Determines K D X) (hK : K ⊆ Q) (hD : D ⊆ Q)
    (hrows : ∀ r ∈ Z, (∃ x ∈ X, Row.AgreeOn Q r x) ∨ extended ∧ NullOn Q r)
    (hnull : extended → ∀ r ∈ Z, NullOn K r → NullOn D r) : Determines K D Z := by
  intro r hr s hs hag
  have hmx {r s : Row ℕ ν} (hr : r ∈ Z) (hext : extended) (hs : NullOn Q s)
      (hag : Row.AgreeOn K r s) : Row.AgreeOn D r s := by
    have hrK : NullOn K r := fun c hc => (hag c hc).trans (hs c (hK hc))
    exact fun c hc => (hnull hext r hr hrK c hc).trans (hs c (hD hc)).symm
  rcases hrows r hr with ⟨x,hx,hrx⟩ | ⟨hext,hrnull⟩
  · rcases hrows s hs with ⟨y,hy,hsy⟩ | ⟨hext,hsnull⟩
    · have hxy := h x hx y hy (((hrx.mono hK).symm.trans hag).trans (hsy.mono hK))
      exact ((hrx.mono hD).trans hxy).trans (hsy.mono hD).symm
    · exact hmx hr hext hsnull hag
  · exact (hmx hs hext hrnull hag.symm).symm

end

namespace CLogical

variable [ScalarLeaf C] [ScalarMeaning C ν] [DecidableEq ν] {tables : Tables ν}
  {fContradiction : CLogical C ν → Bool} {env : Row ℕ ν} {s child : CLogical C ν}
  {joinType : JoinType} {columns : List ℕ} {aggregates : List (CScalarAggregate ν)}
  {m : Row ℕ ν → Bool} {X Y : Multiset (Row ℕ ν)}

def IsApply : CLogical C ν → Prop
  | apply _ _ _ _ => True
  | _ => False

/-- A dependency with the same key that determines at least as much is derived. -/
def Carries (fContradiction : CLogical C ν → Bool) (fd : CFunctionalDependency)
    (t : CLogical C ν) : Prop :=
  ∃ fd' ∈ t.deriveFunctionalDependencies fContradiction,
    fd'.key = fd.key ∧ fd.determined ⊆ fd'.determined

instance (fContradiction : CLogical C ν → Bool) (fd : CFunctionalDependency) (t : CLogical C ν) :
    Decidable (t.Carries fContradiction fd) :=
  inferInstanceAs (Decidable (∃ fd' ∈ t.deriveFunctionalDependencies fContradiction, _))

/-- The inputs that a dependency is taken over from. -/
def fdInputs (fContradiction : CLogical C ν → Bool) (fd : CFunctionalDependency)
    (t : CLogical C ν) : List (CLogical C ν) :=
  t.fdChildren.filter fun c => c.Carries fContradiction fd

/-- The operator keeps a dependency that it takes over: rows that an outer join extends by NULLs
stand beside no other row that is NULL on the key but not on what it determines, and a row of a set
operation that repeats no row of the input satisfies the dependency with all rows. -/
def KeepsDependency (tables : Tables ν) (fContradiction : CLogical C ν → Bool)
    (fd : CFunctionalDependency) (env : Row ℕ ν) : CLogical C ν → Prop
  | join joinType left right predicate =>
    let m := predicate.joinMatch joinType (left.outputColumns ∪ right.outputColumns) env
    let X := left.rows tables env
    let Y := right.rows tables env
    (right.Carries fContradiction fd → NullExtendsRight joinType m X Y →
      ∀ r ∈ joinType.rows m X Y, NullOn fd.key r → NullOn fd.determined r) ∧
    (left.Carries fContradiction fd → NullExtendsLeft joinType m X Y →
      ∀ r ∈ joinType.rows m X Y, NullOn fd.key r → NullOn fd.determined r)
  | setOp op output inputs children =>
    let Z := (op.tuples (childTuples tables inputs children env)).map (Row.ofTuple output)
    ∀ c ∈ children, c.Carries fContradiction fd → ∀ r ∈ Z,
      (¬ ∃ x ∈ c.rows tables env, Row.AgreeOn fd.key r x ∧ Row.AgreeOn fd.determined r x) →
        ∀ s ∈ Z, Row.AgreeOn fd.key r s → Row.AgreeOn fd.determined r s
  | _ => True

variable {fd : CFunctionalDependency} {c : CLogical C ν}

theorem restrictTo_eq_some {output : Finset ℕ} {fd' : CFunctionalDependency}
    (h : fd.restrictTo output = some fd') :
    fd.key ⊆ output ∧ fd' = ⟨fd.key, fd.determined ∩ output⟩ := by
  rw [restrictTo] at h
  split at h
  case isTrue hcond => exact ⟨hcond.1,(some.inj h).symm⟩
  case isFalse => cases h

/-- The dependencies are among the output columns when the keys are. -/
theorem subset_outputColumns_of_mem (hkeys : s.KeysSound tables fContradiction)
    (h : fd ∈ s.deriveFunctionalDependencies fContradiction) :
    fd.key ⊆ s.outputColumns ∧ fd.determined ⊆ s.outputColumns := by
  rcases mem_deriveFunctionalDependencies.mp h with ⟨c,_,fd',_,hre⟩ | hlo
  · obtain ⟨hout,rfl⟩ := restrictTo_eq_some hre
    exact ⟨hout,inter_subset_right⟩
  · obtain ⟨K,hK,hok⟩ := List.mem_filterMap.mp hlo
    rw [ofKey] at hok
    split at hok
    case isTrue =>
      obtain rfl := some.inj hok
      exact ⟨(hkeys K hK).1,sdiff_subset⟩
    case isFalse => cases hok

theorem Carries.subset (hkeys : s.KeysSound tables fContradiction)
    (h : s.Carries fContradiction fd) :
    fd.key ⊆ s.outputColumns ∧ fd.determined ⊆ s.outputColumns := by
  obtain ⟨fd',hfd',hkey,hdet⟩ := h
  obtain ⟨hK,hD⟩ := subset_outputColumns_of_mem hkeys hfd'
  exact ⟨hkey ▸ hK,hdet.trans hD⟩

section

variable (hfd : ∀ env, Determines fd.key fd.determined (c.rows tables env))

include hfd

/-- A node inherits a dependency of an input when each of its rows repeats, on the columns of the
dependency, a row of the input. -/
theorem inherits_of_rows (hrows : ∀ r ∈ s.rows tables env, ∃ x ∈ c.rows tables env,
      Row.AgreeOn fd.key r x ∧ Row.AgreeOn fd.determined r x) :
    Determines fd.key fd.determined (s.rows tables env) :=
  (hfd env).transfer hrows

theorem inherits_of_le (hle : s.rows tables env ≤ c.rows tables env) :
    Determines fd.key fd.determined (s.rows tables env) :=
  inherits_of_rows hfd fun r hr =>
    ⟨r,mem_of_le hle hr,Row.AgreeOn.refl _ r,Row.AgreeOn.refl _ r⟩

variable (hkey : fd.key ⊆ c.outputColumns) (hdet : fd.determined ⊆ c.outputColumns)

include hkey hdet

theorem inherits_join {left right : CLogical C ν} {predicate : CScalar C}
    (hwf : (join joinType left right predicate).WellFormedNode)
    (hkeep : (join joinType left right predicate).KeepsDependency tables fContradiction fd env)
    (hc : c = left ∨ c = right) (hcar : c.Carries fContradiction fd)
    (hout : fd.determined ⊆ (join joinType left right predicate).outputColumns) :
    Determines fd.key fd.determined ((join joinType left right predicate).rows tables env) := by
  obtain ⟨hrt,hleft⟩ := hkeep
  rcases hc with rfl | rfl
  · exact (hfd env).of_rows hkey hdet
      (fun r hr => agreeOn_left_of_mem_rows (over_rows tables right env) hwf hr) (hleft hcar)
  · rcases agreeOn_right_of_mem_rows joinType (over_rows tables left env) hwf
      with hleftOnly | hrows
    · -- a semi or anti join outputs none of the determined columns
      rw [outputColumns,hleftOnly] at hout
      have hemp : fd.determined = ∅ := by
        rw [← disjoint_self_iff_empty]
        exact (disjoint_of_subset_left hout hwf).mono_right hdet
      rw [hemp]
      exact determines_empty _ _
    · exact (hfd env).of_rows hkey hdet hrows (hrt hcar)

theorem inherits_gbAgg {aggregates : List (CScalarAggregate ν)} (hchild : child = c)
    (hwf : (gbAgg child columns aggregates).WellFormedNode)
    (hK : fd.key ⊆ (gbAgg child columns aggregates).outputColumns)
    (hD : fd.determined ⊆ (gbAgg child columns aggregates).outputColumns) :
    Determines fd.key fd.determined ((gbAgg child columns aggregates).rows tables env) := by
  subst hchild
  have hcols {A : Finset ℕ} (hA : A ⊆ child.outputColumns)
      (hA' : A ⊆ (gbAgg child columns aggregates).outputColumns) : A ⊆ columns.toFinset := by
    intro c hc
    rcases mem_union.mp (hA' hc) with h | h
    · exact (mem_inter.mp h).1
    · exact absurd h (disjoint_left.mp hwf.2.2 (hA hc))
  have hK := hcols hkey hK
  have hD := hcols hdet hD
  by_cases hemp : columns.isEmpty = true
  · obtain rfl := List.isEmpty_iff.mp hemp
    rw [subset_empty.mp hD]
    exact determines_empty _ _
  · refine inherits_of_rows hfd fun r hr => ?_
    rw [rows_gbAgg hwf.1,groupKeys,if_neg hemp] at hr
    obtain ⟨key,hkeys,rfl⟩ := mem_map.mp hr
    obtain ⟨x,hx,rfl⟩ := mem_keysOf.mp hkeys
    have hag : Row.AgreeOn columns.toFinset (groupRow columns aggregates
        (fun r => r.scope child.outputColumns env) (child.rows tables env)
          (x.tuple columns)) x := by
      intro c hc
      rw [groupRow,Row.agreeOn_assign (disjoint_of_subset_left hwf.1 hwf.2.2) _ _ c hc]
      exact Row.ofTuple_tuple (List.mem_toFinset.mp hc)
    exact ⟨x,hx,hag.mono hK,hag.mono hD⟩

theorem inherits (s : CLogical C ν) (hwf : s.WellFormedNode) (happly : ¬ s.IsApply)
    (hkeep : s.KeepsDependency tables fContradiction fd env) (hc : c ∈ s.fdChildren)
    (hcar : c.Carries fContradiction fd) (hK : fd.key ⊆ s.outputColumns)
    (hD : fd.determined ⊆ s.outputColumns) :
    Determines fd.key fd.determined (s.rows tables env) := by
  cases s with
  | get table output keys | constTableGet output tuples | tvf output function
  | cteConsumer columns producer => cases hc
  | select child predicate =>
    obtain rfl := List.mem_singleton.mp hc
    exact inherits_of_le hfd (filter_le _ _)
  | project child elements =>
    obtain rfl := List.mem_singleton.mp hc
    refine inherits_of_rows hfd fun r hr => ?_
    obtain ⟨x,hx,hexp⟩ := mem_bind.mp hr
    obtain ⟨i,_,rfl⟩ := mem_map.mp hexp
    have hag {A : Finset ℕ} (hA : A ⊆ c.outputColumns) := Row.agreeOn_assign
      (disjoint_of_subset_left hA hwf.2)
      (elements.map fun e => e.valueAt (x.scope c.outputColumns env) i) x
    exact ⟨x,hx,hag hkey,hag hdet⟩
  | gbAgg child columns aggregates =>
    exact inherits_gbAgg hfd hkey hdet (List.mem_singleton.mp hc).symm hwf hK hD
  | sequenceProject child partition functions =>
    obtain rfl := List.mem_singleton.mp hc
    refine inherits_of_rows hfd fun r hr => ?_
    obtain ⟨key,_,hwin⟩ := mem_bind.mp hr
    obtain ⟨p,hp,rfl⟩ := mem_map.mp hwin
    have hmem : p.1 ∈ withKey (Row.tuple partition) (c.rows tables env) key := by
      rw [← functions.assign_rows env (withKey _ (c.rows tables env) key)]
      exact mem_map_of_mem Prod.fst hp
    have hag {A : Finset ℕ} (hA : A ⊆ c.outputColumns) :=
      Row.agreeOn_assign (disjoint_of_subset_left hA hwf.2.2) p.2 p.1
    exact ⟨p.1,(mem_withKey.mp hmem).1,hag hkey,hag hdet⟩
  | limit child l =>
    obtain rfl := List.mem_singleton.mp hc
    exact inherits_of_le hfd (l.keep_le _ _)
  | maxOneRow child =>
    obtain rfl := List.mem_singleton.mp hc
    refine inherits_of_le hfd ?_
    simp only [rows]
    split
    · exact le_rfl
    · exact Multiset.zero_le _
  | join joinType left right predicate =>
    have hcs : c = left ∨ c = right := by
      simpa [fdChildren,children] using hc
    exact inherits_join hfd hkey hdet hwf hkeep hcs hcar hD
  | apply applyType outer inner predicate => exact absurd trivial happly
  | setOp op output inputs children =>
    -- two rows that both repeat rows of the input satisfy its dependency
    intro r hr s hs hag
    by_cases hx : ∃ x ∈ c.rows tables env, Row.AgreeOn fd.key r x ∧ Row.AgreeOn fd.determined r x
    · by_cases hy : ∃ y ∈ c.rows tables env,
          Row.AgreeOn fd.key s y ∧ Row.AgreeOn fd.determined s y
      · obtain ⟨x,hx,hrK,hrD⟩ := hx
        obtain ⟨y,hy,hsK,hsD⟩ := hy
        exact (hrD.trans (hfd env x hx y hy ((hrK.symm.trans hag).trans hsK))).trans hsD.symm
      · exact (hkeep c hc hcar s hs hy r hr hag.symm).symm
    · exact hkeep c hc hcar r hr hx s hs hag
  | cteProducer columns child =>
    obtain rfl := List.mem_singleton.mp hc
    refine inherits_of_rows hfd fun r hr => ?_
    obtain ⟨x,hx,rfl⟩ := mem_map.mp hr
    exact ⟨x,hx,Row.agreeOn_restrict hK x,Row.agreeOn_restrict hD x⟩

end

/-- A dependency that is derived holds when the operator keeps it. -/
theorem determines_of_inputs (s : CLogical C ν) (hwf : s.WellFormedNode) (happly : ¬ s.IsApply)
    (hkeys : s.KeysSound tables fContradiction) (hcar : s.Carries fContradiction fd)
    (hkeysIn : ∀ c ∈ s.fdChildren, c.KeysSound tables fContradiction)
    (ih : ∀ c ∈ s.fdInputs fContradiction fd, ∀ env,
      Determines fd.key fd.determined (c.rows tables env))
    (hkeep : s.KeepsDependency tables fContradiction fd env) :
    Determines fd.key fd.determined (s.rows tables env) := by
  obtain ⟨hK,hD⟩ := hcar.subset hkeys
  obtain ⟨fd₁,hfd₁,hkey₁,hdet₁⟩ := hcar
  rcases mem_deriveFunctionalDependencies.mp hfd₁ with ⟨c,hc,fd',hfd',hre⟩ | hlo
  · obtain ⟨-,rfl⟩ := restrictTo_eq_some hre
    have hcarC : c.Carries fContradiction fd :=
      ⟨fd',hfd',hkey₁,hdet₁.trans inter_subset_left⟩
    obtain ⟨hkeyC,hdetC⟩ := hcarC.subset (hkeysIn c hc)
    exact inherits (ih c (List.mem_filter.mpr ⟨hc,decide_eq_true hcarC⟩)) hkeyC hdetC s hwf happly
      hkeep hc hcarC hK hD
  · obtain ⟨K,hkeyK,hok⟩ := List.mem_filterMap.mp hlo
    rw [ofKey] at hok
    split at hok
    case isTrue =>
      obtain rfl := some.inj hok
      rw [← hkey₁]
      exact ((hkeys K hkeyK).2 env).determines _
    case isFalse => cases hok

theorem mem_foldr_union {α : Type*} {f : α → Finset ℕ} {l : List α} {c : ℕ} :
    c ∈ l.foldr (fun a acc => f a ∪ acc) ∅ ↔ ∃ a ∈ l, c ∈ f a := by
  induction l with
  | nil => simp
  | cons a l ih => simp [ih]

/-- `CXformSimplifyGbAgg::Transform`: the minimal grouping columns of the new aggregate. -/
def minimalGroupingColumns (fContradiction : CLogical C ν → Bool) (child : CLogical C ν)
    (columns : List ℕ) (aggregates : List (CScalarAggregate ν)) : Option (Finset ℕ) :=
  if fDropGbAgg (child.deriveKeyCollection fContradiction) columns.toFinset aggregates then none
  else pcrsMinimal ((gbAgg child columns aggregates).deriveFunctionalDependencies fContradiction)
    columns.toFinset

theorem determines_of_fIncluded (hsd : child.Carries fContradiction fd →
      Determines fd.key fd.determined (child.rows tables env))
    (hfd : fd ∈ (gbAgg child columns aggregates).deriveFunctionalDependencies fContradiction)
    (hinc : fd.fIncluded columns.toFinset = true) :
    Determines fd.key fd.determined (child.rows tables env) := by
  rcases mem_deriveFunctionalDependencies.mp hfd with ⟨c,hc,fd',hfd',hre⟩ | hlo
  · obtain rfl := List.mem_singleton.mp hc
    obtain ⟨-,rfl⟩ := restrictTo_eq_some hre
    exact hsd ⟨fd',hfd',rfl,inter_subset_left⟩
  · -- A key of the aggregate determines none of the grouping columns.
    exfalso
    obtain ⟨K,hK,hok⟩ := List.mem_filterMap.mp hlo
    rw [ofKey] at hok
    split at hok
    case isFalse => cases hok
    case isTrue hne =>
      obtain rfl := some.inj hok
      simp only [fIncluded,Bool.and_eq_true,decide_eq_true_eq] at hinc
      apply hne
      by_cases hemp : columns = []
      · subst hemp
        exact subset_empty.mp hinc.2
      · have hkey : K = columns.toFinset := by
          have hkeys : (gbAgg child columns aggregates).deriveKeyCollection fContradiction
              = [columns.toFinset] := by
            simp [deriveKeyCollection,deriveKeyCollection.derived,orOutputColumns,gbAggKeys,hemp]
          rw [hkeys] at hK
          exact List.mem_singleton.mp hK
        rw [← hkey] at hinc
        exact disjoint_self_iff_empty _ |>.mp
          (Finset.disjoint_of_subset_right hinc.2 sdiff_disjoint)

theorem agreeOn_minimal_iff {minimal : Finset ℕ}
    (hsd : ∀ fd ∈ (gbAgg child columns aggregates).deriveFunctionalDependencies fContradiction,
      child.Carries fContradiction fd → Determines fd.key fd.determined (child.rows tables env))
    (hmi : minimalGroupingColumns fContradiction child columns aggregates = some minimal)
    {r s : Row ℕ ν} (hr : r ∈ child.rows tables env) (hs : s ∈ child.rows tables env) :
    Row.AgreeOn minimal r s ↔ Row.AgreeOn columns.toFinset r s := by
  rw [minimalGroupingColumns] at hmi
  split at hmi
  case isTrue => cases hmi
  case isFalse =>
    rw [pcrsMinimal] at hmi
    split at hmi
    case isFalse => cases hmi
    case isTrue hcv =>
      obtain rfl := some.inj hmi
      constructor
      · intro h c hc
        rw [← hcv,mem_foldr_union (f := fun fd : CFunctionalDependency =>
          fd.determined ∪ fd.key)] at hc
        obtain ⟨fd,hfd,hmem⟩ := hc
        obtain ⟨hfd,hinc⟩ := List.mem_filter.mp hfd
        have hkey : Row.AgreeOn fd.key r s := fun d hd => h d (mem_foldr_union.mpr
          ⟨fd,List.mem_filter.mpr ⟨hfd,hinc⟩,hd⟩)
        rcases mem_union.mp hmem with hmem | hmem
        · exact determines_of_fIncluded (hsd fd hfd) hfd hinc r hr s hs hkey c hmem
        · exact hkey c hmem
      · intro h
        refine h.mono fun c hc => ?_
        obtain ⟨fd,hfd,hmem⟩ := mem_foldr_union.mp hc
        have hinc := (List.mem_filter.mp hfd).2
        simp only [fIncluded,Bool.and_eq_true,decide_eq_true_eq] at hinc
        exact hinc.1 hmem

omit [DecidableEq ν] in
theorem mem_leftJoin_of_unmatched {x : Row ℕ ν}
    (hx : x ∈ unmatched m X Y) : x ∈ leftJoin .outer m X Y := by
  obtain ⟨hX,hzero⟩ := mem_filter.mp hx
  refine mem_bind.mpr ⟨x,hX,mem_map.mpr ⟨Row.null,?_,Row.merge_null x⟩⟩
  rw [LeftKind.extensions,if_pos hzero]
  exact Multiset.mem_singleton_self _

omit [DecidableEq ν] in
theorem exists_nullOn_right {L R : Finset ℕ} (hX : Over X L) (hLR : Disjoint L R)
    (h : NullExtendsRight joinType m X Y) : ∃ r ∈ joinType.rows m X Y, NullOn R r := by
  obtain ⟨x,hx⟩ := exists_mem_of_ne_zero h.2
  have hnull : NullOn R x := fun c hc => hX x (mem_filter.mp hx).1 c fun hmem =>
    disjoint_left.mp hLR (mem_coe.mp hmem) hc
  have hmem := mem_leftJoin_of_unmatched hx
  rcases h.1 with rfl | rfl
  · exact ⟨x,hmem,hnull⟩
  · exact ⟨x,mem_add.mpr (.inl hmem),hnull⟩

omit [DecidableEq ν] in
theorem exists_nullOn_left {L R : Finset ℕ} (hY : Over Y R) (hLR : Disjoint L R)
    (h : NullExtendsLeft joinType m X Y) : ∃ r ∈ joinType.rows m X Y, NullOn L r := by
  obtain ⟨y,hy⟩ := exists_mem_of_ne_zero h.2
  have hnull : NullOn L y := fun c hc => hY y (mem_filter.mp hy).1 c fun hmem =>
    disjoint_left.mp hLR hc (mem_coe.mp hmem)
  rcases h.1 with rfl | rfl
  · exact ⟨y,mem_leftJoin_of_unmatched hy,hnull⟩
  · refine ⟨y,mem_add.mpr (.inr ?_),hnull⟩
    rw [leftJoin_anti_eq_unmatched]
    exact hy

omit [DecidableEq ν] in
/-- A row that is NULL on the key of a dependency, beside one that is NULL throughout. -/
theorem nullOn_determined {Q : Finset ℕ} (h : Determines fd.key fd.determined X)
    (hkey : fd.key ⊆ Q) (hdet : fd.determined ⊆ Q) {r r₀ : Row ℕ ν} (hr : r ∈ X) (hr₀ : r₀ ∈ X)
    (hnull : NullOn Q r₀) (hrnull : NullOn fd.key r) : NullOn fd.determined r := by
  have hag := h r hr r₀ hr₀ fun a ha => (hrnull a ha).trans (hnull a (hkey ha)).symm
  exact fun a ha => (hag a ha).trans (hnull a (hdet ha))

theorem keepsDependency_of_determines (s : CLogical C ν) (hwf : s.WellFormedNode)
    (hkeysIn : ∀ c ∈ s.fdChildren, c.KeysSound tables fContradiction)
    (h : Determines fd.key fd.determined (s.rows tables env)) :
    s.KeepsDependency tables fContradiction fd env := by
  cases s with
  | join joinType left right predicate =>
    constructor
    · intro hcar hext r hr hrnull
      obtain ⟨r₀,hr₀,hnull⟩ := exists_nullOn_right (over_rows tables left env) hwf hext
      obtain ⟨hkey,hdet⟩ := hcar.subset (hkeysIn right (by simp [fdChildren,children]))
      exact nullOn_determined h hkey hdet hr hr₀ hnull hrnull
    · intro hcar hext r hr hrnull
      obtain ⟨r₀,hr₀,hnull⟩ := exists_nullOn_left (over_rows tables right env) hwf hext
      obtain ⟨hkey,hdet⟩ := hcar.subset (hkeysIn left (by simp [fdChildren,children]))
      exact nullOn_determined h hkey hdet hr hr₀ hnull hrnull
  | setOp op output inputs children => exact fun c _ _ r hr _ s hs => h r hr s hs
  | _ => trivial

omit [DecidableEq ν] in
theorem fdInputs_subset (t : CLogical C ν) : t.fdInputs fContradiction fd ⊆ t.children :=
  fun _ hc => fdChildren_subset (List.mem_filter.mp hc).1

omit [DecidableEq ν] in
theorem Carries.read {t : CLogical C ν} (h : t.Carries fContradiction fd)
    (hs : Read (fdInputs fContradiction fd) s t) : s.Carries fContradiction fd := by
  induction hs with
  | refl => exact h
  | input hc _ ih => exact ih (of_decide_eq_true (List.mem_filter.mp hc).2)

/-- Given true keys, a derived dependency is among the output columns, and it holds for all parts
that it is taken over from, the expression itself among them, exactly when each of these parts
keeps it; minimal grouping columns then give the same groups. -/
theorem derived_dependencies_hold_iff (t : CLogical C ν) (tables : Tables ν)
    (fContradiction : CLogical C ν → Bool) (hwf : t.WellFormed)
    (happly : ∀ s, Subtree s t → ¬ s.IsApply)
    (hkeys : ∀ s, Subtree s t → s.KeysSound tables fContradiction) :
    (∀ fd ∈ t.deriveFunctionalDependencies fContradiction,
      (fd.key ⊆ t.outputColumns ∧ fd.determined ⊆ t.outputColumns) ∧
      ((∀ s, Read (fdInputs fContradiction fd) s t →
          ∀ env, Determines fd.key fd.determined (s.rows tables env)) ↔
        ∀ s, Read (fdInputs fContradiction fd) s t →
          ∀ env, s.KeepsDependency tables fContradiction fd env)) ∧
    ∀ child columns aggregates minimal, t = gbAgg child columns aggregates →
      minimalGroupingColumns fContradiction child columns aggregates = some minimal →
      (∀ fd ∈ t.deriveFunctionalDependencies fContradiction,
        ∀ s, Read (fdInputs fContradiction fd) s t →
          ∀ env, s.KeepsDependency tables fContradiction fd env) →
      ∀ env, ∀ r ∈ child.rows tables env, ∀ s ∈ child.rows tables env,
        (Row.AgreeOn minimal r s ↔ Row.AgreeOn columns.toFinset r s) := by
  have hiff (fd : CFunctionalDependency)
      (hfd : fd ∈ t.deriveFunctionalDependencies fContradiction) :
      (∀ s, Read (fdInputs fContradiction fd) s t →
          ∀ env, Determines fd.key fd.determined (s.rows tables env)) ↔
        ∀ s, Read (fdInputs fContradiction fd) s t →
          ∀ env, s.KeepsDependency tables fContradiction fd env := by
    refine forall_read_iff fdInputs_subset fun s hs ih => forall_congr' fun env => ?_
    have hsub := hs.subtree fdInputs_subset
    have hkeysIn : ∀ c ∈ s.fdChildren, c.KeysSound tables fContradiction := fun c hc =>
      hkeys c ((subtree_of_mem_children (fdChildren_subset hc)).trans hsub)
    have hcar : t.Carries fContradiction fd := ⟨fd,hfd,rfl,Finset.Subset.refl _⟩
    exact ⟨keepsDependency_of_determines s (hwf s hsub) hkeysIn,
      determines_of_inputs s (hwf s hsub) (happly s hsub) (hkeys s hsub) (hcar.read hs) hkeysIn
        ih⟩
  refine ⟨fun fd hfd => ⟨subset_outputColumns_of_mem (hkeys t (.refl t)) hfd,hiff fd hfd⟩,?_⟩
  rintro child columns aggregates minimal rfl hmi hkeep env r hr s hs
  refine agreeOn_minimal_iff (fun fd hfd hcar => ?_) hmi hr hs
  refine (hiff fd hfd).mpr (hkeep fd hfd) child (.input ?_ (.refl child)) env
  exact List.mem_filter.mpr ⟨.head _,decide_eq_true hcar⟩

end CLogical

namespace MixedRows

open CLogical

variable (table key : ℕ)

/-- Base table `table` with the columns `key` and `key + 1`, the first of which is its key. -/
def keyed : CLogical (CScalarTest ℕ) ℕ := .get table [key, key + 1] [{0}]

variable (value : ℕ → ℕ)

def contents : Tables ℕ := fun table => {[some 1, some (value table)]}

theorem wellFormed_keyed : (keyed table key).WellFormed := by
  refine forall_subtree_iff.mpr ⟨⟨?_,?_⟩,nofun⟩
  · simp
  · simp

theorem tableKeysHold_keyed : (keyed table key).TableKeysHold (contents value) := by
  constructor
  · intro values h
    rw [Multiset.mem_singleton.mp h]
    rfl
  · intro _ _
    exact nodup_singleton _

variable (s : CLogical (CScalarTest ℕ) ℕ)

theorem keysSound_keyed
    (hs : Subtree s (keyed table key)) : s.KeysSound (contents value) fun _ => false := by
  revert s
  refine forall_subtree_iff.mpr ⟨keysSound_iff.mpr ⟨fun K => ?_,fun h => ?_⟩,nofun⟩
  · exact keysHold_get (wellFormed_keyed table key _ (.refl _))
      (tableKeysHold_keyed table key value)
  · exact absurd h (List.cons_ne_nil _ _)

/-- UNION ALL of two keyed tables that reuses the columns of the first one. -/
def unionAll : CLogical (CScalarTest ℕ) ℕ :=
  .setOp .unionAll [0, 1] [[0, 1], [2, 3]] [keyed 0 0, keyed 1 2]

theorem wellFormed_unionAll : unionAll.WellFormed := by
  refine forall_subtree_iff.mpr ⟨⟨by decide,by simp,?_⟩,fun c hc s hs => ?_⟩
  · exact .cons (by decide) (.cons (by decide) .nil)
  · simp only [unionAll,children,List.mem_cons,List.not_mem_nil,or_false] at hc
    rcases hc with rfl | rfl
    · exact wellFormed_keyed 0 0 s hs
    · exact wellFormed_keyed 1 2 s hs

theorem keysSound_unionAll
    (hs : Subtree s unionAll) : s.KeysSound (contents value) fun _ => false := by
  revert s
  refine forall_subtree_iff.mpr ⟨?_,fun c hc s hs => ?_⟩
  · have hnone : unionAll.deriveKeyCollection (fun _ => false) = [] := by decide
    intro K hK
    rw [hnone] at hK
    cases hK
  · simp only [unionAll,children,List.mem_cons,List.not_mem_nil,or_false] at hc
    rcases hc with rfl | rfl
    · exact keysSound_keyed 0 0 value s hs
    · exact keysSound_keyed 1 2 value s hs

/-- The two tables have different values for the same key. -/
theorem unionAll_loses_dependency : unionAll.WellFormed ∧
      (∀ s, Subtree s unionAll → s.KeysSound (contents id) fun _ => false) ∧
      ⟨{0}, {1}⟩ ∈ unionAll.deriveFunctionalDependencies (fun _ => false) ∧
      ¬ Determines {0} {1} (unionAll.rows (contents id) Row.null) := by
  refine ⟨wellFormed_unionAll,keysSound_unionAll id,by decide,fun h => ?_⟩
  have hfst : Row.ofTuple [0,1] [some 1,some 0] ∈ unionAll.rows (contents id) Row.null :=
    mem_map_of_mem _ (by decide)
  have hse : Row.ofTuple [0,1] [some 1,some 1] ∈ unionAll.rows (contents id) Row.null :=
    mem_map_of_mem _ (by decide)
  have hag := h _ hfst _ hse (by simp [Row.AgreeOn,Row.ofTuple]) 1 (by decide)
  exact absurd hag (by decide)

theorem dependency_of_keyed :
    Determines {0} {1} ((keyed 0 0).rows (contents id) Row.null) := by
  have hfd : (⟨{0},{1}⟩ : CFunctionalDependency) ∈
      (keyed 0 0).deriveFunctionalDependencies (fun _ => false) := by decide
  refine (((derived_dependencies_hold_iff (keyed 0 0) (contents id) (fun _ => false)
    (wellFormed_keyed 0 0) (forall_subtree_iff.mpr ⟨id,nofun⟩) (keysSound_keyed 0 0 id)).1
    _ hfd).2.mpr fun s hs => ?_) _ (.refl _) _
  cases hs with
  | refl => exact fun _ => trivial
  | input hc _ => cases hc

end MixedRows

end PgOrca
