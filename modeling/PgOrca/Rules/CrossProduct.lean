import PgOrca.Library.SemiJoins
import PgOrca.Logical.Semantics

/-!
# Semi joins turned into cross products

A semi or anti join whose predicate reads only outer columns becomes an inner join with one row of
the inner side, under the predicate or its negation. The predicate is then pushed down by a pass of
its own.
-/

namespace PgOrca

open Multiset

def CScalar.pexprNegate {ν : Type*} (e : CScalar (CScalarTest ν)) : CScalar (CScalarTest ν) :=
  .other ⟨e.usedColumns, fun r => Kleene.not (e.eval r), fun _ _ h => by rw [e.eval_congr h]⟩

def CLimit.IsOne {ν : Type*} (l : CLimit ν) : Prop :=
  l.rowCount = .constInt8 (some 1) ∧ ∀ outer, l.offset outer = 0

/-- A join that matches one of the three patterns. -/
structure CSemiJoin (ν : Type*) where
  joinType : JoinType
  outer : CLogical (CScalarTest ν) ν
  inner : CLogical (CScalarTest ν) ν
  predicate : CScalar (CScalarTest ν)
  isSemi : joinType = .leftSemi ∨ joinType = .leftAntiSemi ∨ joinType = .leftAntiSemiNotIn
  disjoint : Disjoint outer.outputColumns inner.outputColumns

namespace CSemiJoin

variable {ν : Type*} (j : CSemiJoin ν) (one : CLimit ν)

def toLogical : CLogical (CScalarTest ν) ν := .join j.joinType j.outer j.inner j.predicate

def exfpSemiJoin2CrossProduct : Bool :=
  decide (j.predicate.usedColumns.card ≠ 0 ∧ j.predicate.usedColumns ⊆ j.outer.outputColumns)

def crossProduct (pexprScalar : CScalar (CScalarTest ν)) : CLogical (CScalarTest ν) ν :=
  .join .inner j.outer (.limit j.inner one) pexprScalar

def leftSemiJoin2CrossProduct : CLogical (CScalarTest ν) ν := j.crossProduct one j.predicate

/-- `CXformLeftAntiSemiJoin2CrossProduct`, also for NOT IN -/
def leftAntiSemiJoin2CrossProduct : CLogical (CScalarTest ν) ν :=
  j.crossProduct one j.predicate.pexprNegate

/-- The cross product that a rule builds for the join -/
def pexprJoin : CLogical (CScalarTest ν) ν :=
  if j.joinType = .leftSemi then j.leftSemiJoin2CrossProduct one
  else j.leftAntiSemiJoin2CrossProduct one

/-- The alternative added for the join, given what `CNormalizer` makes of the cross product. -/
def transform (pexprNormalize : CLogical (CScalarTest ν) ν → CLogical (CScalarTest ν) ν) :
    Option (CLogical (CScalarTest ν) ν) :=
  if j.exfpSemiJoin2CrossProduct then some (pexprNormalize (j.pexprJoin one)) else none

variable [DecidableEq ν] (tables : Tables ν) (env : Row ℕ ν)

def truth (x : Row ℕ ν) : Option Bool := j.predicate.eval (x.scope j.outer.outputColumns env)

def Exact (x : Row ℕ ν) : Prop :=
  match j.joinType with
  | .leftSemi => True
  | .leftAntiSemi => (j.inner.rows tables env).card ≠ 0 ∧ j.truth env x ≠ none
  | _ => (j.inner.rows tables env).card ≠ 0

variable {tables env} {j one} {e : CScalar (CScalarTest ν)}

omit [DecidableEq ν] in
theorem partners_card_ne_zero_iff {joinType : JoinType} (he : e.usedColumns ⊆ j.outer.outputColumns)
    {x : Row ℕ ν} {Y : Multiset (Row ℕ ν)} (hY : Over Y j.inner.outputColumns) :
    (partners (e.joinMatch joinType (j.outer.outputColumns ∪ j.inner.outputColumns) env) x Y).card
        ≠ 0 ↔
      joinType.isMatch (e.eval (x.scope j.outer.outputColumns env)) = true ∧ Y.card ≠ 0 := by
  have hm : ∀ y ∈ Y, e.joinMatch joinType (j.outer.outputColumns ∪ j.inner.outputColumns) env
      (x.merge y) = joinType.isMatch (e.eval (x.scope j.outer.outputColumns env)) := by
    intro y hy
    rw [CScalar.joinMatch,CScalar.eval_congr e fun c hc => ?_]
    have hcR := Finset.disjoint_left.mp j.disjoint (he hc)
    simp [Row.scope,he hc,Row.merge,hY y hy c (by simpa using hcR)]
  rw [partners,filter_congr fun y hy => by rw [hm y hy]]
  cases joinType.isMatch (e.eval (x.scope j.outer.outputColumns env)) <;> simp

theorem rows_crossProduct (hone : one.IsOne) (he : e.usedColumns ⊆ j.outer.outputColumns) :
    ((j.crossProduct one e).rows tables env).map (Row.restrict j.outer.outputColumns) =
      (j.outer.rows tables env).filter fun x => e.eval (x.scope j.outer.outputColumns env) =
        some true ∧ (j.inner.rows tables env).card ≠ 0 := by
  have hcard : (one.keep env (j.inner.rows tables env)).card =
      min 1 (j.inner.rows tables env).card := by
    rw [one.card_keep,hone.1,hone.2]
    rfl
  have hover := (j.inner.over_rows tables env).of_le (one.keep_le env _)
  have hrows : (j.inner.limit one).rows tables env = one.keep env (j.inner.rows tables env) := rfl
  rw [crossProduct,CLogical.rows,JoinType.rows,hrows,CLogical.outputColumns,
    restrict_leftJoin_inner (j.outer.over_rows tables env) hover j.disjoint,
    bind_replicate_of_le_one]
  · apply filter_congr
    intro x _
    rw [partners_card_ne_zero_iff he hover,hcard]
    simp [JoinType.isMatch]
  · intro x _
    refine (card_partners_le _ x _).trans ?_
    rw [hcard]
    exact min_le_left _ _

theorem rows_toLogical (he : j.predicate.usedColumns ⊆ j.outer.outputColumns) :
    j.toLogical.rows tables env = (j.outer.rows tables env).filter fun x =>
      (j.joinType = .leftSemi ↔
        j.joinType.isMatch (j.truth env x) = true ∧ (j.inner.rows tables env).card ≠ 0) := by
  have hover := j.inner.over_rows tables env
  rw [toLogical,CLogical.rows]
  rcases j.isSemi with hty | hty | hty
  · rw [hty,JoinType.rows,leftJoin_semi_eq_filter]
    apply filter_congr
    intro x _
    rw [partners_card_ne_zero_iff he hover]
    simp [truth]
  all_goals
    rw [hty,JoinType.rows,leftJoin_anti_eq_unmatched,unmatched]
    apply filter_congr
    intro x _
    rw [← not_iff_not,← ne_eq,partners_card_ne_zero_iff he hover]
    simp [truth]

/-- What is normalized and added for the join denotes the outer rows of the join exactly when the
two agree on every outer row. -/
theorem transform_rows_iff (j : CSemiJoin ν) (one : CLimit ν) (hone : one.IsOne)
    (pexprNormalize : CLogical (CScalarTest ν) ν → CLogical (CScalarTest ν) ν) (tables : Tables ν)
    (alternative : CLogical (CScalarTest ν) ν)
    (htransform : j.transform one pexprNormalize = some alternative) (env : Row ℕ ν) :
    alternative = pexprNormalize (j.pexprJoin one) ∧
      (((j.pexprJoin one).rows tables env).map (Row.restrict j.outer.outputColumns) =
          j.toLogical.rows tables env ↔
        ∀ x ∈ j.outer.rows tables env, j.Exact tables env x) := by
  have hexfp : j.exfpSemiJoin2CrossProduct = true := by
    by_contra hnot
    rw [transform,if_neg hnot] at htransform
    cases htransform
  rw [transform,if_pos hexfp] at htransform
  obtain rfl := Option.some.inj htransform
  have he : j.predicate.usedColumns ⊆ j.outer.outputColumns := (of_decide_eq_true hexfp).2
  have hneg : j.predicate.pexprNegate.usedColumns ⊆ j.outer.outputColumns := he
  refine ⟨rfl,?_⟩
  rw [pexprJoin,rows_toLogical he]
  rcases j.isSemi with hty | hty | hty
  · rw [if_pos hty,leftSemiJoin2CrossProduct,rows_crossProduct hone he,filter_eq_filter_iff]
    refine forall₂_congr fun x _ => ?_
    change (j.truth env x = some true ∧ _ ↔ _) ↔ _
    simp only [Exact,hty,JoinType.isMatch]
    rcases j.truth env x with _ | _ | _ <;> simp
  all_goals
    rw [if_neg (by rw [hty]; decide),leftAntiSemiJoin2CrossProduct,rows_crossProduct hone hneg,
      filter_eq_filter_iff]
    refine forall₂_congr fun x _ => ?_
    have hnot : j.predicate.pexprNegate.eval (x.scope j.outer.outputColumns env) =
        Kleene.not (j.truth env x) := rfl
    simp only [hnot,Exact,hty,JoinType.isMatch]
    rcases j.truth env x with _ | _ | _ <;> simp [Kleene.not]

end CSemiJoin

namespace CSemiJoin.SmallTables

noncomputable def anyRow : CLimit ℕ where
  rowCount := .constInt8 (some 1)
  offset _ := 0
  keep _ X := (X.toList.take 1 : List _)
  keep_le _ X := by
    conv_rhs => rw [← X.coe_toList]
    exact coe_le.mpr (List.take_sublist 1 _).subperm
  card_keep _ X := by
    rw [coe_card, List.length_take, length_toList]
    rfl

theorem isOne_anyRow : anyRow.IsOne := ⟨rfl,fun _ => rfl⟩

def antiJoin : CSemiJoin ℕ :=
  ⟨.leftAntiSemi, .get 0 [0] [], .get 1 [1] [], .other (.equal 0 0), .inr (.inl rfl), by decide⟩

def tables (second : Multiset (List (Option ℕ))) : Tables ℕ
  | 0 => {[some 1]}
  | _ => second

/-- Over an empty inner side the anti join keeps the outer row and the cross product loses it. -/
theorem lost_over_empty_inner :
    (antiJoin.toLogical.rows (tables 0) Row.null).card = 1 ∧
      antiJoin.transform anyRow id = some (antiJoin.leftAntiSemiJoin2CrossProduct anyRow) ∧
      ((antiJoin.leftAntiSemiJoin2CrossProduct anyRow).rows (tables 0) Row.null).card = 0 := by
  refine ⟨rfl,rfl,?_⟩
  rw [← card_map (Row.restrict antiJoin.outer.outputColumns),leftAntiSemiJoin2CrossProduct,
    rows_crossProduct isOne_anyRow (by decide)]
  simp [antiJoin,CLogical.rows,tables]

theorem kept_over_inner_row :
    ((antiJoin.leftAntiSemiJoin2CrossProduct anyRow).rows (tables {[some 2]}) Row.null).map
        (Row.restrict antiJoin.outer.outputColumns) =
      antiJoin.toLogical.rows (tables {[some 2]}) Row.null := by
  refine (transform_rows_iff antiJoin anyRow isOne_anyRow id _ _ rfl _).2.mpr ?_
  intro x hx
  rw [mem_singleton.mp hx]
  exact ⟨by decide,by decide⟩

end CSemiJoin.SmallTables

end PgOrca
