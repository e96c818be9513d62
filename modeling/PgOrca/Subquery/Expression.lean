import PgOrca.Logical.Semantics

/-!
# Expressions with subqueries

The input of a subquery is computed below the row at which the scalar is evaluated. Operators that
unnesting does not look into are kept as what they compute.
-/

namespace PgOrca.Unnesting

open Finset
open Row.AgreeOn (scope)

universe u

/-- A value. The booleans and the integers that counts and sums return are told apart; two values
that the equality of their type takes for equal are one. -/
inductive CDatum (β : Type u) where
  | bool (value : Bool)
  | int (value : ℤ)
  | other (value : β)
  deriving DecidableEq

namespace CDatum

variable {β : Type u}

def toBool : Option (CDatum β) → Option Bool
  | some (bool value) => some value
  | _ => none

def ofBool (value : Option Bool) : Option (CDatum β) := value.map bool

def toInt : Option (CDatum β) → Option ℤ
  | some (int value) => some value
  | _ => none

@[simp] theorem toBool_ofBool (value : Option Bool) :
    toBool (ofBool value : Option (CDatum β)) = value := by
  rcases value with _ | value <;> rfl

@[simp] theorem toBool_some_bool (value : Bool) :
    toBool (some (bool value) : Option (CDatum β)) = some value := rfl

end CDatum

/-- A comparison operator with what the metadata says of it. The built-in operators that count as
very strict are NULL exactly on NULL operands, and an equality among them has one partner for a
value. -/
structure CScalarCmp (β : Type u) where
  value : Option (CDatum β) → Option (CDatum β) → Option Bool
  fEquality : Bool
  fVeryStrict : Bool
  isSome_value : fVeryStrict = true → ∀ v w, (value v w).isSome = (v.isSome && w.isSome)
  partner_unique : fVeryStrict = true → fEquality = true → ∀ v w w',
    value v w = some true → value v w' = some true → w = w'

inductive EBoolTest where
  | isTrue
  | isNotTrue
  | isFalse
  | isNotFalse
  | isUnknown
  | isNotUnknown
  deriving DecidableEq

def EBoolTest.value : EBoolTest → Option Bool → Bool
  | isTrue, t => t = some true
  | isNotTrue, t => t ≠ some true
  | isFalse, t => t = some false
  | isNotFalse, t => t ≠ some false
  | isUnknown, t => t = none
  | isNotUnknown, t => t ≠ none

/-- The scalar operators; those that unnesting treats alike are kept as what they compute. -/
inductive CScalarOp (β : Type u) where
  | boolAnd
  | boolOr
  | boolNot
  | cmp (op : CScalarCmp β)
  | nullTest
  | booleanTest (test : EBoolTest)
  | coalesce
  | scalarIf
  | isDistinctFrom
  | other (value : List (Option (CDatum β)) → Option (CDatum β))

namespace CScalarOp

variable {β : Type u} [DecidableEq β]

def value : CScalarOp β → List (Option (CDatum β)) → Option (CDatum β)
  | boolAnd, values => CDatum.ofBool (Kleene.all (values.map CDatum.toBool))
  | boolOr, values => CDatum.ofBool (Kleene.any (values.map CDatum.toBool))
  | boolNot, [v] => CDatum.ofBool (Kleene.not (CDatum.toBool v))
  | cmp op, [v, w] => CDatum.ofBool (op.value v w)
  | nullTest, [v] => CDatum.ofBool (some v.isNone)
  | booleanTest test, [v] => CDatum.ofBool (some (test.value (CDatum.toBool v)))
  | coalesce, values => (values.find? Option.isSome).join
  | scalarIf, [c, v, w] => if CDatum.toBool c = some true then v else w
  | isDistinctFrom, [v, w] => CDatum.ofBool (some (v ≠ w))
  | other value, values => value values
  | _, _ => none

end CScalarOp

/-- The aggregate functions; all but counts and sums are kept as what they compute. -/
inductive CScalarAggFunc (β : Type u) where
  | countStar
  | count (column : ℕ)
  | sum (column : ℕ)
  | other (columns : List ℕ) (value : Multiset (List (Option (CDatum β))) → Option (CDatum β))

namespace CScalarAggFunc

variable {β : Type u}

def usedColumns : CScalarAggFunc β → Finset ℕ
  | countStar => ∅
  | count column => {column}
  | sum column => {column}
  | other columns _ => columns.toFinset

def sumOf (values : Multiset (Option ℤ)) : Option ℤ :=
  if ∀ v ∈ values, v = none then none else some (values.map fun v => v.getD 0).sum

/-- The aggregate over the rows of a group; counts and sums skip NULLs. -/
def value : CScalarAggFunc β → Multiset (Row ℕ (CDatum β)) → Option (CDatum β)
  | countStar, X => some (.int X.card)
  | count column, X => some (.int (X.countP fun r => (r column).isSome))
  | sum column, X => (sumOf (X.map fun r => CDatum.toInt (r column))).map .int
  | other columns value, X => value (X.map (Row.tuple columns))

end CScalarAggFunc

/-- Which row a limit of one keeps is left to the execution. -/
structure CLimitOne (ν : Type u) where
  keep : Multiset (Row ℕ ν) → Multiset (Row ℕ ν)
  keep_le : ∀ X, keep X ≤ X
  card_keep : ∀ X, (keep X).card = min 1 X.card

/-- The apply operators. The correlated form of the last two runs the inner side as a subplan that
tests the comparison of an ALL subquery itself instead of its inverse. -/
inductive ELogicalApply where
  | inner
  | leftOuter
  | leftSemi
  | leftAntiSemi
  | leftAntiSemiNotIn
  | leftAntiSemiCorrelatedNotIn
  deriving DecidableEq

namespace ELogicalApply

def kind : ELogicalApply → LeftKind
  | inner => .inner
  | leftOuter => .outer
  | leftSemi => .semi
  | leftAntiSemi => .anti
  | leftAntiSemiNotIn => .anti
  | leftAntiSemiCorrelatedNotIn => .anti

def isMatch : ELogicalApply → Option Bool → Bool
  | leftAntiSemiNotIn, value => value ≠ some false
  | leftAntiSemiCorrelatedNotIn, value => value ≠ some true
  | _, value => value = some true

def outputColumns : ELogicalApply → Finset ℕ → Finset ℕ → Finset ℕ
  | inner, outer, right => outer ∪ right
  | leftOuter, outer, right => outer ∪ right
  | _, outer, _ => outer

end ELogicalApply

inductive EQuantifier where
  | any
  | all
  deriving DecidableEq

def EQuantifier.value : EQuantifier → Multiset (Option Bool) → Option Bool
  | any, values => Kleene.anyOf values
  | all, values => Kleene.allOf values

/-- The value of a scalar subquery, given its column in every row; more than one row is an error,
for which NULL stands. -/
def scalarValue {ν : Type u} (values : Multiset (Option ν)) : Option ν :=
  Quot.liftOn values (fun | [v] => v | _ => none) fun l l' h => by
    have hlength := h.length_eq
    match l, l', h, hlength with
    | [], [], _, _ => rfl
    | [v], [w], h, _ => exact List.singleton_perm_singleton.mp h
    | _ :: _ :: _, _ :: _ :: _, _, _ => rfl

mutual

inductive CValueExpr (β : Type u) : Type u where
  | ident (column : ℕ)
  | const (value : Option (CDatum β))
  | node (op : CScalarOp β) (children : List (CValueExpr β))
  | subquery (inner : CRelExpr β) (column : ℕ)
  | quantified (quantifier : EQuantifier) (op : CScalarCmp β) (inner : CRelExpr β) (column : ℕ)
      (scalar : CValueExpr β)
  | existential (negated : Bool) (inner : CRelExpr β)

inductive CRelExpr (β : Type u) : Type u where
  | relation (columns outerRefs : List ℕ)
      (tuples : List (Option (CDatum β)) → Multiset (List (Option (CDatum β))))
  | select (child : CRelExpr β) (predicate : CValueExpr β)
  | project (child : CRelExpr β) (columns : List ℕ) (values : List (CValueExpr β))
  | gbAgg (child : CRelExpr β) (columns : List ℕ) (aggregates : List (ℕ × CScalarAggFunc β))
  | limitOne (child : CRelExpr β) (limit : CLimitOne (CDatum β))
  | maxOneRow (child : CRelExpr β)
  | apply (applyType : ELogicalApply) (outer inner : CRelExpr β) (predicate : CValueExpr β)
  | other (columns outerRefs : List ℕ)
      (compute : List (Option (CDatum β)) → List (Multiset (Row ℕ (CDatum β))) →
        Multiset (List (Option (CDatum β))))
      (children : List (CRelExpr β))

end

namespace CRelExpr

variable {β : Type u}

def outputColumns : CRelExpr β → Finset ℕ
  | relation columns _ _ => columns.toFinset
  | select child _ => child.outputColumns
  | project child columns _ => child.outputColumns ∪ columns.toFinset
  | gbAgg child columns aggregates =>
    columns.toFinset ∩ child.outputColumns ∪ (aggregates.map Prod.fst).toFinset
  | limitOne child _ => child.outputColumns
  | maxOneRow child => child.outputColumns
  | apply applyType outer inner _ =>
    applyType.outputColumns outer.outputColumns inner.outputColumns
  | other columns _ _ _ => columns.toFinset

end CRelExpr

mutual

def CValueExpr.usedColumns {β : Type u} : CValueExpr β → Finset ℕ
  | .ident column => {column}
  | .const _ => ∅
  | .node _ children => usedColumnsAll children
  | .subquery inner column => inner.outerRefs ∪ ({column} \ inner.outputColumns)
  | .quantified _ _ inner column scalar =>
    inner.outerRefs ∪ ({column} \ inner.outputColumns) ∪ scalar.usedColumns
  | .existential _ inner => inner.outerRefs

def usedColumnsAll {β : Type u} : List (CValueExpr β) → Finset ℕ
  | [] => ∅
  | e :: es => e.usedColumns ∪ usedColumnsAll es

def CRelExpr.outerRefs {β : Type u} : CRelExpr β → Finset ℕ
  | .relation _ outerRefs _ => outerRefs.toFinset
  | .select child predicate => child.outerRefs ∪ (predicate.usedColumns \ child.outputColumns)
  | .project child _ values => child.outerRefs ∪ (usedColumnsAll values \ child.outputColumns)
  | .gbAgg child columns aggregates =>
    child.outerRefs ∪ ((columns.toFinset ∪
      aggregates.foldr (fun a C => a.2.usedColumns ∪ C) ∅) \ child.outputColumns)
  | .limitOne child _ => child.outerRefs
  | .maxOneRow child => child.outerRefs
  | .apply _ outer inner predicate =>
    outer.outerRefs ∪ (inner.outerRefs \ outer.outputColumns) ∪
      (predicate.usedColumns \ (outer.outputColumns ∪ inner.outputColumns))
  | .other _ outerRefs _ children => outerRefs.toFinset ∪ outerRefsAll children

def outerRefsAll {β : Type u} : List (CRelExpr β) → Finset ℕ
  | [] => ∅
  | t :: ts => t.outerRefs ∪ outerRefsAll ts

end

section

variable {β : Type u} [DecidableEq β]

/-- The row of a group: its grouping columns and the aggregates over its rows. -/
def aggregateRow (columns : List ℕ) (aggregates : List (ℕ × CScalarAggFunc β))
    (X : Multiset (Row ℕ (CDatum β))) (key : List (Option (CDatum β))) : Row ℕ (CDatum β) :=
  (Row.ofTuple columns key).assign (aggregates.map Prod.fst)
    (aggregates.map fun a => a.2.value (withKey (Row.tuple columns) X key))

mutual

def CValueExpr.eval : CValueExpr β → Row ℕ (CDatum β) → Option (CDatum β)
  | .ident column, r => r column
  | .const value, _ => value
  | .node op children, r => op.value (evalAll children r)
  | .subquery inner column, r =>
    scalarValue ((inner.rows r).map fun y => y.scope inner.outputColumns r column)
  | .quantified quantifier op inner column scalar, r =>
    CDatum.ofBool (quantifier.value ((inner.rows r).map fun y =>
      op.value (scalar.eval r) (y.scope inner.outputColumns r column)))
  | .existential negated inner, r =>
    CDatum.ofBool (some (decide ((inner.rows r).card = 0) = negated))

def evalAll : List (CValueExpr β) → Row ℕ (CDatum β) → List (Option (CDatum β))
  | [], _ => []
  | e :: es, r => e.eval r :: evalAll es r

/-- The rows below an outer row. Grouping columns are read like the scalars of the operator, so
that an outer reference may be one of them; only those the child returns are returned. -/
def CRelExpr.rows : CRelExpr β → Row ℕ (CDatum β) → Multiset (Row ℕ (CDatum β))
  | .relation columns outerRefs tuples, env =>
    (tuples (env.tuple outerRefs)).map (Row.ofTuple columns)
  | .select child predicate, env =>
    (child.rows env).filter fun r =>
      CDatum.toBool (predicate.eval (r.scope child.outputColumns env)) = some true
  | .project child columns values, env =>
    (child.rows env).map fun r =>
      r.assign columns (evalAll values (r.scope child.outputColumns env))
  | .gbAgg child columns aggregates, env =>
    let X := (child.rows env).map fun r => r.scope child.outputColumns env
    (groupKeys columns X).map fun key =>
      (aggregateRow columns aggregates X key).restrict
        (columns.toFinset ∩ child.outputColumns ∪ (aggregates.map Prod.fst).toFinset)
  | .limitOne child limit, env => limit.keep (child.rows env)
  | .maxOneRow child, env =>
    let X := child.rows env
    if X.card ≤ 1 then X else 0
  | .apply applyType outer inner predicate, env =>
    (outer.rows env).bind fun x =>
      (applyType.kind.extensions (partners
        (fun r => applyType.isMatch (CDatum.toBool (predicate.eval
          (r.scope (outer.outputColumns ∪ inner.outputColumns) env))))
        x (inner.rows (x.scope outer.outputColumns env)))).map x.merge
  | .other columns outerRefs compute children, env =>
    (compute (env.tuple outerRefs) (rowsAll children env)).map (Row.ofTuple columns)

def rowsAll : List (CRelExpr β) → Row ℕ (CDatum β) → List (Multiset (Row ℕ (CDatum β)))
  | [], _ => []
  | t :: ts, env => t.rows env :: rowsAll ts env

end

theorem evalAll_eq_map (es : List (CValueExpr β)) (r : Row ℕ (CDatum β)) :
    evalAll es r = es.map fun e => e.eval r := by
  induction es with
  | nil => rw [evalAll,List.map_nil]
  | cons e es ih => rw [evalAll,ih,List.map_cons]

end

section

variable {β : Type u}

theorem CRelExpr.over_rows [DecidableEq β] : (t : CRelExpr β) → (env : Row ℕ (CDatum β)) →
    Over (t.rows env) t.outputColumns
  | .relation columns _ _, _ | .other columns _ _ _, _ => by
    rw [CRelExpr.rows]
    exact CLogical.over_map_ofTuple columns _
  | .select child _, env => by
    rw [CRelExpr.rows]
    exact (over_rows child env).of_le (Multiset.filter_le _ _)
  | .project child columns values, env => by
    rw [CRelExpr.rows]
    intro r hr
    obtain ⟨s,hs,rfl⟩ := Multiset.mem_map.mp hr
    exact CLogical.assign_supportedOn _ (over_rows child env s hs)
  | .gbAgg child columns aggregates, env => by
    rw [CRelExpr.rows]
    intro r hr
    obtain ⟨key,_,rfl⟩ := Multiset.mem_map.mp hr
    exact Row.restrict_supportedOn _ _
  | .limitOne child limit, env => by
    rw [CRelExpr.rows]
    exact (over_rows child env).of_le (limit.keep_le _)
  | .maxOneRow child, env => by
    rw [CRelExpr.rows]
    split
    · exact over_rows child env
    · exact fun r hr => absurd hr (Multiset.notMem_zero r)
  | .apply applyType outer inner predicate, env => by
    rw [CRelExpr.rows]
    intro r hr
    obtain ⟨x,hx,hmap⟩ := Multiset.mem_bind.mp hr
    obtain ⟨w,hw,rfl⟩ := Multiset.mem_map.mp hmap
    exact CLogical.supportedOn_of_mem_extensions (by cases applyType <;> rfl)
      (over_rows outer env x hx) ((over_rows inner _).of_le (partners_le _ _ _)) hw

end

variable {α : Type*}

section

variable {β : Type u} {aggregates : List (ℕ × CScalarAggFunc β)} {f g : α → Row ℕ (CDatum β)}
  {Z : Multiset α}

theorem CScalarAggFunc.value_congr (a : CScalarAggFunc β)
    (h : ∀ z ∈ Z, Row.AgreeOn a.usedColumns (f z) (g z)) :
    a.value (Z.map f) = a.value (Z.map g) := by
  cases a with
  | countStar => simp only [value,Multiset.card_map]
  | count column =>
    have hcongr : ∀ z ∈ Z, ((f z column).isSome = true ↔ (g z column).isSome = true) :=
      fun z hz => by rw [h z hz column (Finset.mem_singleton_self _)]
    simp only [value,Multiset.countP_map]
    rw [Multiset.filter_congr hcongr]
  | sum column =>
    simp only [value,Multiset.map_map,Function.comp_def]
    rw [Multiset.map_congr rfl fun z hz => by
      rw [h z hz column (Finset.mem_singleton_self _)]]
  | other columns value =>
    simp only [CScalarAggFunc.value,Multiset.map_map,Function.comp_def]
    rw [Multiset.map_congr rfl fun z hz => Row.tuple_congr (h z hz)]

theorem usedColumns_subset_foldr {a : ℕ × CScalarAggFunc β} (ha : a ∈ aggregates) :
    a.2.usedColumns ⊆ aggregates.foldr (fun a C => a.2.usedColumns ∪ C) ∅ := by
  induction aggregates with
  | nil => cases ha
  | cons b aggregates ih =>
    rcases List.mem_cons.mp ha with rfl | ha
    · exact subset_union_left
    · exact (ih ha).trans subset_union_right

variable [DecidableEq β]

theorem groupKeys_congr {columns : List ℕ} (h : ∀ z ∈ Z, Row.AgreeOn columns.toFinset (f z) (g z)) :
    groupKeys columns (Z.map f) = groupKeys columns (Z.map g) := by
  simp only [groupKeys,keysOf,Multiset.map_map,Function.comp_def]
  rw [Multiset.map_congr rfl fun z hz => Row.tuple_congr (h z hz)]

theorem aggregateRow_congr {columns : List ℕ}
    (hcols : ∀ z ∈ Z, Row.AgreeOn columns.toFinset (f z) (g z))
    (hagg : ∀ a ∈ aggregates, ∀ z ∈ Z, Row.AgreeOn a.2.usedColumns (f z) (g z))
    (key : List (Option (CDatum β))) :
    aggregateRow columns aggregates (Z.map f) key
      = aggregateRow columns aggregates (Z.map g) key := by
  rw [aggregateRow,aggregateRow]
  congr 1
  refine List.map_congr_left fun a ha => ?_
  have hg : (Z.filter fun z => (f z).tuple columns = key)
      = Z.filter fun z => (g z).tuple columns = key :=
    Multiset.filter_congr fun z hz => by rw [Row.tuple_congr (hcols z hz)]
  rw [withKey_map,withKey_map,hg]
  exact a.2.value_congr fun z hz => hagg a ha z (Multiset.mem_of_mem_filter hz)

mutual

theorem CValueExpr.eval_congr : (e : CValueExpr β) → {r s : Row ℕ (CDatum β)} →
    Row.AgreeOn e.usedColumns r s → e.eval r = e.eval s
  | .ident column, r, s, h => by
    rw [CValueExpr.eval,CValueExpr.eval]
    exact h column (by rw [CValueExpr.usedColumns]; exact Finset.mem_singleton_self _)
  | .const _, r, s, _ => by rw [CValueExpr.eval,CValueExpr.eval]
  | .node op children, r, s, h => by
    rw [CValueExpr.usedColumns] at h
    rw [CValueExpr.eval,CValueExpr.eval,evalAll_congr children h]
  | .subquery inner column, r, s, h => by
    rw [CValueExpr.usedColumns] at h
    have hcol (y : Row ℕ (CDatum β)) := scope
      (h.mono subset_union_right) y column (Finset.mem_singleton_self column)
    simp only [CValueExpr.eval,inner.rows_congr (h.mono subset_union_left),hcol]
  | .quantified quantifier op inner column scalar, r, s, h => by
    rw [CValueExpr.usedColumns] at h
    have hinn := h.mono subset_union_left
    have hcol (y : Row ℕ (CDatum β)) := scope
      (hinn.mono subset_union_right) y column (Finset.mem_singleton_self column)
    simp only [CValueExpr.eval,inner.rows_congr (hinn.mono subset_union_left),
      scalar.eval_congr (h.mono subset_union_right),hcol]
  | .existential negated inner, r, s, h => by
    rw [CValueExpr.usedColumns] at h
    rw [CValueExpr.eval,CValueExpr.eval,inner.rows_congr h]

theorem evalAll_congr : (es : List (CValueExpr β)) → {r s : Row ℕ (CDatum β)} →
    Row.AgreeOn (usedColumnsAll es) r s → evalAll es r = evalAll es s
  | [], r, s, _ => by rw [evalAll,evalAll]
  | e :: es, r, s, h => by
    rw [usedColumnsAll] at h
    rw [evalAll,evalAll,e.eval_congr (h.mono subset_union_left),
      evalAll_congr es (h.mono subset_union_right)]

theorem CRelExpr.rows_congr : (t : CRelExpr β) → {r s : Row ℕ (CDatum β)} →
    Row.AgreeOn t.outerRefs r s → t.rows r = t.rows s
  | .relation columns outerRefs tuples, r, s, h => by
    rw [CRelExpr.outerRefs] at h
    rw [CRelExpr.rows,CRelExpr.rows,Row.tuple_congr h]
  | .select child predicate, r, s, h => by
    rw [CRelExpr.outerRefs] at h
    have hp (y : Row ℕ (CDatum β)) := predicate.eval_congr (scope (h.mono subset_union_right) y)
    simp only [CRelExpr.rows,child.rows_congr (h.mono subset_union_left),hp]
  | .project child columns values, r, s, h => by
    rw [CRelExpr.outerRefs] at h
    have hvs (y : Row ℕ (CDatum β)) := evalAll_congr values (scope (h.mono subset_union_right) y)
    simp only [CRelExpr.rows,child.rows_congr (h.mono subset_union_left),hvs]
  | .gbAgg child columns aggregates, r, s, h => by
    rw [CRelExpr.outerRefs] at h
    have hsc (y : Row ℕ (CDatum β)) :=
      scope (h.mono subset_union_right) y
    have hcols (y : Row ℕ (CDatum β)) := (hsc y).mono subset_union_left
    have hagg (a : ℕ × CScalarAggFunc β) (ha : a ∈ aggregates) (y : Row ℕ (CDatum β)) :=
      (hsc y).mono ((usedColumns_subset_foldr ha).trans subset_union_right)
    simp only [CRelExpr.rows,child.rows_congr (h.mono subset_union_left)]
    rw [groupKeys_congr fun y _ => hcols y]
    exact Multiset.map_congr rfl fun key _ => congrArg _
      (aggregateRow_congr (fun y _ => hcols y) (fun a ha y _ => hagg a ha y) key)
  | .limitOne child limit, r, s, h | .maxOneRow child, r, s, h => by
    rw [CRelExpr.outerRefs] at h
    rw [CRelExpr.rows,CRelExpr.rows,child.rows_congr h]
  | .apply applyType outer inner predicate, r, s, h => by
    rw [CRelExpr.outerRefs] at h
    have hsd := h.mono subset_union_left
    have hinn (x : Row ℕ (CDatum β)) := CRelExpr.rows_congr inner
      (scope (hsd.mono subset_union_right) x)
    have hp (y : Row ℕ (CDatum β)) := predicate.eval_congr (scope (h.mono subset_union_right) y)
    simp only [CRelExpr.rows,outer.rows_congr (hsd.mono subset_union_left),hinn,hp]
  | .other columns outerRefs compute children, r, s, h => by
    rw [CRelExpr.outerRefs] at h
    rw [CRelExpr.rows,CRelExpr.rows,Row.tuple_congr (h.mono subset_union_left),
      rowsAll_congr children (h.mono subset_union_right)]

theorem rowsAll_congr : (ts : List (CRelExpr β)) → {r s : Row ℕ (CDatum β)} →
    Row.AgreeOn (outerRefsAll ts) r s → rowsAll ts r = rowsAll ts s
  | [], r, s, _ => by rw [rowsAll,rowsAll]
  | t :: ts, r, s, h => by
    rw [outerRefsAll] at h
    rw [rowsAll,rowsAll,t.rows_congr (h.mono subset_union_left),
      rowsAll_congr ts (h.mono subset_union_right)]

end

end

end PgOrca.Unnesting
