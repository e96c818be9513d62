import PgOrca.JoinRegion.Semantics
import PgOrca.Library.Grouping
import PgOrca.Library.Kleene
import PgOrca.Logical.Tree

/-!
# What a logical expression computes

Grouping, partitioning and the set operations treat NULL as equal to NULL. An execution that raises
the error of a `MaxOneRow` has no result, for which the empty bag stands.
-/

namespace PgOrca

open Multiset

variable {C ν : Type*}

abbrev Tables (ν : Type*) := ℕ → Multiset (List (Option ν))

namespace CScalar

variable [ScalarLeaf C] [ScalarMeaning C ν]

mutual

def eval : CScalar C → Row ℕ ν → Option Bool
  | constBool value, _ => some value
  | other c, r => ScalarMeaning.eval c r
  | boolAnd children, r => Kleene.all (evalAll children r)

def evalAll : List (CScalar C) → Row ℕ ν → List (Option Bool)
  | [], _ => []
  | e :: es, r => e.eval r :: evalAll es r

end

def fScalarConstFalse : CScalar C → Bool
  | constBool value => !value
  | _ => false

variable (ν) in
def fScalarConstBoolNull : CScalar C → Bool
  | other c => ScalarMeaning.fScalarConstBoolNull ν c
  | _ => false

mutual

theorem eval_congr : (e : CScalar C) → {r s : Row ℕ ν} → Row.AgreeOn e.usedColumns r s →
    e.eval r = e.eval s
  | .constBool _, _, _, _ => rfl
  | .other c, r, s, h => ScalarMeaning.eval_congr c r s h
  | .boolAnd children, r, s, h => by rw [eval,eval,evalAll_congr children h]

theorem evalAll_congr : (es : List (CScalar C)) → {r s : Row ℕ ν} →
    Row.AgreeOn (usedColumnsAll es) r s → evalAll es r = evalAll es s
  | [], _, _, _ => rfl
  | e :: es, r, s, h => by
    rw [evalAll,evalAll,e.eval_congr (h.mono Finset.subset_union_left),
      evalAll_congr es (h.mono Finset.subset_union_right)]

end

theorem eval_of_constFalse {e : CScalar C} (h : e.fScalarConstFalse = true) (r : Row ℕ ν) :
    e.eval r = some false := by
  match e, h with
  | constBool false, _ => rfl

theorem eval_of_constNull {e : CScalar C} (h : e.fScalarConstBoolNull ν = true) (r : Row ℕ ν) :
    e.eval r = none := by
  match e, h with
  | other c, h => exact ScalarMeaning.eval_of_constNull c h r

end CScalar

structure CScalarTest (ν : Type*) where
  usedColumns : Finset ℕ
  value : Row ℕ ν → Option Bool
  value_congr : ∀ r s, Row.AgreeOn usedColumns r s → value r = value s

/-- `c = d`, NULL when one of the columns is. -/
def CScalarTest.equal [DecidableEq ν] (c d : ℕ) : CScalarTest ν where
  usedColumns := {c, d}
  value r := (r c).bind fun v => (r d).map fun w => v = w
  value_congr r s h := by
    rw [h c (Finset.mem_insert_self _ _),
      h d (Finset.mem_insert_of_mem (Finset.mem_singleton_self _))]

instance : ScalarLeaf (CScalarTest ν) where
  usedColumns := CScalarTest.usedColumns
  fNullRejecting _ _ := false

instance : ScalarMeaning (CScalarTest ν) ν where
  eval := CScalarTest.value
  eval_congr := CScalarTest.value_congr
  fScalarConstBoolNull _ := false
  eval_of_constNull _ h := nomatch h

namespace CScalarProjectElement

/-- The value of the element in the `i`-th row that a row is expanded into; a set-returning
element that has run out of values gives NULL. -/
def valueAt (e : CScalarProjectElement ν) (r : Row ℕ ν) (i : ℕ) : Option ν :=
  if e.setReturning then ((e.values r)[i]?).join else ((e.values r)[0]?).join

end CScalarProjectElement

variable (elements : List (CScalarProjectElement ν))

def hasNonScalarFunction : Bool :=
  elements.any CScalarProjectElement.setReturning

/-- Into how many rows a project list expands a row: set-returning elements run in lockstep. -/
def expansionCount (r : Row ℕ ν) : ℕ :=
  if hasNonScalarFunction elements then
    ((elements.filter CScalarProjectElement.setReturning).map
      fun e => (e.values r).length).foldr max 0
  else 1

namespace Row

def assign (columns : List ℕ) (values : List (Option ν)) (r : Row ℕ ν) : Row ℕ ν :=
  fun c => if c ∈ columns then ofTuple columns values c else r c

theorem assign_singleton (c : ℕ) (v : Option ν) (r : Row ℕ ν) (d : ℕ) :
    r.assign [c] [v] d = if d = c then v else r d := by
  by_cases h : d = c
  · simp [assign,h,ofTuple]
  · simp [assign,h]

end Row

/-- The rows a project list makes of a row; its elements read `below`. -/
def expand (below r : Row ℕ ν) : Multiset (Row ℕ ν) :=
  (Multiset.range (expansionCount elements below)).map fun i =>
    r.assign (elements.map CScalarProjectElement.column) (elements.map fun e => e.valueAt below i)

/-- The rows of one partition, each with the values of the window functions. -/
def windowRows (functions : CWindowFunctions ν) (outer : Row ℕ ν) (X : Multiset (Row ℕ ν)) :
    Multiset (Row ℕ ν) :=
  (functions.assign outer X).map fun p => p.1.assign functions.columns p.2

section

variable [DecidableEq ν]

def groupKeys (columns : List ℕ) (X : Multiset (Row ℕ ν)) : Multiset (List (Option ν)) :=
  if columns.isEmpty then {[]} else keysOf (Row.tuple columns) X

/-- The row of a group: its grouping columns and the aggregates over its rows. -/
def groupRow (columns : List ℕ) (aggregates : List (CScalarAggregate ν)) (below : Row ℕ ν → Row ℕ ν)
    (X : Multiset (Row ℕ ν)) (key : List (Option ν)) : Row ℕ ν :=
  (Row.ofTuple columns key).assign (aggregates.map CScalarAggregate.column)
    (aggregates.map fun a => a.value ((withKey (Row.tuple columns) X key).map below))

end

namespace ESetOp

variable [DecidableEq ν] {values : List (Option ν)}

def tuples : ESetOp → List (Multiset (List (Option ν))) → Multiset (List (Option ν))
  | _, [] => 0
  | union, X :: Xs => (X + Xs.sum).dedup
  | unionAll, X :: Xs => X + Xs.sum
  | intersect, X :: Xs => (Xs.foldl (· ∩ ·) X).dedup
  | intersectAll, X :: Xs => Xs.foldl (· ∩ ·) X
  | difference, X :: Xs => X.dedup.filter fun t => t ∉ Xs.sum
  | differenceAll, X :: Xs => X - Xs.sum

variable (X : Multiset (List (Option ν))) (Xs : List (Multiset (List (Option ν))))

theorem foldl_inter_le : Xs.foldl (· ∩ ·) X ≤ X := by
  induction Xs generalizing X with
  | nil => exact le_rfl
  | cons Y Ys ih => exact (ih (X ∩ Y)).trans inter_le_left

theorem tuples_union_le (op : ESetOp) (hop : op = .union ∨ op = .unionAll) :
    (op.tuples (X :: Xs)).card ≤ X.card + (Xs.map card).sum := by
  have hsum : (X + Xs.sum).card = X.card + (Xs.map card).sum := by
    rw [card_add]
    congr 1
    exact map_list_sum cardHom Xs
  rcases hop with rfl | rfl
  · exact (card_le_card (dedup_le _)).trans hsum.le
  · exact hsum.le

theorem tuples_le_head (op : ESetOp) (hop : op ≠ .union ∧ op ≠ .unionAll) :
    op.tuples (X :: Xs) ≤ X := by
  cases op with
  | union => exact absurd rfl hop.1
  | unionAll => exact absurd rfl hop.2
  | intersect => exact (dedup_le _).trans (foldl_inter_le X Xs)
  | intersectAll => exact foldl_inter_le X Xs
  | difference => exact (filter_le _ _).trans (dedup_le _)
  | differenceAll => exact tsub_le_self

theorem tuples_intersect_le_second (Y : Multiset (List (Option ν))) (op : ESetOp)
    (hop : op = .intersect ∨ op = .intersectAll) : op.tuples (X :: Y :: Xs) ≤ Y := by
  have h : (Y :: Xs).foldl (· ∩ ·) X ≤ Y :=
    (foldl_inter_le (X ∩ Y) Xs).trans inter_le_right
  rcases hop with rfl | rfl
  · exact (dedup_le _).trans h
  · exact h

omit [DecidableEq ν] in
theorem mem_sum {Xs : List (Multiset (List (Option ν)))} :
    values ∈ Xs.sum ↔ ∃ X ∈ Xs, values ∈ X := by
  induction Xs with
  | nil => simp
  | cons X Xs ih => simp [ih]

end ESetOp

namespace EApplyType

def kind : EApplyType → LeftKind
  | inner => .inner
  | leftOuter => .outer
  | leftSemi => .semi
  | leftAntiSemi => .anti
  | leftAntiSemiNotIn => .anti

/-- Whether an inner row counts as a match, given the value of the predicate. -/
def isMatch (applyType : EApplyType) (value : Option Bool) : Bool :=
  if applyType = .leftAntiSemiNotIn then value ≠ some false else value = some true

end EApplyType

namespace CScalar

variable [ScalarLeaf C] [ScalarMeaning C ν]

/-- Which combined rows of its inputs, with the given columns, a join takes for a match. -/
def joinMatch (predicate : CScalar C) (joinType : JoinType) (columns : Finset ℕ)
    (env r : Row ℕ ν) : Bool :=
  joinType.isMatch (predicate.eval (r.scope columns env))

def applyMatch (predicate : CScalar C) (applyType : EApplyType) (columns : Finset ℕ)
    (env r : Row ℕ ν) : Bool :=
  applyType.isMatch (predicate.eval (r.scope columns env))

end CScalar

namespace CLogical

variable [ScalarLeaf C] [ScalarMeaning C ν] [DecidableEq ν]

mutual

def rows (tables : Tables ν) : CLogical C ν → Row ℕ ν → Multiset (Row ℕ ν)
  | get table output _, _ => (tables table).map (Row.ofTuple output)
  | constTableGet output tuples, _ =>
    (tuples : Multiset (List (Option ν))).map (Row.ofTuple output)
  | tvf output function, env => (function.tuples env).map (Row.ofTuple output)
  | select child predicate, env =>
    (child.rows tables env).filter fun r =>
      predicate.eval (r.scope child.outputColumns env) = some true
  | project child elements, env =>
    (child.rows tables env).bind fun r => expand elements (r.scope child.outputColumns env) r
  | gbAgg child columns aggregates, env =>
    let X := child.rows tables env
    (groupKeys columns X).map fun key =>
      (groupRow columns aggregates (fun r => r.scope child.outputColumns env) X key).restrict
        (columns.toFinset ∩ child.outputColumns ∪
          (aggregates.map CScalarAggregate.column).toFinset)
  | sequenceProject child partition functions, env =>
    let X := child.rows tables env
    (keysOf (Row.tuple partition) X).bind fun key =>
      windowRows functions env (withKey (Row.tuple partition) X key)
  | limit child l, env => l.keep env (child.rows tables env)
  | maxOneRow child, env =>
    let X := child.rows tables env
    if X.card ≤ 1 then X else 0
  | join joinType left right predicate, env =>
    joinType.rows
      (predicate.joinMatch joinType (left.outputColumns ∪ right.outputColumns) env)
      (left.rows tables env) (right.rows tables env)
  | apply applyType outer inner predicate, env =>
    (outer.rows tables env).bind fun x =>
      (applyType.kind.extensions (partners
        (predicate.applyMatch applyType (outer.outputColumns ∪ inner.outputColumns) env)
        x (inner.rows tables (x.scope outer.outputColumns env)))).map x.merge
  | setOp op output inputs children, env =>
    (op.tuples (childTuples tables inputs children env)).map (Row.ofTuple output)
  | cteProducer columns child, env =>
    (child.rows tables env).map (Row.restrict columns.toFinset)
  | cteConsumer columns producer, env =>
    (producer.rows tables env).map fun r => Row.ofTuple columns (r.tuple producer.pdrgpcr)

/-- The tuples of each input of a set operation, read at its input columns. -/
def childTuples (tables : Tables ν) : List (List ℕ) → List (CLogical C ν) → Row ℕ ν →
    List (Multiset (List (Option ν)))
  | _, [], _ => []
  | [], _ :: _, _ => []
  | input :: inputs, child :: children, env =>
    (child.rows tables env).map (Row.tuple input) :: childTuples tables inputs children env

end

omit [DecidableEq ν] in
theorem assign_supportedOn {columns : List ℕ} (values : List (Option ν)) {r : Row ℕ ν}
    {D : Finset ℕ} (h : r.SupportedOn D) :
    (r.assign columns values).SupportedOn ((D ∪ columns.toFinset : Finset ℕ) : Set ℕ) := by
  intro c hc
  rw [Finset.mem_coe,Finset.mem_union,List.mem_toFinset,not_or] at hc
  rw [Row.assign,if_neg hc.2]
  exact h c hc.1

omit [DecidableEq ν] in
theorem over_map_ofTuple (output : List ℕ) (X : Multiset (List (Option ν))) :
    Over (X.map (Row.ofTuple output)) (output.toFinset : Finset ℕ) := by
  intro r hr
  obtain ⟨values,_,rfl⟩ := mem_map.mp hr
  exact Row.ofTuple_supportedOn output values

omit [DecidableEq ν] in
theorem over_joinRows {m : Row ℕ ν → Bool} {X Y : Multiset (Row ℕ ν)} {L R : Finset ℕ}
    (joinType : JoinType) (hX : Over X L) (hY : Over Y R) :
    Over (joinType.rows m X Y) (joinType.outputColumns L R) := by
  cases joinType with
  | leftSemi => exact hX.leftJoin_semi
  | leftAntiSemi | leftAntiSemiNotIn => exact hX.leftJoin_anti
  | inner | leftOuter =>
    rw [JoinType.outputColumns,Finset.coe_union]
    exact hX.leftJoin hY
  | fullOuter =>
    rw [JoinType.outputColumns,Finset.coe_union]
    exact hX.fullJoin hY
  | rightOuter =>
    rw [JoinType.outputColumns,Finset.coe_union,Set.union_comm]
    exact hY.leftJoin hX

omit [DecidableEq ν] in
theorem supportedOn_of_mem_extensions {k : LeftKind} {x w : Row ℕ ν} {P : Multiset (Row ℕ ν)}
    {L R C : Finset ℕ} (hC : C = if k = .inner ∨ k = .outer then L ∪ R else L)
    (hx : x.SupportedOn L) (hP : Over P R) (hw : w ∈ k.extensions P) :
    (x.merge w).SupportedOn C := by
  subst hC
  split_ifs with hk
  · rw [Finset.coe_union]
    exact hx.merge (hP.extensions _ w hw)
  · have hk' : k = .semi ∨ k = .anti := by cases k <;> simp at hk ⊢
    rw [LeftKind.eq_null_of_mem_extensions hk' hw,Row.merge_null]
    exact hx

theorem over_rows (tables : Tables ν) (t : CLogical C ν) :
    ∀ env, Over (t.rows tables env) t.outputColumns := by
  induction t using induction_children with
  | step t ih =>
    intro env
    cases t with
    | get table output keys => exact over_map_ofTuple output _
    | constTableGet output tuples => exact over_map_ofTuple output _
    | tvf output function => exact over_map_ofTuple output _
    | select child predicate =>
      exact (ih child (.head _) env).of_le (filter_le _ _)
    | project child elements =>
      intro r hr
      obtain ⟨s,hs,hexp⟩ := mem_bind.mp hr
      obtain ⟨i,_,rfl⟩ := mem_map.mp hexp
      exact assign_supportedOn _ (ih child (.head _) env s hs)
    | gbAgg child columns aggregates =>
      intro r hr
      obtain ⟨key,_,rfl⟩ := mem_map.mp hr
      exact Row.restrict_supportedOn _ _
    | sequenceProject child partition functions =>
      intro r hr
      obtain ⟨key,_,hwin⟩ := mem_bind.mp hr
      obtain ⟨p,hp,rfl⟩ := mem_map.mp hwin
      have hmem : p.1 ∈ withKey (Row.tuple partition) (child.rows tables env) key := by
        rw [← functions.assign_rows env (withKey _ (child.rows tables env) key)]
        exact mem_map_of_mem Prod.fst hp
      exact assign_supportedOn _ (ih child (.head _) env p.1 (mem_withKey.mp hmem).1)
    | limit child l => exact (ih child (.head _) env).of_le (l.keep_le _ _)
    | maxOneRow child =>
      have hch := ih child (.head _) env
      simp only [rows]
      split
      · exact hch
      · exact fun r hr => absurd hr (notMem_zero r)
    | join joinType left right predicate =>
      exact over_joinRows joinType (ih left (.head _) env) (ih right (.tail _ (.head _)) env)
    | apply applyType outer inner predicate =>
      intro r hr
      obtain ⟨x,hx,hmap⟩ := mem_bind.mp hr
      obtain ⟨w,hw,rfl⟩ := mem_map.mp hmap
      exact supportedOn_of_mem_extensions (by cases applyType <;> rfl) (ih outer (.head _) env x hx)
        ((ih inner (.tail _ (.head _)) _).of_le (partners_le _ _ _)) hw
    | setOp op output inputs children => exact over_map_ofTuple output _
    | cteProducer columns child =>
      intro r hr
      obtain ⟨s,_,rfl⟩ := mem_map.mp hr
      exact Row.restrict_supportedOn _ s
    | cteConsumer columns producer =>
      intro r hr
      obtain ⟨s,_,rfl⟩ := mem_map.mp hr
      exact Row.ofTuple_supportedOn columns _

theorem rows_gbAgg {child : CLogical C ν} {columns : List ℕ}
    (hsub : columns.toFinset ⊆ child.outputColumns) (aggregates : List (CScalarAggregate ν))
    (tables : Tables ν) (env : Row ℕ ν) :
    (gbAgg child columns aggregates).rows tables env =
      (groupKeys columns (child.rows tables env)).map (groupRow columns aggregates
        (fun r => r.scope child.outputColumns env) (child.rows tables env)) := by
  rw [rows,Finset.inter_eq_left.mpr hsub]
  refine map_congr rfl fun key _ => Row.restrict_of_supportedOn ?_
  exact assign_supportedOn _ (Row.ofTuple_supportedOn columns key)

end CLogical

end PgOrca
