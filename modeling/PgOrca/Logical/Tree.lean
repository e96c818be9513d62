import PgOrca.JoinRegion.Conjuncts
import PgOrca.Library.Tuples

/-!
# Logical expressions

Project elements, aggregates, window functions, limits and table functions are kept as what they
compute. A consumer of a common table expression carries the producer it reads.
-/

namespace PgOrca

/-- What the leaves of a predicate evaluate to. -/
class ScalarMeaning (C ν : Type*) [ScalarLeaf C] where
  eval : C → Row ℕ ν → Option Bool
  eval_congr : ∀ c r s, Row.AgreeOn (ScalarLeaf.usedColumns c) r s → eval c r = eval c s
  fScalarConstBoolNull : C → Bool
  eval_of_constNull : ∀ c, fScalarConstBoolNull c = true → ∀ r, eval c r = none

/-- An element of a project list; a set-returning one has any number of values. -/
structure CScalarProjectElement (ν : Type*) where
  column : ℕ
  usedColumns : Finset ℕ
  setReturning : Bool
  values : Row ℕ ν → List (Option ν)
  values_congr : ∀ r s, Row.AgreeOn usedColumns r s → values r = values s
  values_single : setReturning = false → ∀ r, (values r).length = 1

/-- An aggregate as a function of the rows of its group. -/
structure CScalarAggregate (ν : Type*) where
  column : ℕ
  usedColumns : Finset ℕ
  value : Multiset (Row ℕ ν) → Option ν
  value_congr : ∀ X Y, X.map (Row.restrict usedColumns) = Y.map (Row.restrict usedColumns) →
    value X = value Y

/-- The window functions of a sequence project: the values they give to the rows
of one partition, below an outer row. -/
structure CWindowFunctions (ν : Type*) where
  columns : List ℕ
  usedColumns : Finset ℕ
  assign : Row ℕ ν → Multiset (Row ℕ ν) → Multiset (Row ℕ ν × List (Option ν))
  assign_rows : ∀ outer X, (assign outer X).map Prod.fst = X

/-- The row count of a limit: a constant `int8`, which may be NULL, or a computed count. -/
inductive CRowCount (ν : Type*) where
  | constInt8 (value : Option Int64)
  | computed (count : Row ℕ ν → Option ℕ)

/-- How many rows the limit lets through; a NULL count means all. -/
def CRowCount.limit {ν : Type*} : CRowCount ν → Row ℕ ν → Option ℕ
  | constInt8 value, _ => value.map fun v => v.toInt.toNat
  | computed count, outer => count outer

/-- Which rows a limit keeps is left to the execution, how many it keeps is not. -/
structure CLimit (ν : Type*) where
  rowCount : CRowCount ν
  offset : Row ℕ ν → ℕ
  keep : Row ℕ ν → Multiset (Row ℕ ν) → Multiset (Row ℕ ν)
  keep_le : ∀ outer X, keep outer X ≤ X
  card_keep : ∀ outer X, (keep outer X).card =
    ((rowCount.limit outer).elim (X.card - offset outer) fun n => min n (X.card - offset outer))

structure CTableFunction (ν : Type*) where
  returnsSet : Bool
  usedColumns : Finset ℕ
  tuples : Row ℕ ν → Multiset (List (Option ν))
  tuples_single : returnsSet = false → ∀ outer, (tuples outer).card ≤ 1

inductive EApplyType where
  | inner
  | leftOuter
  | leftSemi
  | leftAntiSemi
  | leftAntiSemiNotIn
  deriving DecidableEq, Repr

inductive ESetOp where
  | union
  | unionAll
  | intersect
  | intersectAll
  | difference
  | differenceAll
  deriving DecidableEq, Repr

/-- A semi or anti join passes on its left columns, any other join combines both. -/
def JoinType.outputColumns : JoinType → Finset ℕ → Finset ℕ → Finset ℕ
  | leftSemi, left, _ => left
  | leftAntiSemi, left, _ => left
  | leftAntiSemiNotIn, left, _ => left
  | inner, left, right => left ∪ right
  | leftOuter, left, right => left ∪ right
  | rightOuter, left, right => left ∪ right
  | fullOuter, left, right => left ∪ right

def EApplyType.outputColumns : EApplyType → Finset ℕ → Finset ℕ → Finset ℕ
  | inner, outer, right => outer ∪ right
  | leftOuter, outer, right => outer ∪ right
  | leftSemi, outer, _ => outer
  | leftAntiSemi, outer, _ => outer
  | leftAntiSemiNotIn, outer, _ => outer

inductive CLogical (C ν : Type*) where
  | get (table : ℕ) (output : List ℕ) (keys : List (Finset ℕ))
  | constTableGet (output : List ℕ) (rows : List (List (Option ν)))
  | tvf (output : List ℕ) (function : CTableFunction ν)
  | select (child : CLogical C ν) (predicate : CScalar C)
  | project (child : CLogical C ν) (elements : List (CScalarProjectElement ν))
  | gbAgg (child : CLogical C ν) (columns : List ℕ) (aggregates : List (CScalarAggregate ν))
  | sequenceProject (child : CLogical C ν) (partition : List ℕ) (functions : CWindowFunctions ν)
  | limit (child : CLogical C ν) (limit : CLimit ν)
  | maxOneRow (child : CLogical C ν)
  | join (joinType : JoinType) (left right : CLogical C ν) (predicate : CScalar C)
  | apply (applyType : EApplyType) (outer inner : CLogical C ν) (predicate : CScalar C)
  | setOp (op : ESetOp) (output : List ℕ) (inputs : List (List ℕ)) (children : List (CLogical C ν))
  | cteProducer (columns : List ℕ) (child : CLogical C ν)
  | cteConsumer (columns : List ℕ) (producer : CLogical C ν)

namespace CLogical

variable {C ν : Type*} {c t s : CLogical C ν}

def pdrgpcr : CLogical C ν → List ℕ
  | cteProducer columns _ => columns
  | _ => []

def outputColumns : CLogical C ν → Finset ℕ
  | get _ output _ => output.toFinset
  | constTableGet output _ => output.toFinset
  | tvf output _ => output.toFinset
  | select child _ => child.outputColumns
  | project child elements =>
    child.outputColumns ∪ (elements.map CScalarProjectElement.column).toFinset
  | gbAgg child columns aggregates =>
    columns.toFinset ∩ child.outputColumns ∪ (aggregates.map CScalarAggregate.column).toFinset
  | sequenceProject child _ functions => child.outputColumns ∪ functions.columns.toFinset
  | limit child _ => child.outputColumns
  | maxOneRow child => child.outputColumns
  | join joinType left right _ => joinType.outputColumns left.outputColumns right.outputColumns
  | apply applyType outer inner _ =>
    applyType.outputColumns outer.outputColumns inner.outputColumns
  | setOp _ output _ _ => output.toFinset
  | cteProducer columns _ => columns.toFinset
  | cteConsumer columns _ => columns.toFinset

/-- The relational expressions directly below; for a consumer the producer it reads. -/
def children : CLogical C ν → List (CLogical C ν)
  | get _ _ _ => []
  | constTableGet _ _ => []
  | tvf _ _ => []
  | select child _ => [child]
  | project child _ => [child]
  | gbAgg child _ _ => [child]
  | sequenceProject child _ _ => [child]
  | limit child _ => [child]
  | maxOneRow child => [child]
  | join _ left right _ => [left, right]
  | apply _ outer inner _ => [outer, inner]
  | setOp _ _ _ children => children
  | cteProducer _ child => [child]
  | cteConsumer _ producer => [producer]

theorem sizeOf_lt_of_mem_children (h : c ∈ t.children) : sizeOf c < sizeOf t := by
  cases t with
  | setOp op output inputs children =>
    have := List.sizeOf_lt_of_mem (show c ∈ children from h)
    simp only [setOp.sizeOf_spec]
    omega
  | _ =>
    simp only [children,List.mem_cons,List.not_mem_nil,or_false] at h
    try rcases h with rfl | rfl
    all_goals simp only [select.sizeOf_spec,project.sizeOf_spec,gbAgg.sizeOf_spec,
      sequenceProject.sizeOf_spec,limit.sizeOf_spec,maxOneRow.sizeOf_spec,join.sizeOf_spec,
      apply.sizeOf_spec,cteProducer.sizeOf_spec,cteConsumer.sizeOf_spec]
    all_goals omega

theorem induction_children {motive : CLogical C ν → Prop}
    (step : ∀ t, (∀ c ∈ t.children, motive c) → motive t) (t : CLogical C ν) : motive t := by
  induction h : sizeOf t using Nat.strong_induction_on generalizing t with
  | h n ih =>
    refine step t fun c hc => ih (sizeOf c) ?_ c rfl
    rw [← h]
    exact sizeOf_lt_of_mem_children hc

inductive Subtree : CLogical C ν → CLogical C ν → Prop
  | refl (t : CLogical C ν) : Subtree t t
  | child {s c t : CLogical C ν} : c ∈ t.children → Subtree s c → Subtree s t

theorem Subtree.trans {u : CLogical C ν} (h : Subtree s t) (h' : Subtree t u) : Subtree s u := by
  induction h' with
  | refl => exact h
  | child hc _ ih => exact child hc ih

theorem subtree_of_mem_children (h : c ∈ t.children) : Subtree c t :=
  .child h (.refl c)

theorem forall_subtree_iff {P : CLogical C ν → Prop} :
    (∀ s, Subtree s t → P s) ↔ P t ∧ ∀ c ∈ t.children, ∀ s, Subtree s c → P s := by
  constructor
  · intro h
    exact ⟨h t (.refl t),fun c hc s hs => h s (.child hc hs)⟩
  · rintro ⟨ht,hc⟩ s hs
    cases hs with
    | refl => exact ht
    | child hmem hs => exact hc _ hmem s hs

/-- The parts of an expression whose property a derivation reads, where `inputs` are those that it
reads at a node. -/
inductive Read (inputs : CLogical C ν → List (CLogical C ν)) : CLogical C ν → CLogical C ν → Prop
  | refl (t : CLogical C ν) : Read inputs t t
  | input {s c t : CLogical C ν} : c ∈ inputs t → Read inputs s c → Read inputs s t

section

variable {inputs : CLogical C ν → List (CLogical C ν)} (hin : ∀ t, inputs t ⊆ t.children)

theorem Read.snoc (h : Read inputs s t) (hc : c ∈ inputs s) : Read inputs c t := by
  induction h with
  | refl => exact input hc (refl c)
  | input hmem _ ih => exact input hmem ih

include hin

theorem Read.subtree (h : Read inputs s t) : Subtree s t := by
  induction h with
  | refl => exact .refl _
  | input hmem _ ih => exact .child (hin _ hmem) ih

/-- If at every part a property is equivalent to a condition, given the property of the inputs read
there, then it holds at all parts exactly when the condition does. -/
theorem forall_read_iff {P Q : CLogical C ν → Prop}
    (step : ∀ s, Read inputs s t → (∀ c ∈ inputs s, P c) → (P s ↔ Q s)) :
    (∀ s, Read inputs s t → P s) ↔ ∀ s, Read inputs s t → Q s := by
  constructor
  · exact fun h s hs => (step s hs fun c hc => h c (hs.snoc hc)).mp (h s hs)
  · intro h s
    induction s using induction_children with
    | step s ih =>
      exact fun hs => (step s hs fun c hc => ih c (hin s hc) (hs.snoc hc)).mpr (h s hs)

end

/-- What every operator expects of its inputs: they bring their own columns, and what it defines
is new. A column that a consumer shares with its producer is the same column. -/
def WellFormedNode : CLogical C ν → Prop
  | get _ output keys => output.Nodup ∧ ∀ key ∈ keys, ∀ i ∈ key, i < output.length
  | constTableGet output _ => output.Nodup
  | tvf output _ => output.Nodup
  | project child elements =>
    (elements.map CScalarProjectElement.column).Nodup ∧
      Disjoint child.outputColumns (elements.map CScalarProjectElement.column).toFinset
  | gbAgg child columns aggregates =>
    columns.toFinset ⊆ child.outputColumns ∧ (aggregates.map CScalarAggregate.column).Nodup ∧
      Disjoint child.outputColumns (aggregates.map CScalarAggregate.column).toFinset
  | sequenceProject child partition functions =>
    partition.toFinset ⊆ child.outputColumns ∧ functions.columns.Nodup ∧
      Disjoint child.outputColumns functions.columns.toFinset
  | join _ left right _ => Disjoint left.outputColumns right.outputColumns
  | apply _ outer inner _ => Disjoint outer.outputColumns inner.outputColumns
  | setOp _ output inputs children =>
    output.Nodup ∧ children ≠ [] ∧ List.Forall₂
      (fun input child => input.length = output.length ∧ input.toFinset ⊆ child.outputColumns)
      inputs children
  | cteProducer columns child => columns.Nodup ∧ columns.toFinset ⊆ child.outputColumns
  | cteConsumer columns producer =>
    columns.Nodup ∧
      List.Forall₂ (fun c d => c ∈ producer.pdrgpcr → c = d) columns producer.pdrgpcr ∧
      producer.outputColumns = producer.pdrgpcr.toFinset
  | _ => True

def WellFormed (t : CLogical C ν) : Prop := ∀ s, Subtree s t → s.WellFormedNode

end CLogical

end PgOrca
