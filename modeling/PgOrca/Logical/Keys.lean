import PgOrca.Library.Keys
import PgOrca.Logical.MaxCard

/-!
# Derived keys

Every operator derives its key collection from those of its inputs; an
expression that derives none but at most one row takes all its output columns.
The empty list stands for a missing collection.
-/

namespace PgOrca

variable {C ν : Type*}

namespace CLogical

/-- `PkcCombineKeys` for the two inputs of a join or apply: the first key of either. -/
def pkcCombineKeys : List (Finset ℕ) → List (Finset ℕ) → List (Finset ℕ)
  | left :: _, right :: _ => [left ∪ right]
  | _, _ => []

/-- `PkcKeysBaseTable`: a key is given by positions in the output columns. -/
def pkcKeysBaseTable (keys : List (Finset ℕ)) (output : List ℕ) : List (Finset ℕ) :=
  keys.map fun key => key.image fun i => output.getD i 0

/-- `DeriveKeyCollection` of a global aggregate. -/
def gbAggKeys (columns : List ℕ) (aggregates : List (CScalarAggregate ν)) : List (Finset ℕ) :=
  if columns.isEmpty then
    if aggregates.isEmpty then [] else [(aggregates.map CScalarAggregate.column).toFinset]
  else [columns.toFinset]

def joinKeys (left right : List (Finset ℕ)) : JoinType → List (Finset ℕ)
  | .leftSemi => left
  | .leftAntiSemi => left
  | .leftAntiSemiNotIn => left
  | .inner => pkcCombineKeys left right
  | .leftOuter => pkcCombineKeys left right
  | .rightOuter => pkcCombineKeys left right
  | .fullOuter => pkcCombineKeys left right

def applyKeys (outer inner : List (Finset ℕ)) : EApplyType → List (Finset ℕ)
  | .inner => pkcCombineKeys outer inner
  | .leftOuter => pkcCombineKeys outer inner
  | .leftSemi => outer
  | .leftAntiSemi => outer
  | .leftAntiSemiNotIn => outer

/-- All output columns of a set operation that removes duplicates. -/
def setOpKeys (output : List ℕ) : ESetOp → List (Finset ℕ)
  | .union => [output.toFinset]
  | .intersect => [output.toFinset]
  | .difference => [output.toFinset]
  | .unionAll => []
  | .intersectAll => []
  | .differenceAll => []

/-- `CDrvdPropRelational::DeriveKeyCollection`, given the keys of the operator. -/
def orOutputColumns (maxCard : CMaxCard) (output : Finset ℕ) (keys : List (Finset ℕ)) :
    List (Finset ℕ) :=
  if keys.isEmpty && maxCard.ull == 1 && !decide (output = ∅) then [output] else keys

section

variable [ScalarLeaf C] [ScalarMeaning C ν] (fContradiction : CLogical C ν → Bool)

def deriveKeyCollection : CLogical C ν → List (Finset ℕ)
  | get table output keys => derived (get table output keys) (pkcKeysBaseTable keys output)
  | constTableGet output tuples => derived (constTableGet output tuples) []
  | tvf output function => derived (tvf output function) []
  | select child predicate => derived (select child predicate) child.deriveKeyCollection
  | project child elements => derived (project child elements) child.deriveKeyCollection
  | gbAgg child columns aggregates =>
    derived (gbAgg child columns aggregates) (gbAggKeys columns aggregates)
  | sequenceProject child partition functions =>
    derived (sequenceProject child partition functions) child.deriveKeyCollection
  | limit child l => derived (limit child l) child.deriveKeyCollection
  | maxOneRow child => derived (maxOneRow child) child.deriveKeyCollection
  | join joinType left right predicate =>
    derived (join joinType left right predicate)
      (joinKeys left.deriveKeyCollection right.deriveKeyCollection joinType)
  | apply applyType outer inner predicate =>
    derived (apply applyType outer inner predicate)
      (applyKeys outer.deriveKeyCollection inner.deriveKeyCollection applyType)
  | setOp op output inputs children =>
    derived (setOp op output inputs children) (setOpKeys output op)
  | cteProducer columns child => derived (cteProducer columns child) child.deriveKeyCollection
  | cteConsumer columns producer =>
    derived (cteConsumer columns producer) producer.deriveKeyCollection
where
  derived (t : CLogical C ν) (keys : List (Finset ℕ)) : List (Finset ℕ) :=
    orOutputColumns (t.deriveMaxCard fContradiction) t.outputColumns keys

/-- `DeriveKeyCollection` of the operator itself. -/
def operatorKeys : CLogical C ν → List (Finset ℕ)
  | get _ output keys => pkcKeysBaseTable keys output
  | constTableGet _ _ => []
  | tvf _ _ => []
  | select child _ => child.deriveKeyCollection fContradiction
  | project child _ => child.deriveKeyCollection fContradiction
  | gbAgg _ columns aggregates => gbAggKeys columns aggregates
  | sequenceProject child _ _ => child.deriveKeyCollection fContradiction
  | limit child _ => child.deriveKeyCollection fContradiction
  | maxOneRow child => child.deriveKeyCollection fContradiction
  | join joinType left right _ => joinKeys (left.deriveKeyCollection fContradiction)
      (right.deriveKeyCollection fContradiction) joinType
  | apply applyType outer inner _ => applyKeys (outer.deriveKeyCollection fContradiction)
      (inner.deriveKeyCollection fContradiction) applyType
  | setOp op output _ _ => setOpKeys output op
  | cteProducer _ child => child.deriveKeyCollection fContradiction
  | cteConsumer _ producer => producer.deriveKeyCollection fContradiction

theorem deriveKeyCollection_eq (t : CLogical C ν) :
    t.deriveKeyCollection fContradiction = orOutputColumns (t.deriveMaxCard fContradiction)
      t.outputColumns (t.operatorKeys fContradiction) := by
  cases t <;> rfl

end

end CLogical

end PgOrca
