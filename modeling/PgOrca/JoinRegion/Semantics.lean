import PgOrca.JoinRegion.Conservation
import PgOrca.Library.Kleene
import PgOrca.Library.Reordering

/-!
# What a join tree and a plan compute

A join keeps the pairs of rows on which its predicate is TRUE; the NOT IN anti join drops a left row
as soon as the predicate is not FALSE for some right row.
-/

namespace PgOrca

variable {P ν : Type*}

/-- The value of a predicate on a row. -/
structure PredicateMeaning (P ν : Type*) [ScalarPredicate P] where
  eval : P → Row ℕ ν → Option Bool
  eval_congr : ∀ p r s, (∀ c ∈ ScalarPredicate.usedColumns p, r c = s c) → eval p r = eval p s

structure Database (ν : Type*) (atoms : List CAtom) where
  rows : ℕ → Multiset (Row ℕ ν)
  within : ∀ node, Over (rows node) (CJoinRegionSpec.outputColumns atoms node)

namespace JoinType

/-- Whether a pair of rows counts as a match, given the value of the predicate. -/
def isMatch (joinType : JoinType) (value : Option Bool) : Bool :=
  if joinType = .leftAntiSemiNotIn then value ≠ some false else value = some true

def rows (joinType : JoinType) (m : Row ℕ ν → Bool) (X Y : Multiset (Row ℕ ν)) :
    Multiset (Row ℕ ν) :=
  match joinType with
  | .inner => leftJoin .inner m X Y
  | .leftOuter => leftJoin .outer m X Y
  | .leftSemi => leftJoin .semi m X Y
  | .leftAntiSemi => leftJoin .anti m X Y
  | .leftAntiSemiNotIn => leftJoin .anti m X Y
  | .fullOuter => fullJoin m X Y
  | .rightOuter => leftJoin .outer m Y X

def kind : JoinType → JoinKind
  | .inner => .left .inner
  | .leftOuter => .left .outer
  | .leftSemi => .left .semi
  | .leftAntiSemi => .left .anti
  | .leftAntiSemiNotIn => .left .anti
  | .fullOuter => .full
  | .rightOuter => .full

end JoinType

namespace PredicateMeaning

variable [ScalarPredicate P]

variable (meaning : PredicateMeaning P ν)

/-- Where the predicate is reported to reject NULLs, it is not TRUE on them. -/
def NullRejectingSound (p : P) : Prop :=
  ∀ columns, ScalarPredicate.fNullRejecting p columns = true →
    ∀ r, (∀ c ∈ columns, r c = none) → meaning.eval p r ≠ some true

def evalConjunction (predicates : List P) (r : Row ℕ ν) : Option Bool :=
  Kleene.all (predicates.map fun p => meaning.eval p r)

theorem evalConjunction_singleton (p : P) (r : Row ℕ ν) :
    meaning.evalConjunction [p] r = meaning.eval p r := by
  rw [evalConjunction,List.map_singleton,Kleene.all_cons]
  rcases meaning.eval p r with _ | _ | _ <;> rfl

/-- The match condition of a join below rows that carry the outer references `outer`. -/
def condition (outer : Row ℕ ν) (joinType : JoinType) (predicates : List P) (r : Row ℕ ν) : Bool :=
  joinType.isMatch (meaning.evalConjunction predicates (r.merge outer))

end PredicateMeaning

namespace CExpression

def columns : CExpression P → Finset ℕ
  | .atom input => input.outputColumns
  | .join _ l r _ _ => l.columns ∪ r.columns

variable [ScalarPredicate P]

/-- The rows of the expression whose first input is number `node`. -/
def rows (meaning : PredicateMeaning P ν) (outer : Row ℕ ν) (db : ℕ → Multiset (Row ℕ ν)) :
    CExpression P → ℕ → Multiset (Row ℕ ν)
  | .atom _, node => db node
  | .join joinType l r predicate _, node =>
    joinType.rows (meaning.condition outer joinType [predicate]) (l.rows meaning outer db node)
      (r.rows meaning outer db (node + l.atoms.length))

/-- Inputs have disjoint columns, and of the columns of the inputs a predicate uses only
those of the inputs below its join. -/
structure WellScoped (root : CExpression P) : Prop where
  disjoint : root.atoms.Pairwise fun a b => Disjoint a.outputColumns b.outputColumns
  reads : ∀ joinType l r predicate, root.IsJoin joinType l r predicate →
    ScalarPredicate.usedColumns predicate ∩ root.columns ⊆ l.columns ∪ r.columns

end CExpression

namespace JoinPlan

variable [ScalarPredicate P]

/-- The rows of the join that a request describes. -/
def requestRows (region : CDPHyperJoinRegion P) (meaning : PredicateMeaning P ν) (outer : Row ℕ ν)
    (request : SJoinRequest P) (X Y : Multiset (Row ℕ ν)) : Multiset (Row ℕ ν) :=
  let m := meaning.condition outer request.joinType (region.pexprPredicate request)
  if request.swapped then request.joinType.rows m Y X else request.joinType.rows m X Y

def rows (region : CDPHyperJoinRegion P) (meaning : PredicateMeaning P ν) (outer : Row ℕ ν)
    (db : ℕ → Multiset (Row ℕ ν)) : JoinPlan → Multiset (Row ℕ ν)
  | atom node => db node
  | join l r =>
    match region.fBuildJoinRequest l.nodes r.nodes with
    -- no accepted plan contains such a join
    | none => 0
    | some request =>
      requestRows region meaning outer request (l.rows region meaning outer db)
        (r.rows region meaning outer db)

end JoinPlan

end PgOrca
