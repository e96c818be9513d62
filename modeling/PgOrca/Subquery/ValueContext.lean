import PgOrca.Subquery.Expression

/-!
# Quantified and existential subqueries as values

A subquery whose value is needed becomes a left outer apply with a grouping that counts the inner
rows and the NULL comparisons. Where only TRUE rows are kept, a NULL operand is tested for instead.
-/

namespace PgOrca.Unnesting

universe u

/-- What the handler reads off the optimizer context: the columns marked as used, the system
columns and those of them the query returns, the derived keys and not-null columns, and the
inverse of a comparison. -/
structure CSubqueryContext (β : Type u) where
  marked : ℕ → Bool
  isSystemCol : ℕ → Bool
  systemCols : Finset ℕ
  groupingKey : CRelExpr β → Option (List ℕ)
  notNullColumns : CRelExpr β → Finset ℕ
  inverse : CScalarCmp β → CScalarCmp β

/-- `GetUsage`: a system column counts as used. -/
def CSubqueryContext.used {β : Type u} (ctx : CSubqueryContext β) (c : ℕ) : Bool :=
  ctx.isSystemCol c || ctx.marked c

/-- What unnesting a subquery returns: the new relational expression, the expression that stands
for the subquery above it, and the next free column. -/
structure CUnnested (β : Type u) where
  newOuter : CRelExpr β
  residual : CValueExpr β
  next : ℕ

def CScalarCmp.ofInt {β : Type u} (fEquality : Bool) (rel : ℤ → ℤ → Bool) : CScalarCmp β where
  value v w := (CDatum.toInt v).bind fun m => (CDatum.toInt w).map fun n => rel m n
  fEquality := fEquality
  fVeryStrict := false
  isSome_value h := nomatch h
  partner_unique h := nomatch h

namespace CValueExpr

variable {β : Type u}

def constBool (value : Bool) : CValueExpr β := .const (some (.bool value))

def constInt (value : ℤ) : CValueExpr β := .const (some (.int value))

variable (e : CValueExpr β)

def isNull : CValueExpr β := .node .nullTest [e]

def isNotNull : CValueExpr β := .node .boolNot [isNull e]

def isNotFalse : CValueExpr β := .node (.booleanTest .isNotFalse) [e]

def quantifiedCmp (op : CScalarCmp β) (operand : CValueExpr β) (column : ℕ) : CValueExpr β :=
  .node (.cmp op) [operand, .ident column]

def nullIndicator : CValueExpr β :=
  .node .scalarIf [isNull e, constInt 1, constInt 0]

mutual

def conjuncts : CValueExpr β → List (CValueExpr β)
  | .node .boolAnd children => conjunctsAll children
  | e => [e]

def conjunctsAll : List (CValueExpr β) → List (CValueExpr β)
  | [] => []
  | e :: es => conjuncts e ++ conjunctsAll es

end

def isEqualityUsingCols (columns : Finset ℕ) : CValueExpr β → Bool
  | .node (.cmp op) [.ident a, .ident b] => op.fEquality && decide (a ∈ columns ∨ b ∈ columns)
  | _ => false

def fSimpleEqualityUsingCols (columns : Finset ℕ) (e : CValueExpr β) : Bool :=
  e.conjuncts.all (isEqualityUsingCols columns)

end CValueExpr

namespace CRelExpr

variable {β : Type u}

def hasOuterRefs (t : CRelExpr β) : Bool := t.outerRefs ≠ ∅

/-- `PexprAddProjection` with one element, whose column is new. -/
def addProjection (child : CRelExpr β) (column : ℕ) (e : CValueExpr β) : CRelExpr β :=
  .project child [column] [e]

def belowProjects : CRelExpr β → CRelExpr β
  | .project child _ _ => child.belowProjects
  | t => t

/-- `PexprExistentialInput`: the values an existential subquery returns are not observed, but some
column has to be there. -/
def existentialInput (inner : CRelExpr β) (next : ℕ) : CRelExpr β × ℕ :=
  let t := inner.belowProjects
  if t.outputColumns = ∅ then (t.addProjection next (.constBool true), next + 1) else (t, next)

end CRelExpr

namespace CSubqueryHandler

variable {β : Type u} (ctx : CSubqueryContext β)

/-- Whether only the inner rows with a TRUE comparison are kept and a NULL operand is tested for
above. -/
def useNotNullableInnerOpt (op : CScalarCmp β) (column : ℕ) (inner : CRelExpr β) : Bool :=
  decide (column ∈ ctx.notNullColumns inner) && op.fVeryStrict

/-- The filter of `PexprInnerSelect`. -/
def innerPredicate (op : CScalarCmp β) (operand : CValueExpr β) (column : ℕ)
    (inner : CRelExpr β) : CValueExpr β :=
  let predicate := CValueExpr.quantifiedCmp op operand column
  if useNotNullableInnerOpt ctx op column inner then predicate else predicate.isNotFalse

def pexprInnerSelect (op : CScalarCmp β) (operand : CValueExpr β) (column : ℕ)
    (inner : CRelExpr β) : CRelExpr β :=
  .select inner (innerPredicate ctx op operand column inner)

def usedOuter (outer : CRelExpr β) : Finset ℕ := outer.outputColumns.filter fun c => ctx.used c

/-- `PdrgpcrGroupingKey`: the used columns that are not system columns and a key. -/
def groupingKeyColumns (outer : CRelExpr β) (key : List ℕ) : List ℕ :=
  (outer.outputColumns.filter (fun c => ctx.used c && !ctx.isSystemCol c) ∪ key.toFinset).sort
    (· ≤ ·)

/-- The grouping columns above the apply; it fails when the outer side has no key or a system
column is to be returned. -/
def outerGrpCols (outer : CRelExpr β) : Option (List ℕ) :=
  match ctx.groupingKey outer with
  | none => none
  | some key =>
    if Disjoint ctx.systemCols (usedOuter ctx outer) then some (groupingKeyColumns ctx outer key)
    else none

def innerGrpCols (outer : CRelExpr β) (predicate : CValueExpr β) : List ℕ :=
  (predicate.usedColumns \ usedOuter ctx outer).sort (· ≤ ·)

/-- The residual expression of `PexprScalarIf`; `value` is FALSE for ALL and NOT EXISTS. -/
def existentialIf (value : Bool) (column : ℕ) : CValueExpr β :=
  .node .scalarIf [.isNotNull (.ident column), .constBool value, .constBool !value]

def quantifiedIf (value : Bool) (count sum : ℕ) : CValueExpr β :=
  .node .scalarIf
    [.node (.cmp (.ofInt false fun m n => n < m)) [.ident count, .constInt 0],
      .node .scalarIf
        [.node (.cmp (.ofInt true fun m n => m = n)) [.ident sum, .ident count], .const none,
          .constBool value],
      .constBool !value]

/-- The value is NULL when the operand is. -/
def operandIf (scalar result : CValueExpr β) : CValueExpr β :=
  .node .scalarIf [.isNull scalar, .const none, result]

/-- `CreateGroupByNode` for an existential subquery: the witness column is grouped on as well. -/
def existentialGroupBy (child : CRelExpr β) (columns : List ℕ) (witness : ℕ) : CRelExpr β :=
  .gbAgg child (columns ++ [witness]) []

/-- `CreateGroupByNode` for a quantified subquery, with the new columns count, NULL indicator and
sum. -/
def quantifiedGroupBy (child : CRelExpr β) (columns : List ℕ) (witness : ℕ)
    (predicate : CValueExpr β) (next : ℕ) : CRelExpr β :=
  .gbAgg (child.addProjection (next + 1) predicate.nullIndicator) columns
    [(next, .count witness), (next + 2, .sum (next + 1))]

variable (outer inner : CRelExpr β)

def outerApply : CRelExpr β :=
  .apply .leftOuter outer inner (.constBool true)

/-- `FCreateOuterApplyForExistOrQuant` for an existential subquery. -/
def fCreateOuterApplyForExist (value : Bool) (next : ℕ) : Option (CUnnested β) :=
  (outerGrpCols ctx outer).map fun columns =>
    { newOuter := existentialGroupBy
        (outerApply outer (inner.addProjection next (.constBool true))) columns next
      residual := existentialIf value next
      next := next + 1 }

/-- Whether the grouping goes to the inner side. -/
def fGbOnInner (op : CScalarCmp β) (operand : CValueExpr β) (column : ℕ) (inner : CRelExpr β)
    (fOuterRefsUnderInner : Bool) : Bool :=
  !fOuterRefsUnderInner && (innerPredicate ctx op operand column inner).fSimpleEqualityUsingCols
    inner.outputColumns

/-- `FCreateOuterApplyForExistOrQuant` for a quantified subquery with the given operand over
`inner`; `scalar` is the operand the subquery has in the query. -/
def fCreateOuterApplyForQuant (op : CScalarCmp β) (operand : CValueExpr β) (column : ℕ)
    (scalar : CValueExpr β) (value : Bool) (fOuterRefsUnderInner : Bool)
    (next : ℕ) : Option (CUnnested β) :=
  let predicate := CValueExpr.quantifiedCmp op operand column
  let prjInner :=
    (pexprInnerSelect ctx op operand column inner).addProjection next (.constBool true)
  let result := quantifiedIf value (next + 1) (next + 3)
  let residual :=
    if useNotNullableInnerOpt ctx op column inner then operandIf scalar result else result
  if fGbOnInner ctx op operand column inner fOuterRefsUnderInner then
    some
      { newOuter := outerApply outer (quantifiedGroupBy prjInner
          (innerGrpCols ctx outer (innerPredicate ctx op operand column inner)) next predicate
          (next + 1))
        residual := residual
        next := next + 4 }
  else (outerGrpCols ctx outer).map fun columns =>
    { newOuter := quantifiedGroupBy (outerApply outer prjInner) columns next predicate (next + 1)
      residual := residual
      next := next + 4 }

/-- A subquery handled in value context without correlated execution. For ANY, `inner` and
`operand` are what processing the operand on top of the inner side has returned; the operand of ALL
is left as it is, and ALL with outer references is left to correlated execution. -/
def fRemoveSubqueryAsValue (operand : CValueExpr β) (next : ℕ) :
    CValueExpr β → Option (CUnnested β)
  | .quantified .any op subquery column scalar =>
    fCreateOuterApplyForQuant ctx outer inner op operand column scalar true
      subquery.hasOuterRefs next
  | .quantified .all op subquery column scalar =>
    if subquery.hasOuterRefs then none
    else fCreateOuterApplyForQuant ctx outer subquery (ctx.inverse op) scalar column scalar false
      false next
  | .existential negated subquery =>
    let input := subquery.existentialInput next
    fCreateOuterApplyForExist ctx outer input.1 (!negated) input.2
  | _ => none

end CSubqueryHandler

end PgOrca.Unnesting
