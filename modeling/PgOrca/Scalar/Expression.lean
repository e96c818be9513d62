import PgOrca.Constraint.ScalarExpr
import PgOrca.Subquery.Expression

/-!
# Scalar expressions and their SQL values

Functions and operators of the catalog come with what they compute and what the metadata says.
-/

namespace PgOrca.Scalar

open Unnesting (CDatum)

universe u

variable {β : Type u}

/-- A function or operator of the catalog. One that is flagged to return NULL on NULL input is
strict. -/
structure IMDFunction (β : Type u) where
  value : List (Option (CDatum β)) → Option (CDatum β)
  returnsNullOnNullInput : Bool
  fVolatile : Bool
  returnsSet : Bool
  strict : returnsNullOnNullInput = true → ∀ values, none ∈ values → value values = none

/-- The equality operator behind an IS DISTINCT FROM, which is asked about data that are not
NULL. -/
structure IMDEquality (β : Type u) where
  equal : CDatum β → CDatum β → Bool
  fVolatile : Bool
  equal_bool : ∀ a b, equal (.bool a) (.bool b) = (a == b)

/-- Values for the columns, and the argument of the innermost CASE around the expression. -/
structure SAssignment (β : Type u) where
  columns : ℕ → Option (CDatum β)
  caseTest : Option (CDatum β)

inductive EBoolOperator where
  | eboolopAnd
  | eboolopOr
  | eboolopNot
  deriving DecidableEq, Repr

/-- The scalar operators, apart from CASE with an argument and from subqueries. Those that leave
boolean evaluation at its default are kept as what they compute. -/
inductive CScalarOp (β : Type u) where
  | scalarIdent (colref : ℕ)
  | scalarConst (datum : Option (CDatum β))
  | scalarBoolOp (eboolop : EBoolOperator)
  | scalarBooleanTest (ebt : EBooleanTest)
  | scalarNullTest
  | scalarCmp (op : IMDFunction β)
  | scalarIsDistinctFrom (op : IMDEquality β)
  | scalarArrayCmp (earrcmpt : EArrCmpType) (op : IMDFunction β)
  | scalarNullIf (op : IMDFunction β)
  | scalarOp (op : IMDFunction β)
  | scalarFunc (func : IMDFunction β)
  | scalarCast (isBinaryCoercible : Bool) (func : IMDFunction β)
  | scalarCoerceToDomain (func : IMDFunction β)
  | scalarCoerceViaIO (func : IMDFunction β)
  | scalarCoalesce
  | scalarMinMax (extremum : CDatum β → List (CDatum β) → CDatum β)
  | scalarIf
  | scalarCaseTest
  | other (value : SAssignment β → List (Option (CDatum β)) → Option (CDatum β)) (fVolatile : Bool)

/-- A CASE with an argument has the argument and the branches as operands: the cases, and possibly
the default. The five subquery operators are kept as what they compute. -/
inductive CExpression (β : Type u) where
  | node (pop : CScalarOp β) (children : List (CExpression β))
  | scalarSwitch (argument : CExpression β) (branches : List (CExpression β))
  | scalarSwitchCase (condition result : CExpression β)
  | subquery (value : SAssignment β → Option (CDatum β)) (fVolatile : Bool)

namespace CScalarOp

/-- PostgreSQL's comparison of a scalar with an array: NULL for a NULL array, and otherwise the
disjunction or conjunction of the comparisons with the elements. -/
def arrayCmp (elements : β → List (Option (CDatum β))) (earrcmpt : EArrCmpType) (op : IMDFunction β)
    (scalar : Option (CDatum β)) : Option (CDatum β) → Option (CDatum β)
  | some (.other array) =>
    CDatum.ofBool (earrcmpt.eval ((elements array).map fun element =>
      CDatum.toBool (op.value [scalar, element])))
  | _ => none

def isDistinctFrom (op : IMDEquality β) : Option (CDatum β) → Option (CDatum β) → Bool
  | none, none => false
  | some a, some b => !op.equal a b
  | _, _ => true

/-- NULLIF compares its operands only if neither is NULL. -/
def nullIf (op : IMDFunction β) (left right : Option (CDatum β)) : Option (CDatum β) :=
  if left.isSome && right.isSome && CDatum.toBool (op.value [left, right]) = some true then none
  else left

/-- GREATEST and LEAST skip NULLs. -/
def minMax (extremum : CDatum β → List (CDatum β) → CDatum β) (values : List (Option (CDatum β))) :
    Option (CDatum β) :=
  match values.reduceOption with
  | [] => none
  | first :: rest => some (extremum first rest)

/-- The value of an operator from those of its operands; `elements` lists an array. -/
def value (elements : β → List (Option (CDatum β))) (env : SAssignment β) :
    CScalarOp β → List (Option (CDatum β)) → Option (CDatum β)
  | scalarIdent colref, _ => env.columns colref
  | scalarConst datum, _ => datum
  | scalarBoolOp .eboolopAnd, values => CDatum.ofBool (Kleene.all (values.map CDatum.toBool))
  | scalarBoolOp .eboolopOr, values => CDatum.ofBool (Kleene.any (values.map CDatum.toBool))
  | scalarBoolOp .eboolopNot, [v] => CDatum.ofBool (Kleene.not (CDatum.toBool v))
  | scalarBooleanTest ebt, [v] => some (.bool (ebt.eval (CDatum.toBool v)))
  | scalarNullTest, [v] => some (.bool v.isNone)
  | scalarCmp op, values => op.value values
  | scalarIsDistinctFrom op, [v, w] => some (.bool (isDistinctFrom op v w))
  | scalarArrayCmp earrcmpt op, [scalar, array] => arrayCmp elements earrcmpt op scalar array
  | scalarNullIf op, [left, right] => nullIf op left right
  | scalarOp op, values => op.value values
  | scalarFunc func, values => func.value values
  | scalarCast isBinaryCoercible func, [v] => if isBinaryCoercible then v else func.value [v]
  | scalarCoerceToDomain func, values => func.value values
  -- the conversion through text keeps NULL whatever its functions do
  | scalarCoerceViaIO func, [v] => if v.isNone then none else func.value [v]
  | scalarCoalesce, values => (values.find? Option.isSome).join
  | scalarMinMax extremum, values => minMax extremum values
  | scalarIf, [condition, v, w] => if CDatum.toBool condition = some true then v else w
  | scalarCaseTest, _ => env.caseTest
  | other value _, values => value env values
  | _, _ => none

/-- `DeriveFunctionProperties`: whether the operator itself calls a volatile function -/
def fVolatile : CScalarOp β → Bool
  | scalarCmp op | scalarArrayCmp _ op | scalarNullIf op | scalarOp op => op.fVolatile
  | scalarIsDistinctFrom op => op.fVolatile
  | scalarFunc func | scalarCast _ func | scalarCoerceViaIO func => func.fVolatile
  | other _ fVolatile => fVolatile
  | _ => false

def returnsSet : CScalarOp β → Bool
  | scalarFunc func => func.returnsSet
  | _ => false

end CScalarOp

namespace CExpression

section

variable (elements : β → List (Option (CDatum β)))

mutual

/-- The SQL value. A case of a CASE has no value of its own; it stands for its result. -/
def value (env : SAssignment β) : CExpression β → Option (CDatum β)
  | node pop children => pop.value elements env (values env children)
  | scalarSwitch argument branches =>
    switchValue { env with caseTest := value env argument } branches
  | scalarSwitchCase _ result => value env result
  | subquery value _ => value env

def values (env : SAssignment β) : List (CExpression β) → List (Option (CDatum β))
  | [] => []
  | child :: children => value env child :: values env children

/-- The result of the first case whose condition is TRUE; an operand that is no case is the
default. -/
def switchValue (env : SAssignment β) : List (CExpression β) → Option (CDatum β)
  | [] => none
  | scalarSwitchCase condition result :: branches =>
    if CDatum.toBool (value env condition) = some true then value env result
    else switchValue env branches
  | node pop children :: _ => pop.value elements env (values env children)
  | scalarSwitch argument branches :: _ =>
    switchValue { env with caseTest := value env argument } branches
  | subquery value _ :: _ => value env

end

theorem values_eq_map (env : SAssignment β) (children : List (CExpression β)) :
    values elements env children = children.map (value elements env) := by
  induction children with
  | nil => rfl
  | cons child children ih => rw [values,ih,List.map_cons]

theorem switchValue_eq (env : SAssignment β) (branches : List (CExpression β)) :
    switchValue elements env branches = none ∨
      ∃ branch ∈ branches, switchValue elements env branches = value elements env branch := by
  induction branches with
  | nil => exact .inl (by rw [switchValue])
  | cons branch branches ih =>
    cases branch with
    | scalarSwitchCase condition result =>
      rw [switchValue]
      split
      · exact .inr ⟨_,List.mem_cons_self,by rw [value]⟩
      · rcases ih with hnone | ⟨b,hb,heq⟩
        · exact .inl hnone
        · exact .inr ⟨b,List.mem_cons_of_mem _ hb,heq⟩
    | node pop children =>
      exact .inr ⟨_,List.mem_cons_self,by rw [switchValue,value]⟩
    | scalarSwitch argument inner =>
      exact .inr ⟨_,List.mem_cons_self,by rw [switchValue,value]⟩
    | subquery v fVolatile =>
      exact .inr ⟨_,List.mem_cons_self,by rw [switchValue,value]⟩

end

/-! ### Functions in an expression -/

mutual

/-- `DeriveScalarFunctionProperties`: whether a function of the expression is volatile -/
def fHasVolatileFunctions : CExpression β → Bool
  | node pop children => pop.fVolatile || anyHasVolatileFunctions children
  | scalarSwitch argument branches =>
    fHasVolatileFunctions argument || anyHasVolatileFunctions branches
  | scalarSwitchCase condition result =>
    fHasVolatileFunctions condition || fHasVolatileFunctions result
  | subquery _ fVolatile => fVolatile

def anyHasVolatileFunctions : List (CExpression β) → Bool
  | [] => false
  | child :: children => fHasVolatileFunctions child || anyHasVolatileFunctions children

end

mutual

/-- A subquery is not searched for functions that return sets. -/
def fHasNonScalarFunction : CExpression β → Bool
  | node pop children => pop.returnsSet || anyHasNonScalarFunction children
  | scalarSwitch argument branches =>
    fHasNonScalarFunction argument || anyHasNonScalarFunction branches
  | scalarSwitchCase condition result =>
    fHasNonScalarFunction condition || fHasNonScalarFunction result
  | subquery _ _ => false

def anyHasNonScalarFunction : List (CExpression β) → Bool
  | [] => false
  | child :: children => fHasNonScalarFunction child || anyHasNonScalarFunction children

end

end CExpression

end PgOrca.Scalar
