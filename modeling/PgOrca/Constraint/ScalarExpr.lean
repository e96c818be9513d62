import PgOrca.Library.Kleene
import PgOrca.Constraint.Interval

/-!
# Scalar predicates over one column

Subexpressions that the extraction does not look into are given by what they evaluate to.
-/

namespace PgOrca

variable {D : Type*}

inductive ECmpType where
  | ecmptEq
  | ecmptNEq
  | ecmptL
  | ecmptLEq
  | ecmptG
  | ecmptGEq
  | ecmptIDF
  | ecmptOther
  deriving DecidableEq, Repr

inductive EArrCmpType where
  | earrcmpAny
  | earrcmpAll
  deriving DecidableEq, Repr

inductive EBooleanTest where
  | ebtIsTrue
  | ebtIsNotTrue
  | ebtIsFalse
  | ebtIsNotFalse
  | ebtIsUnknown
  | ebtIsNotUnknown
  deriving DecidableEq, Repr

inductive EmdindexType where
  | emdindBtree
  | emdindHash
  | emdindBitmap
  | emdindGist
  | emdindGin
  | emdindBrin
  | emdindSentinel
  deriving DecidableEq, Repr

/-- An operand of a comparison: the column or a constant, either one possibly
under a binary coercible cast, or something else. -/
inductive COperand (D : Type*) where
  | scalarIdent
  | castedScId
  | scalarConst (datum : Option D)
  | castedConst (datum : Option D)
  | other (value : Option D → Option D)

/-- The array of an array comparison: an array of constants, possibly under an
array coercion, or something else that may itself be NULL. -/
inductive CArrayOperand (D : Type*) where
  | scalarConstArray (fArrayCoerce : Bool) (elements : List (Option D))
  | other (value : Option D → Option (List (Option D)))

inductive CScalarExpr (D : Type*) where
  | scalarConst (value : Option Bool)
  | scalarIdent
  | scalarNullTest (child : COperand D)
  | scalarBooleanTest (ebt : EBooleanTest) (child : CScalarExpr D)
  | scalarCmp (cmpType : ECmpType) (left right : COperand D)
  | scalarIsDistinctFrom (left right : COperand D)
  | scalarArrayCmp (cmpType : ECmpType) (earrcmpt : EArrCmpType) (left : COperand D)
      (array : CArrayOperand D)
  | scalarBoolAnd (first : CScalarExpr D) (rest : List (CScalarExpr D))
  | scalarBoolOr (first : CScalarExpr D) (rest : List (CScalarExpr D))
  | scalarBoolNot (child : CScalarExpr D)
  | other (value : Option D → Option Bool)

variable [LinearOrder D]

/-- What the extraction asks of the column: whether its type can be constrained,
and whether it is the Boolean type. -/
structure CColRef (D : Type*) [LinearOrder D] where
  fConstrainableType : Bool
  fBool : Option (D ≃o Bool)

def COperand.eval (value : Option D) : COperand D → Option D
  | scalarIdent => value
  | castedScId => value
  | scalarConst datum => datum
  | castedConst datum => datum
  | other f => f value

def CArrayOperand.eval (value : Option D) : CArrayOperand D → Option (List (Option D))
  | scalarConstArray _ elements => some elements
  | other f => f value

/-- The comparison of two data; `otherOp` is what an operator outside the
comparison types computes. -/
def ECmpType.compare (otherOp : Option D → Option D → Option Bool) (cmpType : ECmpType)
    (left right : Option D) : Option Bool :=
  match cmpType, left, right with
  | ecmptOther, left, right => otherOp left right
  | ecmptIDF, left, right => some (left ≠ right)
  | ecmptEq, some a, some b => some (a = b)
  | ecmptNEq, some a, some b => some (a ≠ b)
  | ecmptL, some a, some b => some (a < b)
  | ecmptLEq, some a, some b => some (a ≤ b)
  | ecmptG, some a, some b => some (b < a)
  | ecmptGEq, some a, some b => some (b ≤ a)
  | _, _, _ => none

/-- The six tests of a truth value, which never are NULL themselves. -/
def EBooleanTest.eval : EBooleanTest → Option Bool → Bool
  | ebtIsTrue, t => t = some true
  | ebtIsNotTrue, t => t ≠ some true
  | ebtIsFalse, t => t = some false
  | ebtIsNotFalse, t => t ≠ some false
  | ebtIsUnknown, t => t = none
  | ebtIsNotUnknown, t => t ≠ none

def EArrCmpType.eval (earrcmpt : EArrCmpType) (ts : List (Option Bool)) : Option Bool :=
  match earrcmpt with
  | earrcmpAny => Kleene.any ts
  | earrcmpAll => Kleene.all ts

namespace CScalarExpr

variable (otherOp : Option D → Option D → Option Bool) (colref : CColRef D)

mutual

def eval (value : Option D) : CScalarExpr D → Option Bool
  | scalarConst t => t
  | scalarIdent => colref.fBool.bind fun iso => value.map iso
  | scalarNullTest child => some (child.eval value).isNone
  | scalarBooleanTest ebt child => some (ebt.eval (eval value child))
  | scalarCmp cmpType left right =>
    cmpType.compare otherOp (left.eval value) (right.eval value)
  | scalarIsDistinctFrom left right => some (left.eval value ≠ right.eval value)
  | scalarArrayCmp cmpType earrcmpt left array =>
    (array.eval value).bind fun elements =>
      earrcmpt.eval (elements.map fun e => cmpType.compare otherOp (left.eval value) e)
  | scalarBoolAnd first rest => Kleene.all (eval value first :: evalAll value rest)
  | scalarBoolOr first rest => Kleene.any (eval value first :: evalAll value rest)
  | scalarBoolNot child => Kleene.not (eval value child)
  | other f => f value

def evalAll (value : Option D) : List (CScalarExpr D) → List (Option Bool)
  | [] => []
  | e :: es => eval value e :: evalAll value es

end

end CScalarExpr

end PgOrca
