import PgOrca.Subquery.Expression

/-!
# Expressions before the optimizer proper

The operators keep what a preprocessing pass looks at. An aggregate or window function is given by
what it computes from the values of its argument.
-/

namespace PgOrca.Preprocess

open Unnesting (CDatum CScalarOp CScalarCmp EQuantifier)

universe u

structure COrderExpression where
  mdidSortOp : ℕ
  colref : ℕ
  fNullsFirst : Bool
  deriving DecidableEq

abbrev COrderSpec := List COrderExpression

inductive EFrameSpec where
  | efsRows
  | efsRange
  | efsGroups
  deriving DecidableEq

inductive EFrameBoundary where
  | efbUnboundedPreceding
  | efbBoundedPreceding
  | efbCurrentRow
  | efbUnboundedFollowing
  | efbBoundedFollowing
  | efbDelayedBoundedPreceding
  | efbDelayedBoundedFollowing
  deriving DecidableEq

inductive EFrameExclusionStrategy where
  | efesNone
  | efesNulls
  | efesCurrentRow
  | efseMatchingOthers
  | efesTies
  deriving DecidableEq

/-- A window frame without the scalars of its edges. -/
structure CWindowFrame where
  efs : EFrameSpec
  efbLeading : EFrameBoundary
  efbTrailing : EFrameBoundary
  efes : EFrameExclusionStrategy
  startInRangeFunc : ℕ
  endInRangeFunc : ℕ
  deriving DecidableEq

def EFrameBoundary.fOffset : EFrameBoundary → Bool
  | efbBoundedPreceding => true
  | efbBoundedFollowing => true
  | efbDelayedBoundedPreceding => true
  | efbDelayedBoundedFollowing => true
  | _ => false

/-- The frame is found by adding to the sort key of the current row and
subtracting from it, for which there has to be exactly one sort key. -/
def CWindowFrame.fRangeOffset (frame : CWindowFrame) : Bool :=
  frame.efs = .efsRange && (frame.efbLeading.fOffset || frame.efbTrailing.fOffset)

/-- An aggregate, by the values of its argument over the rows of the group. -/
abbrev CAggFunc (β : Type u) := List (Option (CDatum β)) → Option (CDatum β)

/-- A window function, by the values of its argument over the sorted rows of the
partition, how these rows compare, the rows of the frame and the current row. -/
abbrev CWindowFunc (β : Type u) :=
  List (Option (CDatum β)) → List (List Ordering) → List ℕ → ℕ → Option (CDatum β)

mutual

inductive CScalarTree (β : Type u) : Type u where
  | ident (colref : ℕ)
  | const (datum : Option (CDatum β))
  | node (pop : CScalarOp β) (children : List (CScalarTree β))
  | subquery (colref : ℕ) (inner : CLogicalTree β)
  | existential (negated : Bool) (inner : CLogicalTree β)
  | quantified (quantifier : EQuantifier) (op : CScalarCmp β) (colref : ℕ) (inner : CLogicalTree β)
      (scalar : CScalarTree β)

/-- The partition columns of a sequence project are those of its distribution
spec, none for a singleton one. -/
inductive CLogicalTree (β : Type u) : Type u where
  | get (table : ℕ) (pdrgpcrOutput : List ℕ)
  | select (child : CLogicalTree β) (predicate : CScalarTree β)
  | project (child : CLogicalTree β) (columns : List ℕ) (values : List (CScalarTree β))
  | gbAgg (child : CLogicalTree β) (pdrgpcr : List ℕ) (columns : List ℕ)
      (functions : List (CAggFunc β)) (arguments : List (CScalarTree β))
  | sequenceProject (child : CLogicalTree β) (pds : List (CScalarTree β)) (pos : COrderSpec)
      (pwf : CWindowFrame) (pexprLeading pexprTrailing : CScalarTree β) (columns : List ℕ)
      (functions : List (CWindowFunc β)) (arguments : List (CScalarTree β))
  | limit (child : CLogicalTree β) (pos : COrderSpec) (pexprOffset : CScalarTree β)
      (fHasCount : Bool) (pexprCount : CScalarTree β)
  | join (joinType : JoinType) (left right : CLogicalTree β) (predicate : CScalarTree β)
  | setOp (op : ESetOp) (pdrgpcrOutput : List ℕ) (pdrgpdrgpcrInput : List (List ℕ))
      (children : List (CLogicalTree β))

end

namespace COrderSpec

def pcrsUsed (pos : COrderSpec) : Finset ℕ := (pos.map COrderExpression.colref).toFinset

def posExcludeColumns (pos : COrderSpec) (pcrs : Finset ℕ) : COrderSpec :=
  pos.filter fun poe => poe.colref ∉ pcrs

end COrderSpec

/-! ### Derived columns -/

variable {β : Type u}

def CLogicalTree.outputColumns : CLogicalTree β → Finset ℕ
  | .get _ pdrgpcrOutput => pdrgpcrOutput.toFinset
  | .select child _ => child.outputColumns
  | .project child columns _ => child.outputColumns ∪ columns.toFinset
  | .gbAgg child pdrgpcr columns _ _ =>
    pdrgpcr.toFinset ∩ child.outputColumns ∪ columns.toFinset
  | .sequenceProject child _ _ _ _ _ columns _ _ => child.outputColumns ∪ columns.toFinset
  | .limit child _ _ _ _ => child.outputColumns
  | .join joinType left right _ => joinType.outputColumns left.outputColumns right.outputColumns
  | .setOp _ pdrgpcrOutput _ _ => pdrgpcrOutput.toFinset

mutual

def CScalarTree.usedColumns : CScalarTree β → Finset ℕ
  | .ident colref => {colref}
  | .const _ => ∅
  | .node _ children => usedColumnsAll children
  | .subquery colref inner => ({colref} \ inner.outputColumns) ∪ inner.outerReferences
  | .existential _ inner => inner.outerReferences
  | .quantified _ _ colref inner scalar =>
    ({colref} \ inner.outputColumns) ∪ inner.outerReferences ∪ scalar.usedColumns

def usedColumnsAll : List (CScalarTree β) → Finset ℕ
  | [] => ∅
  | e :: es => e.usedColumns ∪ usedColumnsAll es

def CLogicalTree.outerReferences : CLogicalTree β → Finset ℕ
  | .get _ _ => ∅
  | .select child predicate =>
    (child.outerReferences ∪ predicate.usedColumns) \ child.outputColumns
  | .project child _ values =>
    (child.outerReferences ∪ usedColumnsAll values) \ child.outputColumns
  | .gbAgg child pdrgpcr _ _ arguments =>
    (child.outerReferences ∪ (usedColumnsAll arguments ∪ pdrgpcr.toFinset)) \
      child.outputColumns
  | .sequenceProject child pds pos _ pexprLeading pexprTrailing _ _ arguments =>
    (child.outerReferences ∪ (usedColumnsAll arguments ∪ (COrderSpec.pcrsUsed pos ∪
      usedColumnsAll pds ∪ pexprLeading.usedColumns ∪ pexprTrailing.usedColumns))) \
        child.outputColumns
  | .limit child pos pexprOffset _ pexprCount =>
    (child.outerReferences ∪ (pexprOffset.usedColumns ∪ pexprCount.usedColumns ∪
      COrderSpec.pcrsUsed pos)) \ child.outputColumns
  | .join _ left right predicate =>
    (left.outerReferences ∪ right.outerReferences ∪ predicate.usedColumns) \
      (left.outputColumns ∪ right.outputColumns)
  | .setOp _ _ _ children => outerReferencesAll children \ outputColumnsAll children

def outerReferencesAll : List (CLogicalTree β) → Finset ℕ
  | [] => ∅
  | t :: ts => t.outerReferences ∪ outerReferencesAll ts

def outputColumnsAll : List (CLogicalTree β) → Finset ℕ
  | [] => ∅
  | t :: ts => t.outputColumns ∪ outputColumnsAll ts

end

/-! ### Parts of an expression -/

abbrev CTree (β : Type u) := CScalarTree β ⊕ CLogicalTree β

variable {x : CTree β}

namespace CTree

/-- The expressions directly below an operator. -/
def parts : CTree β → List (CTree β)
  | .inl (.ident _) | .inl (.const _) | .inr (.get _ _) => []
  | .inl (.node _ children) => children.map .inl
  | .inl (.subquery _ inner) | .inl (.existential _ inner) => [.inr inner]
  | .inl (.quantified _ _ _ inner scalar) => [.inr inner, .inl scalar]
  | .inr (.select child predicate) => [.inr child, .inl predicate]
  | .inr (.project child _ values) | .inr (.gbAgg child _ _ _ values) =>
    .inr child :: values.map .inl
  | .inr (.sequenceProject child pds _ _ pexprLeading pexprTrailing _ _ arguments) =>
    .inr child :: pds.map .inl ++ .inl pexprLeading :: .inl pexprTrailing :: arguments.map .inl
  | .inr (.limit child _ pexprOffset _ pexprCount) =>
    [.inr child, .inl pexprOffset, .inl pexprCount]
  | .inr (.join _ left right predicate) => [.inr left, .inr right, .inl predicate]
  | .inr (.setOp _ _ _ children) => children.map .inr

theorem sizeOf_lt_of_mem_parts {y : CTree β} (hy : y ∈ x.parts) :
    y.elim sizeOf sizeOf < x.elim sizeOf sizeOf := by
  rcases x with (_ | _ | _ | _ | _ | _) | (_ | _ | _ | _ | _ | _ | _ | _) <;>
    simp [parts] at hy ⊢ <;> grind [→ List.sizeOf_lt_of_mem]

@[elab_as_elim]
theorem induct {P : CTree β → Prop} (step : ∀ x, (∀ y ∈ x.parts, P y) → P x) (x : CTree β) : P x :=
  step x fun y _ => induct step y
termination_by x.elim sizeOf sizeOf
decreasing_by exact sizeOf_lt_of_mem_parts ‹_›

end CTree

/-! ### Properties of all parts of an expression -/

section

variable (P P' : CScalarTree β → Prop) (Q Q' : CLogicalTree β → Prop)

mutual

/-- The first property holds of the scalar and all scalars in it, the second one
of all logical expressions in it. -/
def CScalarTree.Everywhere : CScalarTree β → Prop
  | .ident colref => P (.ident colref)
  | .const datum => P (.const datum)
  | .node pop children => P (.node pop children) ∧ everywhereAll children
  | .subquery colref inner => P (.subquery colref inner) ∧ inner.Everywhere
  | .existential negated inner => P (.existential negated inner) ∧ inner.Everywhere
  | .quantified quantifier op colref inner scalar =>
    P (.quantified quantifier op colref inner scalar) ∧ inner.Everywhere ∧ scalar.Everywhere

def everywhereAll : List (CScalarTree β) → Prop
  | [] => True
  | e :: es => e.Everywhere ∧ everywhereAll es

def CLogicalTree.Everywhere : CLogicalTree β → Prop
  | .get table pdrgpcrOutput => Q (.get table pdrgpcrOutput)
  | .select child predicate =>
    Q (.select child predicate) ∧ child.Everywhere ∧ predicate.Everywhere
  | .project child columns values =>
    Q (.project child columns values) ∧ child.Everywhere ∧ everywhereAll values
  | .gbAgg child pdrgpcr columns functions arguments =>
    Q (.gbAgg child pdrgpcr columns functions arguments) ∧ child.Everywhere ∧
      everywhereAll arguments
  | .sequenceProject child pds pos pwf pexprLeading pexprTrailing columns functions arguments =>
    Q (.sequenceProject child pds pos pwf pexprLeading pexprTrailing columns functions
      arguments) ∧ child.Everywhere ∧ everywhereAll pds ∧ pexprLeading.Everywhere ∧
      pexprTrailing.Everywhere ∧ everywhereAll arguments
  | .limit child pos pexprOffset fHasCount pexprCount =>
    Q (.limit child pos pexprOffset fHasCount pexprCount) ∧ child.Everywhere ∧
      pexprOffset.Everywhere ∧ pexprCount.Everywhere
  | .join joinType left right predicate =>
    Q (.join joinType left right predicate) ∧ left.Everywhere ∧ right.Everywhere ∧
      predicate.Everywhere
  | .setOp op pdrgpcrOutput pdrgpdrgpcrInput children =>
    Q (.setOp op pdrgpcrOutput pdrgpdrgpcrInput children) ∧ everywhereTrees children

def everywhereTrees : List (CLogicalTree β) → Prop
  | [] => True
  | t :: ts => t.Everywhere ∧ everywhereTrees ts

end

variable {P P' Q Q'}

theorem everywhereAll_iff_forall {es : List (CScalarTree β)} :
    everywhereAll P Q es ↔ ∀ e ∈ es, e.Everywhere P Q := by
  induction es with
  | nil => simp only [everywhereAll,List.not_mem_nil,false_implies,implies_true]
  | cons e es ih => simp only [everywhereAll,List.forall_mem_cons,ih]

theorem everywhereTrees_iff_forall {ts : List (CLogicalTree β)} :
    everywhereTrees P Q ts ↔ ∀ t ∈ ts, t.Everywhere P Q := by
  induction ts with
  | nil => simp only [everywhereTrees,List.not_mem_nil,false_implies,implies_true]
  | cons t ts ih => simp only [everywhereTrees,List.forall_mem_cons,ih]

namespace CTree

variable (P Q) in
def Everywhere : CTree β → Prop := Sum.elim (·.Everywhere P Q) (·.Everywhere P Q)

theorem everywhere_iff : x.Everywhere P Q ↔ x.elim P Q ∧ ∀ y ∈ x.parts, y.Everywhere P Q := by
  rcases x with (_ | _ | _ | _ | _ | _) | (_ | _ | _ | _ | _ | _ | _ | _) <;>
    simp [Everywhere,parts,CScalarTree.Everywhere,CLogicalTree.Everywhere,
      everywhereAll_iff_forall,everywhereTrees_iff_forall,or_imp,forall_and]

theorem Everywhere.and (h : x.Everywhere P Q) (h' : x.Everywhere P' Q') :
    x.Everywhere (fun e => P e ∧ P' e) (fun t => Q t ∧ Q' t) := by
  induction x using induct with
  | step x ih =>
    rw [everywhere_iff] at *
    refine ⟨?_,fun y hy => ih y hy (h.2 y hy) (h'.2 y hy)⟩
    cases x <;> exact ⟨h.1,h'.1⟩

theorem Everywhere.imp (hP : ∀ e : CScalarTree β, e.Everywhere P Q → P' e)
    (hQ : ∀ t : CLogicalTree β, t.Everywhere P Q → Q' t)
    (h : x.Everywhere P Q) : x.Everywhere P' Q' := by
  induction x using induct with
  | step x ih =>
    refine everywhere_iff.mpr ⟨?_,fun y hy => ih y hy ((everywhere_iff.mp h).2 y hy)⟩
    cases x with
    | inl e => exact hP e h
    | inr t => exact hQ t h

end CTree

theorem CLogicalTree.Everywhere.root {t : CLogicalTree β} (h : t.Everywhere P Q) : Q t :=
  (CTree.everywhere_iff (x := .inr t)).mp h |>.1

theorem CScalarTree.Everywhere.root {e : CScalarTree β} (h : e.Everywhere P Q) : P e :=
  (CTree.everywhere_iff (x := .inl e)).mp h |>.1

end

/-! ### Columns of an expression -/

def CScalarTree.localColumns : CScalarTree β → List ℕ
  | .ident colref => [colref]
  | .subquery colref _ => [colref]
  | .quantified _ _ colref _ _ => [colref]
  | _ => []

/-- The columns that a logical operator names itself. -/
def CLogicalTree.localColumns : CLogicalTree β → List ℕ
  | .get _ pdrgpcrOutput => pdrgpcrOutput
  | .select _ _ => []
  | .project _ columns _ => columns
  | .gbAgg _ pdrgpcr columns _ _ => pdrgpcr ++ columns
  | .sequenceProject _ _ pos _ _ _ columns _ _ => pos.map COrderExpression.colref ++ columns
  | .limit _ pos _ _ _ => pos.map COrderExpression.colref
  | .join _ _ _ _ => []
  | .setOp _ pdrgpcrOutput pdrgpdrgpcrInput _ => pdrgpcrOutput ++ pdrgpdrgpcrInput.flatten

variable (C : Set ℕ)

def CScalarTree.Within (e : CScalarTree β) : Prop :=
  e.Everywhere (fun e => ∀ c ∈ e.localColumns, c ∈ C) (fun t => ∀ c ∈ t.localColumns, c ∈ C)

def withinAll (es : List (CScalarTree β)) : Prop :=
  everywhereAll (fun e => ∀ c ∈ e.localColumns, c ∈ C) (fun t => ∀ c ∈ t.localColumns, c ∈ C) es

def CLogicalTree.Within (t : CLogicalTree β) : Prop :=
  t.Everywhere (fun e => ∀ c ∈ e.localColumns, c ∈ C) (fun t => ∀ c ∈ t.localColumns, c ∈ C)

def withinTrees (ts : List (CLogicalTree β)) : Prop :=
  everywhereTrees (fun e => ∀ c ∈ e.localColumns, c ∈ C) (fun t => ∀ c ∈ t.localColumns, c ∈ C) ts

end PgOrca.Preprocess
