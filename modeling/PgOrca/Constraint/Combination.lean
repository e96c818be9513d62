import PgOrca.Constraint.Extraction

/-!
# Constraints on several columns

Conjunctions and disjunctions open children of the same kind and combine the children on one
column through one predicate. A row satisfies a constraint when its predicate is TRUE.
-/

namespace PgOrca

open ERangeInclusion
open Option (some)

/-- A row of a table, with a value of the column's type or NULL in each column. -/
abbrev TableRow (D : ℕ → Type*) := ∀ colref, Option (D colref)

/-- A predicate over the columns of a table. The parts over one column are the
scalar expressions that intervals are made from. -/
inductive CTableExpr (D : ℕ → Type*) where
  | scalarConst (value : Option Bool)
  | onColumn (colref : ℕ) (pexpr : CScalarExpr (D colref))
  | scalarBoolAnd (children : List (CTableExpr D))
  | scalarBoolOr (children : List (CTableExpr D))
  | scalarBoolNot (child : CTableExpr D)
  | other (value : TableRow D → Option Bool)

inductive CConstraint (D : ℕ → Type*) where
  | interval (colref : ℕ) (pci : CConstraintInterval (IDatum (D colref)))
  | conjunction (pdrgpcnstr : List (CConstraint D))
  | disjunction (pdrgpcnstr : List (CConstraint D))
  | negation (pcnstr : CConstraint D)

variable {D : ℕ → Type*} [∀ colref, LinearOrder (D colref)]

/-- What the constraints of a table read of its columns. Constraints are only
made for columns whose type can be constrained, and the comparisons of a type
are in its operator families. Not every type has an array type. -/
structure CTableColumns (D : ℕ → Type*) [∀ colref, LinearOrder (D colref)] where
  md : ∀ colref, CColRef (D colref)
  fConstrainableType : ∀ colref, (md colref).fConstrainableType
  fArrayType : ℕ → Bool
  otherOp : ∀ colref, Option (D colref) → Option (D colref) → Option Bool
  settings : ∀ colref, CSettings (D colref)
  fOpInOpfamilies : ∀ colref cmpType datum, CConstraintInterval.fOpInOpfamilies (settings colref)
    cmpType .scalarIdent (.scalarConst datum) .emdindSentinel

/-- Columns of types other than the Boolean one. -/
def plainColumns (D : ℕ → Type*) [∀ colref, LinearOrder (D colref)]
    (fArrayConstraints fArrayType : Bool) : CTableColumns D where
  md _ := ⟨true, none⟩
  fConstrainableType _ := rfl
  fArrayType _ := fArrayType
  otherOp _ _ _ := none
  settings _ := ⟨fArrayConstraints, false, fun _ _ _ => true⟩
  fOpInOpfamilies _ _ _ := rfl

/-- The same columns where constraints on arrays are turned off. -/
def CTableColumns.withoutArrays (columns : CTableColumns D) : CTableColumns D :=
  { columns with
    settings := fun colref => { columns.settings colref with fArrayConstraints := false }
    fOpInOpfamilies := columns.fOpInOpfamilies }

namespace CTableExpr

def fScalarConstBool (value : Bool) : CTableExpr D → Bool
  | scalarConst t => t = some value
  | _ => false

/-- `PexprConjDisj`: neutral children are skipped, and one that decides the
whole replaces it. -/
def pexprConjDisj (fConjunction : Bool) (pdrgpexpr : List (CTableExpr D)) : CTableExpr D :=
  if pdrgpexpr.any (fScalarConstBool !fConjunction) then scalarConst (some !fConjunction)
  else
    match pdrgpexpr.filter fun pexpr => !fScalarConstBool fConjunction pexpr with
    | [] => scalarConst (some fConjunction)
    | [pexpr] => pexpr
    | pdrgpexprFinal =>
      if fConjunction then scalarBoolAnd pdrgpexprFinal else scalarBoolOr pdrgpexprFinal

variable (columns : CTableColumns D)

mutual

def eval (row : TableRow D) : CTableExpr D → Option Bool
  | scalarConst t => t
  | onColumn colref pexpr =>
    pexpr.eval (columns.otherOp colref) (columns.md colref) (row colref)
  | scalarBoolAnd children => Kleene.all (evalAll row children)
  | scalarBoolOr children => Kleene.any (evalAll row children)
  | scalarBoolNot child => Kleene.not (eval row child)
  | other value => value row

def evalAll (row : TableRow D) : List (CTableExpr D) → List (Option Bool)
  | [] => []
  | e :: es => eval row e :: evalAll row es

end

mutual

/-- The predicate as one over the only column that it uses. -/
def toScalarExpr (colref : ℕ) : CTableExpr D → CScalarExpr (D colref)
  | scalarConst t => .scalarConst t
  | onColumn pcr pexpr => if h : pcr = colref then h ▸ pexpr else .other fun _ => none
  | scalarBoolAnd children =>
    match toScalarExprs colref children with
    | [] => .scalarConst (some true)
    | first :: rest => .scalarBoolAnd first rest
  | scalarBoolOr children =>
    match toScalarExprs colref children with
    | [] => .scalarConst (some false)
    | first :: rest => .scalarBoolOr first rest
  | scalarBoolNot child => .scalarBoolNot (toScalarExpr colref child)
  | other _ => .other fun _ => none

def toScalarExprs (colref : ℕ) : List (CTableExpr D) → List (CScalarExpr (D colref))
  | [] => []
  | e :: es => toScalarExpr colref e :: toScalarExprs colref es

end

end CTableExpr

/-- `PciIntervalFromScalarExpr` with its defaults, for a predicate over one column. -/
def CTableColumns.pciIntervalFromScalarExpr (columns : CTableColumns D) (colref : ℕ)
    (pexpr : CTableExpr D) : Except Fault (Option (CConstraintInterval (IDatum (D colref)))) :=
  CConstraintInterval.pciIntervalFromScalarExpr (columns.settings colref) (columns.md colref) false
    .emdindSentinel (pexpr.toScalarExpr colref)

open CTableExpr

/-! ### The predicate of an interval -/

section

variable (colref : ℕ)

def pexprScalarCmp (datum : IDatum (D colref)) (cmpType : ECmpType) : CTableExpr D :=
  onColumn colref (.scalarCmp cmpType .scalarIdent (.scalarConst datum))

def pexprIsNull : CTableExpr D := onColumn colref (.scalarNullTest .scalarIdent)

variable (prange : CRange (IDatum (D colref)))

def CRange.pexprEquality : Option (CTableExpr D) :=
  match prange.pdatumLeft, prange.pdatumRight with
  | some left, some right =>
    if left = right ∧ prange.eriLeft = eriIncluded ∧ prange.eriRight = eriIncluded then
      some (pexprScalarCmp colref left .ecmptEq)
    else none
  | _, _ => none

def pexprScalarCompEnd (datum : Option (IDatum (D colref))) (eri : ERangeInclusion)
    (ecmptIncl ecmptExcl : ECmpType) : Option (CTableExpr D) :=
  datum.map fun datum =>
    pexprScalarCmp colref datum (if eri = eriIncluded then ecmptIncl else ecmptExcl)

def CRange.pexprScalar : CTableExpr D :=
  match prange.pexprEquality colref with
  | some pexprEq => pexprEq
  | none =>
    pexprConjDisj true
      [pexprScalarCompEnd colref prange.pdatumLeft prange.eriLeft .ecmptGEq .ecmptG,
        pexprScalarCompEnd colref prange.pdatumRight prange.eriRight .ecmptLEq .ecmptL].reduceOption

namespace CRange

variable {α : Type*} [LinearOrder α]

def fPoint (prange : CRange α) : Bool :=
  prange.eriLeft = eriIncluded && prange.eriRight = eriIncluded &&
    prange.pdatumRight.isSome && prange.pdatumRight = prange.pdatumLeft

def isConstraintUnbounded (prange : CRange α) : Bool :=
  prange.pdatumLeft.isNone && prange.pdatumRight.isNone

def fUpperBoundEqualsLowerBound (this prange : CRange α) : Bool :=
  this.pdatumRight = prange.pdatumLeft

end CRange

namespace CConstraintInterval

variable {α : Type*} [LinearOrder α]

/-- The second test is the one for the Boolean type: nothing lies strictly
between two of its values. -/
def fContradiction (md : CColRef (D colref)) (pci : CConstraintInterval (IDatum (D colref))) :
    Bool :=
  !pci.fIncludesNull &&
    match pci.pdrgprng with
    | [] => true
    | [prange] =>
      md.fBool.isSome && prange.eriLeft = eriExcluded && prange.eriRight = eriExcluded &&
        prange.pdatumLeft.isSome && prange.pdatumRight.isSome
    | _ => false

variable (pci : CConstraintInterval α)

def isConstraintUnbounded : Bool :=
  pci.fIncludesNull &&
    match pci.pdrgprng with
    | [prange] => prange.isConstraintUnbounded
    | _ => false

def fConvertsToIn : Bool :=
  1 < pci.pdrgprng.length && pci.pdrgprng.all CRange.fPoint

/-- Each range ends, excluded, where the next one starts, excluded. -/
def fContiguous : List (CRange α) → Bool
  | pLeftRng :: pRightRng :: rest =>
    pLeftRng.eriRight = eriExcluded && pRightRng.eriLeft = eriExcluded &&
      pLeftRng.fUpperBoundEqualsLowerBound pRightRng && fContiguous (pRightRng :: rest)
  | _ => true

def fConvertsToNotIn : Bool :=
  1 < pci.pdrgprng.length && (pci.pdrgprng.head?.bind CRange.pdatumLeft).isNone &&
    (pci.pdrgprng.getLast?.bind CRange.pdatumRight).isNone && fContiguous pci.pdrgprng

variable (columns : CTableColumns D)

/-- `PexprScalarArrayCmp`: a null pointer for a type without an array type. An array of one element
is compared without one. -/
def pexprScalarArrayCmp (earrcmptype : EArrCmpType) (ecmptype : ECmpType)
    (data : List (IDatum (D colref))) : Option (CTableExpr D) :=
  if columns.fArrayType colref then
    match data with
    | [datum] => some (pexprScalarCmp colref datum ecmptype)
    | data => some (onColumn colref (.scalarArrayCmp ecmptype earrcmptype .scalarIdent
        (.scalarConstArray false data)))
  else none

/-- The data of an IN are the points, those of a NOT IN the gaps between the ranges. -/
def pexprArrayOfRanges (fIn : Bool) (pci : CConstraintInterval (IDatum (D colref))) :
    Option (CTableExpr D) :=
  if fIn then
    pexprScalarArrayCmp colref columns .earrcmpAny .ecmptEq
      (pci.pdrgprng.map CRange.pdatumRight).reduceOption
  else
    pexprScalarArrayCmp colref columns .earrcmpAll .ecmptNEq
      (pci.pdrgprng.dropLast.map CRange.pdatumRight).reduceOption

/-- `PexprConstructArrayScalar` for an IN or a NOT IN. The disjunction with IS NULL dereferences a
null pointer. -/
def pexprConstructArray (fIn : Bool) (pci : CConstraintInterval (IDatum (D colref))) :
    Except Fault (Option (CTableExpr D)) :=
  match pexprArrayOfRanges colref columns fIn pci, pci.fIncludesNull with
  | pexpr, false => .ok pexpr
  | some pexpr, true => .ok (some (pexprConjDisj false [pexpr, pexprIsNull colref]))
  | none, true => .error .nullDereference

def pexprConstructArrayScalar (pci : CConstraintInterval (IDatum (D colref))) :
    Except Fault (Option (CTableExpr D)) :=
  if pci.fConvertsToIn then pexprConstructArray colref columns true pci
  else if pci.fConvertsToNotIn then pexprConstructArray colref columns false pci
  else .ok none

def pexprConstructDisjunctionScalar (pci : CConstraintInterval (IDatum (D colref))) :
    CTableExpr D :=
  let pdrgpexpr := pci.pdrgprng.map (CRange.pexprScalar colref)
  if pdrgpexpr.length = 1 ∧ pdrgpexpr.all (fScalarConstBool true) then
    if pci.fIncludesNull then scalarConst (some true)
    else scalarBoolNot (pexprIsNull colref)
  else
    pexprConjDisj false (pdrgpexpr ++ if pci.fIncludesNull then [pexprIsNull colref] else [])

def pexprConstructScalar (pci : CConstraintInterval (IDatum (D colref))) :
    Except Fault (CTableExpr D) :=
  if pci.fContradiction colref (columns.md colref) then .ok (scalarConst (some false))
  else if (columns.settings colref).fArrayConstraints then
    return (← pexprConstructArrayScalar colref columns pci).getD
      (pexprConstructDisjunctionScalar colref pci)
  else .ok (pexprConstructDisjunctionScalar colref pci)

end CConstraintInterval

end

/-! ### Constraint trees -/

namespace CConstraint

open CConstraintInterval

mutual

/-- The columns of a constraint, each one once. -/
def pcrsUsed : CConstraint D → List ℕ
  | interval colref _ => [colref]
  | conjunction pdrgpcnstr => pcrsFromConstraints pdrgpcnstr
  | disjunction pdrgpcnstr => pcrsFromConstraints pdrgpcnstr
  | negation pcnstr => pcrsUsed pcnstr

def pcrsFromConstraints : List (CConstraint D) → List ℕ
  | [] => []
  | pcnstr :: pdrgpcnstr => pcrsUsed pcnstr ∪ pcrsFromConstraints pdrgpcnstr

end

variable (columns : CTableColumns D)

mutual

def fContradiction : CConstraint D → Bool
  | interval colref pci => pci.fContradiction colref (columns.md colref)
  | conjunction pdrgpcnstr => anyContradiction pdrgpcnstr
  | disjunction pdrgpcnstr => allContradiction pdrgpcnstr
  | negation pcnstr => isConstraintUnbounded pcnstr

def isConstraintUnbounded : CConstraint D → Bool
  | interval _ pci => pci.isConstraintUnbounded
  | conjunction _ => false
  | disjunction _ => false
  | negation pcnstr => fContradiction pcnstr

def anyContradiction : List (CConstraint D) → Bool
  | [] => false
  | pcnstr :: pdrgpcnstr => fContradiction pcnstr || anyContradiction pdrgpcnstr

def allContradiction : List (CConstraint D) → Bool
  | [] => true
  | pcnstr :: pdrgpcnstr => fContradiction pcnstr && allContradiction pdrgpcnstr

end

mutual

def pexprScalar : CConstraint D → Except Fault (CTableExpr D)
  | interval colref pci => pexprConstructScalar colref columns pci
  | conjunction pdrgpcnstr =>
    if anyContradiction columns pdrgpcnstr then .ok (scalarConst (some false))
    else return pexprConjDisj true (← pexprScalars pdrgpcnstr)
  | disjunction pdrgpcnstr =>
    if allContradiction columns pdrgpcnstr then .ok (scalarConst (some false))
    else return pexprConjDisj false (← pexprScalars pdrgpcnstr)
  | negation pcnstr =>
    match pcnstr with
    | negation child => pexprScalar child
    | interval colref pci => do
        pexprConstructScalar colref columns (← pciComplement (columns.md colref) pci)
    | conjunction pdrgpcnstr => return scalarBoolNot (← pexprScalar (conjunction pdrgpcnstr))
    | disjunction pdrgpcnstr => return scalarBoolNot (← pexprScalar (disjunction pdrgpcnstr))

def pexprScalars : List (CConstraint D) → Except Fault (List (CTableExpr D))
  | [] => .ok []
  | pcnstr :: pdrgpcnstr => return (← pexprScalar pcnstr) :: (← pexprScalars pdrgpcnstr)

end

/-- The children of a constraint of the given kind are taken in its place. -/
def opened (fConj : Bool) (pcnstr : CConstraint D) : List (CConstraint D) :=
  match fConj, pcnstr with
  | true, conjunction pdrgpcnstr => pdrgpcnstr
  | false, disjunction pdrgpcnstr => pdrgpcnstr
  | _, pcnstr => [pcnstr]

/-- `PdrgpcnstrOnColumn`, for the constraints that use no other column. -/
def pdrgpcnstrOnColumn (pdrgpcnstr : List (CConstraint D)) (colref : ℕ) : List (CConstraint D) :=
  pdrgpcnstr.filter fun pcnstr => pcnstr.pcrsUsed = [colref]

def pexprScalarConjDisj (fConj : Bool) (pdrgpcnstr : List (CConstraint D)) :
    Except Fault (CTableExpr D) :=
  return pexprConjDisj fConj (← pexprScalars columns pdrgpcnstr)

section

variable (pciIntervalFromScalarExpr : ∀ colref, CTableExpr D →
  Except Fault (Option (CConstraintInterval (IDatum (D colref))))) (fConj : Bool)
  (pdrgpcnstr : List (CConstraint D))

/-- The interval derived from all constraints on the column together. -/
def combined (colref : ℕ) : Except Fault (Option (CConstraint D)) := do
  let pexpr ← pexprScalarConjDisj columns fConj (pdrgpcnstrOnColumn pdrgpcnstr colref)
  return (← pciIntervalFromScalarExpr colref pexpr).map (interval colref)

/-- The loop of `PdrgpcnstrDeduplicate`. Where no interval comes back, the
constraint at hand stands for all those on its column. -/
def deduplicateLoop (fConj : Bool) (pdrgpcnstr : List (CConstraint D)) (pcrsDeduped : List ℕ) :
    List (CConstraint D) → Except Fault (List (CConstraint D))
  | [] => .ok []
  | pcnstrChild :: rest =>
    match pcnstrChild.pcrsUsed with
    | [colref] =>
      if colref ∈ pcrsDeduped then deduplicateLoop fConj pdrgpcnstr pcrsDeduped rest
      else if (pdrgpcnstrOnColumn pdrgpcnstr colref).length = 1 then
        return pcnstrChild :: (← deduplicateLoop fConj pdrgpcnstr pcrsDeduped rest)
      else do
        let pcnstrNew ← combined columns pciIntervalFromScalarExpr fConj pdrgpcnstr colref
        return pcnstrNew.getD pcnstrChild ::
          (← deduplicateLoop fConj pdrgpcnstr (colref :: pcrsDeduped) rest)
    | _ => return pcnstrChild :: (← deduplicateLoop fConj pdrgpcnstr pcrsDeduped rest)

def pdrgpcnstrDeduplicate : Except Fault (List (CConstraint D)) :=
  deduplicateLoop columns pciIntervalFromScalarExpr fConj pdrgpcnstr [] pdrgpcnstr

def pdrgpcnstrFlatten : Except Fault (List (CConstraint D)) :=
  pdrgpcnstrDeduplicate columns pciIntervalFromScalarExpr fConj (pdrgpcnstr.flatMap (opened fConj))

def pcnstrConjDisj : List (CConstraint D) → Except Fault (Option (CConstraint D))
  | [] => .ok none
  | [pcnstr] => .ok (some pcnstr)
  | pdrgpcnstr => do
    let children ← pdrgpcnstrFlatten columns pciIntervalFromScalarExpr fConj pdrgpcnstr
    return some (if fConj then conjunction children else disjunction children)

def pcnstrConjunction : Except Fault (Option (CConstraint D)) :=
  pcnstrConjDisj columns pciIntervalFromScalarExpr true pdrgpcnstr

def pcnstrDisjunction : Except Fault (Option (CConstraint D)) :=
  pcnstrConjDisj columns pciIntervalFromScalarExpr false pdrgpcnstr

end

/-! ### Satisfaction -/

/-- The predicate of the constraint is TRUE of the row. It is written without arrays, so that every
constraint has one. -/
def Satisfied (row : TableRow D) (pcnstr : CConstraint D) : Prop :=
  ∃ pexpr, pcnstr.pexprScalar columns.withoutArrays = .ok pexpr ∧
    eval columns row pexpr = some true

end CConstraint

section

variable (columns : CTableColumns D) (row : TableRow D)

theorem evalAll_eq_map (es : List (CTableExpr D)) :
    evalAll columns row es = es.map (eval columns row) := by
  induction es with
  | nil => rfl
  | cons e es ih => rw [evalAll,ih,List.map_cons]

theorem eval_of_fScalarConstBool {value : Bool} {e : CTableExpr D}
    (h : fScalarConstBool value e) : eval columns row e = some value := by
  unfold fScalarConstBool at h
  split at h
  · simpa [eval] using h
  · exact absurd h Bool.false_ne_true

theorem all_filter_scalarConst (es : List (CTableExpr D)) :
    Kleene.all ((es.filter fun e => !fScalarConstBool true e).map (eval columns row)) =
      Kleene.all (es.map (eval columns row)) := by
  induction es with
  | nil => rfl
  | cons e es ih =>
    cases hcst : fScalarConstBool true e with
    | true =>
      rw [List.filter_cons_of_neg (by simp [hcst]),ih,List.map_cons,Kleene.all_cons,
        eval_of_fScalarConstBool columns row hcst,Kleene.true_and]
    | false =>
      rw [List.filter_cons_of_pos (by simp [hcst]),List.map_cons,List.map_cons,Kleene.all_cons,
        Kleene.all_cons,ih]

theorem any_filter_scalarConst (es : List (CTableExpr D)) :
    Kleene.any ((es.filter fun e => !fScalarConstBool false e).map (eval columns row)) =
      Kleene.any (es.map (eval columns row)) := by
  induction es with
  | nil => rfl
  | cons e es ih =>
    cases hcst : fScalarConstBool false e with
    | true =>
      rw [List.filter_cons_of_neg (by simp [hcst]),ih,List.map_cons,Kleene.any_cons,
        eval_of_fScalarConstBool columns row hcst,Kleene.false_or]
    | false =>
      rw [List.filter_cons_of_pos (by simp [hcst]),List.map_cons,List.map_cons,Kleene.any_cons,
        Kleene.any_cons,ih]

theorem eval_pexprConjunction (es : List (CTableExpr D)) :
    eval columns row (pexprConjDisj true es) = Kleene.all (es.map (eval columns row)) := by
  unfold pexprConjDisj
  by_cases hff : es.any (fScalarConstBool !true)
  · obtain ⟨e,he,hcst⟩ := List.any_eq_true.mp hff
    rw [if_pos hff,eval]
    exact (Kleene.all_eq_false_iff.mpr
      ⟨_,List.mem_map_of_mem he,eval_of_fScalarConstBool columns row hcst⟩).symm
  · rw [if_neg hff,← all_filter_scalarConst]
    generalize es.filter (fun e => !fScalarConstBool true e) = final
    rcases final with _ | ⟨e,_ | ⟨e',final⟩⟩
    · rfl
    · exact (Kleene.and_true _).symm
    · simp [eval,evalAll_eq_map]

theorem eval_pexprDisjunction (es : List (CTableExpr D)) :
    eval columns row (pexprConjDisj false es) = Kleene.any (es.map (eval columns row)) := by
  unfold pexprConjDisj
  by_cases htrue : es.any (fScalarConstBool !false)
  · obtain ⟨e,he,hcst⟩ := List.any_eq_true.mp htrue
    rw [if_pos htrue,eval]
    exact (Kleene.any_eq_true_iff.mpr
      ⟨_,List.mem_map_of_mem he,eval_of_fScalarConstBool columns row hcst⟩).symm
  · rw [if_neg htrue,← any_filter_scalarConst]
    generalize es.filter (fun e => !fScalarConstBool false e) = final
    rcases final with _ | ⟨e,_ | ⟨e',final⟩⟩
    · rfl
    · exact (Kleene.or_false _).symm
    · simp [eval,evalAll_eq_map]

end

theorem bind_eq_ok.{u} {α β : Type u} {x : Except Fault α} {f : α → Except Fault β} {b : β} :
    (x >>= f) = .ok b ↔ ∃ a, x = .ok a ∧ f a = .ok b := by
  cases x with
  | error fault => simp [bind,Except.bind]
  | ok a => simp [bind,Except.bind]

theorem exists_bind_pure.{u} {α β : Type u} {x : Except Fault α} {f : α → β} :
    (∃ b, (x >>= fun a => pure (f a)) = .ok b) ↔ ∃ a, x = .ok a := by
  cases x with
  | error fault => simp [bind,Except.bind]
  | ok a => simp [bind,Except.bind,pure,Except.pure]

variable {pcnstr : CConstraint D}

namespace CConstraint

open CConstraintInterval hiding fContradiction isConstraintUnbounded

variable (columns : CTableColumns D) {row : TableRow D} {colref : ℕ}
  {pci : CConstraintInterval (IDatum (D colref))}
  {pdrgpcnstr : List (CConstraint D)}

theorem anyContradiction_iff :
    anyContradiction columns pdrgpcnstr ↔ ∃ pcnstr ∈ pdrgpcnstr, pcnstr.fContradiction columns := by
  induction pdrgpcnstr with
  | nil => simp [anyContradiction]
  | cons pcnstr pdrgpcnstr ih =>
    rw [anyContradiction,Bool.or_eq_true,ih,List.exists_mem_cons_iff]

theorem allContradiction_iff :
    allContradiction columns pdrgpcnstr ↔ ∀ pcnstr ∈ pdrgpcnstr, pcnstr.fContradiction columns := by
  induction pdrgpcnstr with
  | nil => simp [allContradiction]
  | cons pcnstr pdrgpcnstr ih =>
    rw [allContradiction,Bool.and_eq_true,ih,List.forall_mem_cons]

theorem pexprScalars_eq_ok {es : List (CTableExpr D)} :
    pexprScalars columns pdrgpcnstr = .ok es ↔
      List.Forall₂ (fun pcnstr e => pcnstr.pexprScalar columns = .ok e) pdrgpcnstr es := by
  induction pdrgpcnstr generalizing es with
  | nil => simp [pexprScalars,eq_comm]
  | cons pcnstr pdrgpcnstr ih =>
    rw [pexprScalars,bind_eq_ok,List.forall₂_cons_left_iff]
    simp only [bind_eq_ok,ih]
    constructor
    · rintro ⟨e,he,es,hes,h⟩
      cases h
      exact ⟨e,es,he,hes,rfl⟩
    · rintro ⟨e,es,he,hes,rfl⟩
      exact ⟨e,he,es,hes,rfl⟩

theorem pciUnbounded_eq {fIncludesNull : Bool}
    (h : pciUnbounded (columns.md colref) fIncludesNull = some pci) :
    ∃ prange, pci = ⟨[prange], fIncludesNull⟩ := by
  unfold pciUnbounded at h
  rw [if_pos (columns.fConstrainableType colref)] at h
  split at h
  · exact ⟨_,(some.inj h).symm⟩
  · exact ⟨_,(some.inj h).symm⟩

theorem exists_pciUnbounded (colref : ℕ) (fIncludesNull : Bool) :
    ∃ pci, pciUnbounded (columns.md colref) fIncludesNull = some pci := by
  rw [pciUnbounded,if_pos (columns.fConstrainableType colref)]
  split <;> exact ⟨_,rfl⟩

theorem exists_pciComplement (pci : CConstraintInterval (IDatum (D colref))) :
    ∃ pci', pciComplement (columns.md colref) pci = .ok pci' := by
  obtain ⟨universal,huniv⟩ := exists_pciUnbounded columns colref true
  exact ⟨_,by rw [pciComplement,huniv]⟩

theorem differenceRanges_unbounded {α : Type*} [LinearOrder α] (this : CRange α)
    (eriLeft eriRight : ERangeInclusion) :
    differenceRanges none [this] [⟨none, eriLeft, none, eriRight⟩] [] = [] := by
  have hends : CRange.fEndsWithOrAfter ⟨none,eriLeft,none,eriRight⟩ this := by
    cases hr : this.pdatumRight <;>
      simp [CRange.fEndsWithOrAfter,CRange.fEndsAfter,hr]
  have hleft : this.prngDifferenceLeft ⟨none,eriLeft,none,eriRight⟩ = none := by
    cases hr : this.pdatumRight <;>
      simp [CRange.prngDifferenceLeft,CRange.fDisjointLeft,hr]
  rw [differenceRanges,Option.getD_none,if_pos hends,hleft,differenceRanges]
  · rfl
  · simp

theorem fContradiction_pciComplement {pci' : CConstraintInterval (IDatum (D colref))}
    (h : pci.isConstraintUnbounded) (hpci : pciComplement (columns.md colref) pci = .ok pci') :
    pci'.fContradiction colref (columns.md colref) := by
  obtain ⟨ranges,fIncludesNull⟩ := pci
  obtain ⟨hnull,hrs⟩ := Bool.and_eq_true_iff.mp h
  match ranges, hrs with
  | [⟨left,_,right,_⟩], hrs =>
    obtain ⟨hleft,hr⟩ := Bool.and_eq_true_iff.mp hrs
    cases Option.isNone_iff_eq_none.mp hleft
    cases Option.isNone_iff_eq_none.mp hr
    cases hnull
    obtain ⟨universal,huniv⟩ := exists_pciUnbounded columns colref true
    obtain ⟨prange,rfl⟩ := pciUnbounded_eq columns huniv
    rw [pciComplement,huniv] at hpci
    cases hpci
    rw [pciDifference,differenceRanges_unbounded]
    rfl

/-- The predicate of a contradiction is the constant FALSE. -/
theorem pexprScalar_of_fContradiction :
    (pcnstr : CConstraint D) → pcnstr.fContradiction columns →
      pcnstr.pexprScalar columns = .ok (scalarConst (some false))
  | interval colref pci, h => by
    rw [fContradiction] at h
    rw [pexprScalar,pexprConstructScalar,if_pos h]
  | conjunction pdrgpcnstr, h => by
    rw [fContradiction] at h
    rw [pexprScalar,if_pos h]
  | disjunction pdrgpcnstr, h => by
    rw [fContradiction] at h
    rw [pexprScalar,if_pos h]
  | negation (interval colref pci), h => by
    rw [fContradiction,isConstraintUnbounded] at h
    obtain ⟨pci',hpci⟩ := exists_pciComplement columns pci
    rw [pexprScalar,hpci]
    exact if_pos (fContradiction_pciComplement columns h hpci)
  | negation (conjunction pdrgpcnstr), h | negation (disjunction pdrgpcnstr), h => by
    simp [fContradiction,isConstraintUnbounded] at h
  | negation (negation pcnstr), h => by
    rw [fContradiction,isConstraintUnbounded] at h
    rw [pexprScalar]
    exact pexprScalar_of_fContradiction pcnstr h

/-! ### Building conjunctions and disjunctions -/

theorem exists_pexprScalars :
    (∃ es, pexprScalars columns pdrgpcnstr = .ok es) ↔
      ∀ pcnstr ∈ pdrgpcnstr, ∃ pexpr, pcnstr.pexprScalar columns = .ok pexpr := by
  induction pdrgpcnstr with
  | nil => simp [pexprScalars]
  | cons pcnstr pdrgpcnstr ih =>
    rw [List.forall_mem_cons,← ih,pexprScalars]
    cases pcnstr.pexprScalar columns with
    | error fault => simp [bind,Except.bind]
    | ok e =>
      refine exists_bind_pure.trans ?_
      simp

theorem exists_pexprScalarConjDisj (fConj : Bool) :
    (∃ pexpr, pexprScalarConjDisj columns fConj pdrgpcnstr = .ok pexpr) ↔
      ∀ pcnstr ∈ pdrgpcnstr, ∃ pexpr, pcnstr.pexprScalar columns = .ok pexpr :=
  exists_bind_pure.trans (exists_pexprScalars columns)

variable {columns} in
theorem eval_pexprScalarConj {pexpr : CTableExpr D}
    (h : pexprScalarConjDisj columns true pdrgpcnstr = .ok pexpr) :
    eval columns row pexpr = some true ↔ ∀ pcnstr ∈ pdrgpcnstr,
      ∀ e, pcnstr.pexprScalar columns = .ok e → eval columns row e = some true := by
  obtain ⟨es,hes,heq⟩ := bind_eq_ok.mp h
  cases heq
  clear h
  rw [eval_pexprConjunction,Kleene.all_eq_true_iff,List.forall_mem_map]
  replace hes := (pexprScalars_eq_ok columns).mp hes
  induction hes with
  | nil => simp
  | cons he _ ih =>
    rw [List.forall_mem_cons,List.forall_mem_cons]
    exact and_congr (by simp [he]) ih

variable {columns} in
theorem eval_pexprScalarDisj {pexpr : CTableExpr D}
    (h : pexprScalarConjDisj columns false pdrgpcnstr = .ok pexpr) :
    eval columns row pexpr = some true ↔ ∃ pcnstr ∈ pdrgpcnstr,
      ∀ e, pcnstr.pexprScalar columns = .ok e → eval columns row e = some true := by
  obtain ⟨es,hes,heq⟩ := bind_eq_ok.mp h
  cases heq
  clear h
  rw [eval_pexprDisjunction,Kleene.any_eq_true_iff]
  simp only [List.mem_map,exists_exists_and_eq_and]
  replace hes := (pexprScalars_eq_ok columns).mp hes
  induction hes with
  | nil => simp
  | cons he _ ih =>
    rw [List.exists_mem_cons_iff,List.exists_mem_cons_iff]
    exact or_congr (by simp [he]) ih

/-- The predicates of constraints that share their only column can be written. -/
def Renderable (pdrgpcnstr : List (CConstraint D)) : Prop :=
  ∀ colref, 1 < (pdrgpcnstrOnColumn pdrgpcnstr colref).length →
    ∀ pcnstr ∈ pdrgpcnstrOnColumn pdrgpcnstr colref, ∃ pexpr, pcnstr.pexprScalar columns = .ok pexpr

variable (pciIntervalFromScalarExpr : ∀ colref, CTableExpr D →
  Except Fault (Option (CConstraintInterval (IDatum (D colref))))) {fConj : Bool}

omit [∀ colref, LinearOrder (D colref)] in
theorem mem_pdrgpcnstrOnColumn :
    pcnstr ∈ pdrgpcnstrOnColumn pdrgpcnstr colref ↔
      pcnstr ∈ pdrgpcnstr ∧ pcnstr.pcrsUsed = [colref] := by
  simp [pdrgpcnstrOnColumn]

theorem exists_deduplicateLoop (rest : List (CConstraint D)) (pcrsDeduped : List ℕ) :
    (∃ kept, deduplicateLoop columns pciIntervalFromScalarExpr fConj pdrgpcnstr pcrsDeduped rest =
        .ok kept) ↔
      ∀ colref ∉ pcrsDeduped, (pdrgpcnstrOnColumn pdrgpcnstr colref).length ≠ 1 →
        pdrgpcnstrOnColumn rest colref ≠ [] →
        ∃ pcnstr, combined columns pciIntervalFromScalarExpr fConj pdrgpcnstr colref =
          .ok pcnstr := by
  induction rest generalizing pcrsDeduped with
  | nil => simp [deduplicateLoop,pdrgpcnstrOnColumn]
  | cons child rest ih =>
    rw [deduplicateLoop]
    have hcons (colref : ℕ) : pdrgpcnstrOnColumn (child :: rest) colref ≠ [] ↔
        child.pcrsUsed = [colref] ∨ pdrgpcnstrOnColumn rest colref ≠ [] := by
      by_cases h : child.pcrsUsed = [colref] <;> simp [pdrgpcnstrOnColumn,h]
    simp only [hcons]
    split
    · next colref hused =>
      simp only [hused,List.cons.injEq,and_true]
      split_ifs with hded hone
      · rw [ih]
        grind
      · rw [exists_bind_pure,ih]
        grind
      · cases hcom : combined columns pciIntervalFromScalarExpr fConj pdrgpcnstr colref with
        | error fault =>
          refine iff_of_false (by simp [bind,Except.bind]) fun h => ?_
          obtain ⟨pcnstr,hpc⟩ := h colref hded hone (.inl rfl)
          rw [hcom] at hpc
          cases hpc
        | ok pcnstr =>
          refine exists_bind_pure.trans ((ih _).trans ?_)
          grind
    · next hmany =>
      rw [exists_bind_pure,ih]
      grind

/-- The deduplication ends unless a predicate cannot be written, when those that are written can be
converted without a fault. -/
theorem exists_pdrgpcnstrDeduplicate
    (hconv : ∀ colref pexpr,
      pexprScalarConjDisj columns fConj (pdrgpcnstrOnColumn pdrgpcnstr colref) = .ok pexpr →
      ∃ answer, pciIntervalFromScalarExpr colref pexpr = .ok answer) :
    (∃ kept, pdrgpcnstrDeduplicate columns pciIntervalFromScalarExpr fConj pdrgpcnstr = .ok kept) ↔
      Renderable columns pdrgpcnstr := by
  have hcom (colref : ℕ) : (∃ pcnstr, combined columns pciIntervalFromScalarExpr fConj pdrgpcnstr
      colref = .ok pcnstr) ↔ ∀ pcnstr ∈ pdrgpcnstrOnColumn pdrgpcnstr colref,
        ∃ pexpr, pcnstr.pexprScalar columns = .ok pexpr := by
    rw [← exists_pexprScalarConjDisj columns fConj,combined]
    constructor
    · rintro ⟨pcnstr,h⟩
      obtain ⟨pexpr,hpexpr,-⟩ := bind_eq_ok.mp h
      exact ⟨pexpr,hpexpr⟩
    · rintro ⟨pexpr,hpexpr⟩
      obtain ⟨answer,hans⟩ := hconv colref pexpr hpexpr
      exact ⟨_,bind_eq_ok.mpr ⟨pexpr,hpexpr,by rw [hans]; rfl⟩⟩
  rw [pdrgpcnstrDeduplicate,exists_deduplicateLoop,Renderable]
  simp only [hcom,List.not_mem_nil,not_false_iff,forall_const]
  refine forall_congr' fun colref => ?_
  constructor
  · intro h hlen
    exact h hlen.ne' (List.ne_nil_of_length_pos (Nat.zero_lt_of_lt hlen))
  · intro h hone hne
    have hpos := List.length_pos_of_ne_nil hne
    exact h (by omega)

/-- What the loop of the deduplication returns: a constraint alone on its column or on several
columns as it is, and for each other column the combined interval or the first constraint. -/
theorem mem_deduplicateLoop {kept : List (CConstraint D)} (rest : List (CConstraint D))
    (pcrsDeduped : List ℕ)
    (h : deduplicateLoop columns pciIntervalFromScalarExpr fConj pdrgpcnstr pcrsDeduped rest =
      .ok kept) :
    pcnstr ∈ kept ↔
      (pcnstr ∈ rest ∧ ∀ colref, pcnstr.pcrsUsed = [colref] → colref ∉ pcrsDeduped ∧
        (pdrgpcnstrOnColumn pdrgpcnstr colref).length = 1) ∨
      ∃ colref ∉ pcrsDeduped, (pdrgpcnstrOnColumn pdrgpcnstr colref).length ≠ 1 ∧
        ∃ first merged, (pdrgpcnstrOnColumn rest colref).head? = some first ∧
          combined columns pciIntervalFromScalarExpr fConj pdrgpcnstr colref = .ok merged ∧
          pcnstr = merged.getD first := by
  induction rest generalizing pcrsDeduped kept with
  | nil =>
    cases h
    simp [pdrgpcnstrOnColumn]
  | cons child rest ih =>
    have hoth {colref : ℕ} (h : child.pcrsUsed ≠ [colref]) :
        pdrgpcnstrOnColumn (child :: rest) colref = pdrgpcnstrOnColumn rest colref := by
      simp [pdrgpcnstrOnColumn,h]
    have hself {colref : ℕ} (h : child.pcrsUsed = [colref]) :
        (pdrgpcnstrOnColumn (child :: rest) colref).head? = some child := by
      simp [pdrgpcnstrOnColumn,h]
    rw [deduplicateLoop] at h
    split at h
    · next colref hused =>
      have hcol {colref' : ℕ} : child.pcrsUsed = [colref'] ↔ colref' = colref := by
        simp [hused,eq_comm]
      split_ifs at h with hded hone
      · rw [ih _ h]
        refine or_congr ?_ (exists_congr fun colref' => and_congr_right fun hfr => ?_)
        · grind
        · rw [hoth (by grind)]
      · obtain ⟨kept,hkept,h⟩ := bind_eq_ok.mp h
        cases h
        rw [List.mem_cons,ih _ hkept,← or_assoc]
        refine or_congr ?_ (exists_congr fun colref' => and_congr_right fun hfr =>
          and_congr_right fun hmany => ?_)
        · grind
        · rw [hoth (by grind)]
      · obtain ⟨merged,hmg,h⟩ := bind_eq_ok.mp h
        obtain ⟨kept,hkept,h⟩ := bind_eq_ok.mp h
        cases h
        rw [List.mem_cons,ih _ hkept]
        constructor
        · rintro (rfl | ⟨hmem,hall⟩ | ⟨colref',hfr,hmany,first,merged',hfst,hmg',rfl⟩)
          · exact .inr ⟨colref,hded,hone,child,merged,hself hused,hmg,rfl⟩
          · grind
          · grind
        · rintro (⟨hmem,hall⟩ | ⟨colref',hfr,hmany,first,merged',hfst,hmg',rfl⟩)
          · grind
          · by_cases heq : colref' = colref
            · subst heq
              rw [hself hused,some.injEq] at hfst
              rw [hmg] at hmg'
              cases hmg'
              exact .inl (hfst ▸ rfl)
            · grind
    · next hmany =>
      obtain ⟨kept,hkept,h⟩ := bind_eq_ok.mp h
      cases h
      simp only [fun colref => hoth (hmany colref),List.mem_cons,ih _ hkept]
      grind

section

variable {columns pciIntervalFromScalarExpr} {S : CConstraint D → Prop}
  {kept : List (CConstraint D)}
  (hkept : pdrgpcnstrDeduplicate columns pciIntervalFromScalarExpr fConj pdrgpcnstr = .ok kept)

include hkept

/-- A constraint is kept, or its column has been combined. -/
theorem kept_or_combined (hmem : pcnstr ∈ pdrgpcnstr) :
    pcnstr ∈ kept ∨ ∃ colref first merged, pcnstr ∈ pdrgpcnstrOnColumn pdrgpcnstr colref ∧
      1 < (pdrgpcnstrOnColumn pdrgpcnstr colref).length ∧
      (pdrgpcnstrOnColumn pdrgpcnstr colref).head? = some first ∧
      combined columns pciIntervalFromScalarExpr fConj pdrgpcnstr colref = .ok merged ∧
      merged.getD first ∈ kept := by
  by_cases hmany : ∃ colref, pcnstr.pcrsUsed = [colref] ∧
      (pdrgpcnstrOnColumn pdrgpcnstr colref).length ≠ 1
  · obtain ⟨colref,hused,hmany⟩ := hmany
    have hcol := mem_pdrgpcnstrOnColumn.mpr ⟨hmem,hused⟩
    have hpos := List.length_pos_of_mem hcol
    obtain ⟨merged,hmg⟩ := (exists_deduplicateLoop columns _ _ _).mp ⟨kept,hkept⟩ colref (by simp)
      hmany (List.ne_nil_of_mem hcol)
    obtain ⟨first,hfst⟩ := Option.isSome_iff_exists.mp
      (List.isSome_head?.mpr (List.ne_nil_of_mem hcol))
    exact .inr ⟨colref,first,merged,hcol,by omega,hfst,hmg,(mem_deduplicateLoop columns _ _ _
      hkept).mpr (.inr ⟨colref,by simp,hmany,first,merged,hfst,hmg,rfl⟩)⟩
  · push Not at hmany
    exact .inl ((mem_deduplicateLoop columns _ _ _ hkept).mpr
      (.inl ⟨hmem,fun colref hused => ⟨by simp,hmany colref hused⟩⟩))

/-- What is kept was there before, or stands for the constraints on a column. -/
theorem mem_or_combined (hpc : pcnstr ∈ kept) :
    pcnstr ∈ pdrgpcnstr ∨ ∃ colref merged,
      1 < (pdrgpcnstrOnColumn pdrgpcnstr colref).length ∧
      combined columns pciIntervalFromScalarExpr fConj pdrgpcnstr colref = .ok merged ∧
      (merged = none → pcnstr ∈ pdrgpcnstr) ∧ ∀ m ∈ merged, pcnstr = m := by
  rcases (mem_deduplicateLoop columns _ _ _ hkept).mp hpc with
    ⟨hmem,-⟩ | ⟨colref,-,hmany,first,merged,hfst,hmg,rfl⟩
  · exact .inl hmem
  · have hcol := List.mem_of_mem_head? hfst
    have hpos := List.length_pos_of_mem hcol
    refine .inr ⟨colref,merged,by omega,hmg,?_,?_⟩
    · rintro rfl
      exact (mem_pdrgpcnstrOnColumn.mp hcol).1
    · rintro m rfl
      rfl

theorem forall_kept_iff
    (hS : ∀ colref merged, 1 < (pdrgpcnstrOnColumn pdrgpcnstr colref).length →
      combined columns pciIntervalFromScalarExpr fConj pdrgpcnstr colref = .ok merged →
      ∃ m, merged = some m ∧ (S m ↔ ∀ pcnstr ∈ pdrgpcnstrOnColumn pdrgpcnstr colref, S pcnstr)) :
    (∀ pcnstr ∈ kept, S pcnstr) ↔ ∀ pcnstr ∈ pdrgpcnstr, S pcnstr := by
  constructor
  · intro h pcnstr hmem
    rcases kept_or_combined hkept hmem with hpc | ⟨colref,first,merged,hcol,hlen,-,hmg,hpc⟩
    · exact h pcnstr hpc
    · obtain ⟨m,rfl,hiff⟩ := hS colref merged hlen hmg
      exact hiff.mp (h m hpc) pcnstr hcol
  · intro h pcnstr hpc
    rcases mem_or_combined hkept hpc with hmem | ⟨colref,merged,hlen,hmg,-,heq⟩
    · exact h pcnstr hmem
    · obtain ⟨m,rfl,hiff⟩ := hS colref merged hlen hmg
      rw [heq m rfl]
      exact hiff.mpr fun child hch => h child (mem_pdrgpcnstrOnColumn.mp hch).1

theorem exists_kept_iff
    (hS : ∀ colref merged, 1 < (pdrgpcnstrOnColumn pdrgpcnstr colref).length →
      combined columns pciIntervalFromScalarExpr fConj pdrgpcnstr colref = .ok merged →
      ∃ m, merged = some m ∧ (S m ↔ ∃ pcnstr ∈ pdrgpcnstrOnColumn pdrgpcnstr colref, S pcnstr)) :
    (∃ pcnstr ∈ kept, S pcnstr) ↔ ∃ pcnstr ∈ pdrgpcnstr, S pcnstr := by
  constructor
  · rintro ⟨pcnstr,hpc,h⟩
    rcases mem_or_combined hkept hpc with hmem | ⟨colref,merged,hlen,hmg,-,heq⟩
    · exact ⟨pcnstr,hmem,h⟩
    · obtain ⟨m,rfl,hiff⟩ := hS colref merged hlen hmg
      rw [heq m rfl] at h
      obtain ⟨child,hch,h⟩ := hiff.mp h
      exact ⟨child,(mem_pdrgpcnstrOnColumn.mp hch).1,h⟩
  · rintro ⟨pcnstr,hmem,h⟩
    rcases kept_or_combined hkept hmem with hpc | ⟨colref,first,merged,hcol,hlen,-,hmg,hpc⟩
    · exact ⟨pcnstr,hpc,h⟩
    · obtain ⟨m,rfl,hiff⟩ := hS colref merged hlen hmg
      exact ⟨m,hpc,hiff.mpr ⟨pcnstr,hcol,h⟩⟩

end

end CConstraint

end PgOrca
