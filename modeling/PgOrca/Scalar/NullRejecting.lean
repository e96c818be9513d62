import PgOrca.Library.Alignment
import PgOrca.Scalar.Expression

/-!
# Null-rejecting predicates

The class computed for an expression with NULLs in it contains its value, with one exception: a
strict comparison with an array counts as NULL, but over an empty array it is FALSE or TRUE.
-/

namespace PgOrca.Scalar

open List CScalarOp Kleene

open Unnesting (CDatum)

universe u

variable {β : Type u}

/-! ### Boolean evaluation -/

inductive EBoolEvalResult where
  | eberTrue
  | eberFalse
  | eberNull
  | eberNotTrue
  | eberAny
  deriving DecidableEq, Repr

open EBoolEvalResult

namespace CScalar

variable (children : List EBoolEvalResult)

def eberConjunction : EBoolEvalResult :=
  if children.any (· == eberFalse) then eberFalse
  else if children.all (· == eberTrue) then eberTrue
  else if children.all fun eber => eber == eberAny || eber == eberTrue then eberAny
  else if children.all fun eber => eber == eberNull || eber == eberTrue then eberNull
  else eberNotTrue

def eberDisjunction : EBoolEvalResult :=
  if children.any (· == eberTrue) then eberTrue
  else if children.all (· == eberFalse) then eberFalse
  else if children.any (· == eberAny) then eberAny
  else if children.any (· == eberNotTrue) then eberNotTrue
  else if children.any (· == eberNull) then eberNull
  else eberAny

def eberNullOnAnyNullChild : EBoolEvalResult :=
  if children.any (· == eberNull) then eberNull else eberAny

def eberNullOnAllNullChildren : EBoolEvalResult :=
  if children.any (· != eberNull) then eberAny else eberNull

end CScalar

/-- `m_rgBoolEvalMap` -/
def CScalarBooleanTest.eber : EBooleanTest → EBoolEvalResult → EBoolEvalResult
  | .ebtIsTrue, eberTrue => eberTrue
  | .ebtIsTrue, eberFalse => eberFalse
  | .ebtIsTrue, eberNull => eberFalse
  | .ebtIsTrue, eberNotTrue => eberFalse
  | .ebtIsTrue, eberAny => eberAny
  | .ebtIsNotTrue, eberTrue => eberFalse
  | .ebtIsNotTrue, eberFalse => eberTrue
  | .ebtIsNotTrue, eberNull => eberTrue
  | .ebtIsNotTrue, eberNotTrue => eberTrue
  | .ebtIsNotTrue, eberAny => eberAny
  | .ebtIsFalse, eberTrue => eberFalse
  | .ebtIsFalse, eberFalse => eberTrue
  | .ebtIsFalse, eberNull => eberFalse
  | .ebtIsFalse, eberNotTrue => eberAny
  | .ebtIsFalse, eberAny => eberAny
  | .ebtIsNotFalse, eberTrue => eberTrue
  | .ebtIsNotFalse, eberFalse => eberFalse
  | .ebtIsNotFalse, eberNull => eberTrue
  | .ebtIsNotFalse, eberNotTrue => eberAny
  | .ebtIsNotFalse, eberAny => eberAny
  | .ebtIsUnknown, eberTrue => eberFalse
  | .ebtIsUnknown, eberFalse => eberFalse
  | .ebtIsUnknown, eberNull => eberTrue
  | .ebtIsUnknown, eberNotTrue => eberAny
  | .ebtIsUnknown, eberAny => eberAny
  | .ebtIsNotUnknown, eberTrue => eberTrue
  | .ebtIsNotUnknown, eberFalse => eberTrue
  | .ebtIsNotUnknown, eberNull => eberFalse
  | .ebtIsNotUnknown, eberNotTrue => eberAny
  | .ebtIsNotUnknown, eberAny => eberAny

def CScalarBoolOp.eberNot : EBoolEvalResult → EBoolEvalResult
  | eberTrue => eberFalse
  | eberFalse => eberTrue
  | eberNull => eberNull
  | _ => eberAny

def CScalarNullTest.eber : EBoolEvalResult → EBoolEvalResult
  | eberNull => eberTrue
  | eberFalse | eberTrue => eberFalse
  | _ => eberAny

def CScalarConst.eber : Option (CDatum β) → EBoolEvalResult
  | none => eberNull
  | some (.bool value) => if value then eberTrue else eberFalse
  | some _ => eberAny

def CScalarIsDistinctFrom.eber (firstResult secondResult : EBoolEvalResult) : EBoolEvalResult :=
  if firstResult = eberAny ∨ secondResult = eberAny ∨ firstResult = eberNotTrue ∨
      secondResult = eberNotTrue then eberAny
  else if firstResult ≠ secondResult then eberTrue
  else eberFalse

def CScalarNullIf.eber (left right : EBoolEvalResult) : EBoolEvalResult :=
  if left = eberNull ∨ right = eberNull then left else eberAny

/-- An operator that is flagged to return NULL on NULL input -/
def IMDFunction.eber (func : IMDFunction β) (children : List EBoolEvalResult) : EBoolEvalResult :=
  if func.returnsNullOnNullInput then CScalar.eberNullOnAnyNullChild children else eberAny

/-- `Eber` of each operator; it is `eberAny` by default. -/
def CScalarOp.eber : CScalarOp β → List EBoolEvalResult → EBoolEvalResult
  | scalarConst datum, _ => CScalarConst.eber datum
  | scalarBoolOp .eboolopAnd, children => CScalar.eberConjunction children
  | scalarBoolOp .eboolopOr, children => CScalar.eberDisjunction children
  | scalarBoolOp .eboolopNot, [eber] => CScalarBoolOp.eberNot eber
  | scalarBooleanTest ebt, [eber] => CScalarBooleanTest.eber ebt eber
  | scalarNullTest, [eber] => CScalarNullTest.eber eber
  | scalarCmp op, children => op.eber children
  | scalarIsDistinctFrom _, [firstResult, secondResult] =>
    CScalarIsDistinctFrom.eber firstResult secondResult
  | scalarArrayCmp _ op, children => op.eber children
  | scalarNullIf _, [left, right] => CScalarNullIf.eber left right
  | scalarOp op, children => op.eber children
  | scalarFunc func, children => func.eber children
  | scalarCast isBinaryCoercible func, children =>
    if isBinaryCoercible || func.returnsNullOnNullInput then
      CScalar.eberNullOnAnyNullChild children
    else eberAny
  -- the flag of a coercion to a domain is never set
  | scalarCoerceToDomain _, _ => eberAny
  | scalarCoerceViaIO _, children => CScalar.eberNullOnAnyNullChild children
  | scalarCoalesce, children => CScalar.eberNullOnAllNullChildren children
  | scalarMinMax _, children => CScalar.eberNullOnAllNullChildren children
  | scalarIf, children => CScalar.eberNullOnAllNullChildren children
  | _, _ => eberAny

namespace CExpression

mutual

/-- Subqueries are not evaluated. -/
def eberEvaluate : CExpression β → EBoolEvalResult
  | node pop children => pop.eber (eberEvaluateAll children)
  | scalarSwitch argument branches =>
    CScalar.eberNullOnAllNullChildren (eberEvaluate argument :: eberEvaluateAll branches)
  | scalarSwitchCase condition result =>
    CScalar.eberNullOnAllNullChildren [eberEvaluate condition, eberEvaluate result]
  | subquery _ _ => eberAny

def eberEvaluateAll : List (CExpression β) → List EBoolEvalResult
  | [] => []
  | child :: children => eberEvaluate child :: eberEvaluateAll children

end

mutual

/-- `PexprReplaceColsWithNulls`; it does not enter subqueries. -/
def replaceColsWithNulls (pcrs : Finset ℕ) : CExpression β → CExpression β
  | node (.scalarIdent colref) children =>
    if colref ∈ pcrs then node (.scalarConst none) []
    else node (.scalarIdent colref) (replaceColsWithNullsAll pcrs children)
  | node pop children => node pop (replaceColsWithNullsAll pcrs children)
  | scalarSwitch argument branches =>
    scalarSwitch (replaceColsWithNulls pcrs argument) (replaceColsWithNullsAll pcrs branches)
  | scalarSwitchCase condition result =>
    scalarSwitchCase (replaceColsWithNulls pcrs condition) (replaceColsWithNulls pcrs result)
  | subquery value fVolatile => subquery value fVolatile

def replaceColsWithNullsAll (pcrs : Finset ℕ) : List (CExpression β) → List (CExpression β)
  | [] => []
  | child :: children => replaceColsWithNulls pcrs child :: replaceColsWithNullsAll pcrs children

end

end CExpression

def CPredicateUtils.fNullRejecting (pexprScalar : CExpression β) (pcrs : Finset ℕ) : Bool :=
  if pexprScalar.fHasVolatileFunctions || pexprScalar.fHasNonScalarFunction then false
  else
    match (pexprScalar.replaceColsWithNulls pcrs).eberEvaluate with
    | eberNull | eberFalse | eberNotTrue => true
    | eberTrue | eberAny => false

/-! ### The values of a class -/

/-- The SQL values in a class of evaluation results -/
def EBoolEvalResult.Contains : EBoolEvalResult → Option (CDatum β) → Prop
  | eberTrue, v => v = some (.bool true)
  | eberFalse, v => v = some (.bool false)
  | eberNull, v => v = none
  | eberNotTrue, v => v = none ∨ v = some (.bool false)
  | eberAny, _ => True

section

variable {cs : List EBoolEvalResult} {vs : List (Option (CDatum β))} {c : EBoolEvalResult}
  {array scalar : Option (CDatum β)}

theorem exists_value_of_mem (h : List.Forall₂ Contains cs vs)
    (hc : c ∈ cs) : ∃ v ∈ vs, c.Contains v :=
  exists_aligned_left h.flip hc

theorem contains_notTrue_ofBool {t : Option Bool} (h : t ≠ some true) :
    eberNotTrue.Contains (CDatum.ofBool t : Option (CDatum β)) := by
  rcases t with _ | _ | _
  · exact .inl rfl
  · exact .inr rfl
  · exact absurd rfl h

theorem toBool_ne_true {v : Option (CDatum β)} (h : c.Contains v) (hc : c ≠ eberTrue)
    (hc' : c ≠ eberAny) : CDatum.toBool v ≠ some true := by
  cases c with
  | eberTrue => exact absurd rfl hc
  | eberFalse | eberNull => rw [show v = _ from h]; nofun
  | eberNotTrue =>
    rcases h with rfl | rfl
    · nofun
    · nofun
  | eberAny => exact absurd rfl hc'

section

variable (h : List.Forall₂ Contains cs vs)

include h

theorem contains_conjunction : (CScalar.eberConjunction cs).Contains
      (CDatum.ofBool (Kleene.all (vs.map CDatum.toBool)) : Option (CDatum β)) := by
  unfold CScalar.eberConjunction
  split_ifs with hff htrue hany hnull
  · obtain ⟨c,hc,rfl⟩ : ∃ c ∈ cs, c = eberFalse := by simpa using hff
    obtain ⟨v,hv,rfl⟩ := exists_value_of_mem h hc
    rw [all_eq_false_iff.mpr ⟨_,mem_map_of_mem hv,rfl⟩]
    rfl
  · have hall : ∀ c ∈ cs, c = eberTrue := by simpa using htrue
    have htrues : Kleene.all (vs.map CDatum.toBool) = some true := by
      refine all_eq_true_iff.mpr (forall_mem_map.mpr fun v hv => ?_)
      obtain ⟨c,hc,hcv⟩ := exists_aligned_left h hv
      rw [hall c hc] at hcv
      rw [show v = _ from hcv]
      rfl
    rw [htrues]
    rfl
  · trivial
  · have hall : ∀ c ∈ cs, c = eberNull ∨ c = eberTrue := by simpa using hnull
    obtain ⟨c,hc,hne⟩ : ∃ c ∈ cs, c ≠ eberTrue := by simpa using htrue
    obtain ⟨v,hv,hcv⟩ := exists_value_of_mem h hc
    have hnotT : Kleene.all (vs.map CDatum.toBool) ≠ some true := fun heq =>
      toBool_ne_true hcv hne (by rcases hall c hc with rfl | rfl <;> nofun)
        (all_eq_true_iff.mp heq _ (mem_map_of_mem hv))
    have hnot : Kleene.all (vs.map CDatum.toBool) ≠ some false := by
      intro heq
      obtain ⟨t,ht,rfl⟩ := all_eq_false_iff.mp heq
      obtain ⟨w,hw,heqw⟩ := mem_map.mp ht
      obtain ⟨d,hd,hdw⟩ := exists_aligned_left h hw
      rcases hall d hd with rfl | rfl <;> rw [show w = _ from hdw] at heqw <;> cases heqw
    rw [eq_none_iff.mpr ⟨hnotT,hnot⟩]
    rfl
  · obtain ⟨c,hc,hne⟩ : ∃ c ∈ cs, ¬ (c = eberAny ∨ c = eberTrue) := by simpa using hany
    rw [not_or] at hne
    obtain ⟨v,hv,hcv⟩ := exists_value_of_mem h hc
    exact contains_notTrue_ofBool fun heq =>
      toBool_ne_true hcv hne.2 hne.1 (all_eq_true_iff.mp heq _ (mem_map_of_mem hv))

theorem any_ne_true (htrue : ¬ cs.any (· == eberTrue) = true)
    (hany : ¬ cs.any (· == eberAny) = true) : Kleene.any (vs.map CDatum.toBool) ≠ some true := by
  intro heq
  obtain ⟨t,ht,rfl⟩ := any_eq_true_iff.mp heq
  obtain ⟨v,hv,heqv⟩ := mem_map.mp ht
  obtain ⟨c,hc,hcv⟩ := exists_aligned_left h hv
  refine toBool_ne_true hcv ?_ ?_ heqv
  · rintro rfl
    exact htrue (any_eq_true.mpr ⟨_,hc,rfl⟩)
  · rintro rfl
    exact hany (any_eq_true.mpr ⟨_,hc,rfl⟩)

theorem contains_disjunction : (CScalar.eberDisjunction cs).Contains
      (CDatum.ofBool (Kleene.any (vs.map CDatum.toBool)) : Option (CDatum β)) := by
  unfold CScalar.eberDisjunction
  split_ifs with htrue hff hany hnotT hnull
  · obtain ⟨c,hc,rfl⟩ : ∃ c ∈ cs, c = eberTrue := by simpa using htrue
    obtain ⟨v,hv,rfl⟩ := exists_value_of_mem h hc
    rw [any_eq_true_iff.mpr ⟨_,mem_map_of_mem hv,rfl⟩]
    rfl
  · have hall : ∀ c ∈ cs, c = eberFalse := by simpa using hff
    have hfal : Kleene.any (vs.map CDatum.toBool) = some false := by
      refine any_eq_false_iff.mpr (forall_mem_map.mpr fun v hv => ?_)
      obtain ⟨c,hc,hcv⟩ := exists_aligned_left h hv
      rw [hall c hc] at hcv
      rw [show v = _ from hcv]
      rfl
    rw [hfal]
    rfl
  · trivial
  · exact contains_notTrue_ofBool (any_ne_true h htrue hany)
  · obtain ⟨c,hc,rfl⟩ : ∃ c ∈ cs, c = eberNull := by simpa using hnull
    obtain ⟨v,hv,rfl⟩ := exists_value_of_mem h hc
    have hnot : Kleene.any (vs.map CDatum.toBool) ≠ some false := fun heq =>
      absurd (any_eq_false_iff.mp heq _ (mem_map_of_mem hv)) nofun
    rw [eq_none_iff.mpr ⟨any_ne_true h htrue hany,hnot⟩]
    rfl
  · trivial

variable {w : Option (CDatum β)}

theorem contains_nullOnAnyNullChild
    (hw : none ∈ vs → w = none) : (CScalar.eberNullOnAnyNullChild cs).Contains w := by
  unfold CScalar.eberNullOnAnyNullChild
  split_ifs with hnull
  · obtain ⟨c,hc,rfl⟩ : ∃ c ∈ cs, c = eberNull := by simpa using hnull
    obtain ⟨v,hv,rfl⟩ := exists_value_of_mem h hc
    exact hw hv
  · trivial

theorem contains_nullOnAllNullChildren
    (hw : (∀ v ∈ vs, v = none) → w = none) : (CScalar.eberNullOnAllNullChildren cs).Contains w := by
  unfold CScalar.eberNullOnAllNullChildren
  split_ifs with hnull
  · trivial
  · refine hw fun v hv => ?_
    obtain ⟨c,hc,hcv⟩ := exists_aligned_left h hv
    have heq : c = eberNull := by
      by_contra hne
      exact hnull (any_eq_true.mpr ⟨c,hc,by simpa using hne⟩)
    rw [heq] at hcv
    exact hcv

end

theorem IMDFunction.contains_value (func : IMDFunction β) (h : List.Forall₂ Contains cs vs) :
    (func.eber cs).Contains (func.value vs) := by
  unfold IMDFunction.eber
  split_ifs with hs
  · exact contains_nullOnAnyNullChild h (func.strict hs vs)
  · trivial

section

variable {d : EBoolEvalResult} {v w : Option (CDatum β)}

theorem contains_not (h : c.Contains v) :
    (CScalarBoolOp.eberNot c).Contains (CDatum.ofBool (not (CDatum.toBool v)) :
      Option (CDatum β)) := by
  cases c with
  | eberTrue | eberFalse | eberNull => rw [show v = _ from h]; rfl
  | eberNotTrue | eberAny => trivial

theorem contains_booleanTest (ebt : EBooleanTest) (h : c.Contains v) :
    (CScalarBooleanTest.eber ebt c).Contains
      (some (.bool (ebt.eval (CDatum.toBool v))) : Option (CDatum β)) := by
  cases c with
  | eberTrue | eberFalse | eberNull => rw [show v = _ from h]; cases ebt <;> rfl
  | eberNotTrue =>
    rcases h with rfl | rfl
    · cases ebt <;> trivial
    · cases ebt <;> trivial
  | eberAny => cases ebt <;> trivial

theorem contains_nullTest (h : c.Contains v) :
    (CScalarNullTest.eber c).Contains (some (.bool v.isNone) : Option (CDatum β)) := by
  cases c with
  | eberTrue | eberFalse | eberNull => rw [show v = _ from h]; rfl
  | eberNotTrue | eberAny => trivial

theorem contains_const (datum : Option (CDatum β)) : (CScalarConst.eber datum).Contains datum := by
  rcases datum with _ | ⟨_ | _⟩ | _ | _
  · rfl
  · rfl
  · rfl
  · trivial
  · trivial

def EBoolEvalResult.ofTruth : Option Bool → EBoolEvalResult
  | some true => eberTrue
  | some false => eberFalse
  | none => eberNull

theorem exists_truth (h : c.Contains v) (hany : c ≠ eberAny) (hnot : c ≠ eberNotTrue) :
    ∃ t, v = CDatum.ofBool t ∧ c = ofTruth t := by
  cases c with
  | eberTrue => exact ⟨some true,h,rfl⟩
  | eberFalse => exact ⟨some false,h,rfl⟩
  | eberNull => exact ⟨none,h,rfl⟩
  | eberNotTrue => exact absurd rfl hnot
  | eberAny => exact absurd rfl hany

theorem isDistinctFrom_ofBool (op : IMDEquality β) (s t : Option Bool) :
    isDistinctFrom op (CDatum.ofBool s) (CDatum.ofBool t) =
      decide (ofTruth s ≠ ofTruth t) := by
  rcases s with _ | s
  · rcases t with _ | _ | _ <;> rfl
  · rcases t with _ | t
    · cases s <;> rfl
    · simp only [CDatum.ofBool,Option.map_some,isDistinctFrom,op.equal_bool]
      cases s <;> cases t <;> rfl

theorem contains_isDistinctFrom (op : IMDEquality β) (h : c.Contains v) (h' : d.Contains w) :
    (CScalarIsDistinctFrom.eber c d).Contains
      (some (.bool (isDistinctFrom op v w)) : Option (CDatum β)) := by
  unfold CScalarIsDistinctFrom.eber
  split_ifs with hunk hne
  · trivial
  all_goals
    simp only [not_or] at hunk
    obtain ⟨hc,hd,hc',hd'⟩ := hunk
    obtain ⟨s,rfl,rfl⟩ := exists_truth h hc hc'
    obtain ⟨t,rfl,rfl⟩ := exists_truth h' hd hd'
    rw [isDistinctFrom_ofBool]
  · rw [decide_eq_true hne]
    rfl
  · rw [decide_eq_false hne]
    rfl

theorem contains_nullIf (op : IMDFunction β) (h : c.Contains v) (h' : d.Contains w) :
    (CScalarNullIf.eber c d).Contains (nullIf op v w) := by
  unfold CScalarNullIf.eber
  split_ifs with hnull
  · have hv : nullIf op v w = v := by
      unfold nullIf
      rcases hnull with rfl | rfl
      · rw [show v = _ from h]
        rfl
      · rw [show w = _ from h',Option.isSome_none,Bool.and_false,Bool.false_and]
        rfl
    rw [hv]
    exact h
  · trivial

end

variable (elements : β → List (Option (CDatum β)))

def EmptyArray (v : Option (CDatum β)) : Prop :=
  ∃ array, v = some (.other array) ∧ elements array = []

variable (earrcmpt : EArrCmpType)

theorem arrayCmp_eq_none {op : IMDFunction β} (hs : op.returnsNullOnNullInput = true)
    (harray : ¬ EmptyArray elements array) : arrayCmp elements earrcmpt op none array = none := by
  unfold arrayCmp
  split
  · rename_i array
    have hnulls : ∀ t ∈ (elements array).map fun element =>
        CDatum.toBool (op.value [none,element]), t = none := by
      refine forall_mem_map.mpr fun element _ => ?_
      rw [op.strict hs _ mem_cons_self]
      rfl
    have hne : ((elements array).map fun element =>
        CDatum.toBool (op.value [none,element])) ≠ [] :=
      fun hnil => harray ⟨array,rfl,map_eq_nil_iff.mp hnil⟩
    cases earrcmpt with
    | earrcmpAny =>
      rw [EArrCmpType.eval,any_eq_none hne hnulls]
      rfl
    | earrcmpAll =>
      rw [EArrCmpType.eval,all_eq_none hne hnulls]
      rfl
  · rfl

theorem arrayCmp_of_empty (op : IMDFunction β)
    (harray : EmptyArray elements array) : arrayCmp elements earrcmpt op scalar array ≠ none := by
  obtain ⟨b,rfl,hnil⟩ := harray
  rw [arrayCmp,hnil]
  cases earrcmpt <;> exact nofun

theorem contains_arrayCmp (op : IMDFunction β) {d : EBoolEvalResult} (h : c.Contains scalar)
    (h' : d.Contains array)
    (harray : op.returnsNullOnNullInput = true → c = eberNull → ¬ EmptyArray elements array) :
    (op.eber [c, d]).Contains (arrayCmp elements earrcmpt op scalar array) := by
  unfold IMDFunction.eber CScalar.eberNullOnAnyNullChild
  split_ifs with hs hnull
  · obtain ⟨b,hb,hnull⟩ := any_eq_true.mp hnull
    obtain rfl := beq_iff_eq.mp hnull
    rcases mem_cons.mp hb with rfl | hb
    · rw [show scalar = none from h]
      exact arrayCmp_eq_none elements earrcmpt hs (harray hs rfl)
    · rw [← mem_singleton.mp hb] at h'
      rw [show array = none from h']
      rfl
  · trivial
  · trivial

theorem minMax_eq_none {extremum : CDatum β → List (CDatum β) → CDatum β}
    (h : ∀ v ∈ vs, v = none) : minMax extremum vs = none := by
  have hnil : vs.reduceOption = [] := by
    refine eq_nil_iff_forall_not_mem.mpr fun x hx => ?_
    exact Option.some_ne_none x (h _ (reduceOption_mem_iff.mp hx))
  rw [minMax,hnil]

theorem coalesce_eq_none (h : ∀ v ∈ vs, v = none) : (vs.find? Option.isSome).join = none := by
  have hnone : vs.find? Option.isSome = none := by
    refine List.find?_eq_none.mpr fun v hv => ?_
    rw [h v hv]
    nofun
  rw [hnone]
  rfl

variable (env : SAssignment β)

theorem cast_eq_none {isBinaryCoercible : Bool} {func : IMDFunction β}
    (hflag : (isBinaryCoercible || func.returnsNullOnNullInput) = true) (h : none ∈ vs) :
    (CScalarOp.scalarCast isBinaryCoercible func).value elements env vs = none := by
  match vs, h with
  | [v], h =>
    rw [← mem_singleton.mp h,CScalarOp.value]
    split_ifs with hbin
    · rfl
    · rw [Bool.eq_false_of_not_eq_true hbin,Bool.false_or] at hflag
      exact func.strict hflag _ mem_cons_self
  | _ :: _ :: _, _ => rfl

theorem coerceViaIO_eq_none (func : IMDFunction β) (h : none ∈ vs) :
    (CScalarOp.scalarCoerceViaIO func).value elements env vs = none := by
  match vs, h with
  | [v], h =>
    rw [← mem_singleton.mp h,CScalarOp.value]
    rfl
  | _ :: _ :: _, _ => rfl

theorem if_eq_none (h : ∀ v ∈ vs, v = none) :
    (CScalarOp.scalarIf : CScalarOp β).value elements env vs = none := by
  match vs, h with
  | [], _ => rfl
  | [_], _ | [_,_], _ => rfl
  | [condition,v,w], h =>
    rw [CScalarOp.value,h v (by simp),h w (by simp),ite_self]
  | _ :: _ :: _ :: _ :: _, _ => rfl

theorem IMDFunction.contains_none (op : IMDFunction β) :
    (op.eber cs).Contains (none : Option (CDatum β)) := by
  unfold IMDFunction.eber CScalar.eberNullOnAnyNullChild
  split_ifs
  · rfl
  · trivial
  · trivial

/-- What an operator evaluates to contains its value if that holds of the operands, and the scalar
operand of a strict comparison with an empty array does not evaluate to NULL. -/
theorem CScalarOp.contains_value (pop : CScalarOp β) (h : List.Forall₂ Contains cs vs)
    (harray : ∀ earrcmpt op d scalar array, pop = .scalarArrayCmp earrcmpt op →
      cs = [eberNull, d] → vs = [scalar, array] → op.returnsNullOnNullInput = true →
      ¬ EmptyArray elements array) : (pop.eber cs).Contains (pop.value elements env vs) := by
  cases pop with
  | scalarIdent colref | scalarCoerceToDomain func | scalarCaseTest | other value fVolatile =>
    trivial
  | scalarConst datum => exact contains_const datum
  | scalarBoolOp eboolop =>
    cases eboolop with
    | eboolopAnd => exact contains_conjunction h
    | eboolopOr => exact contains_disjunction h
    | eboolopNot =>
      match h with
      | .cons h₁ .nil => exact contains_not h₁
      | .nil | .cons _ (.cons _ _) => trivial
  | scalarBooleanTest ebt =>
    match h with
    | .cons h₁ .nil => exact contains_booleanTest ebt h₁
    | .nil | .cons _ (.cons _ _) => trivial
  | scalarNullTest =>
    match h with
    | .cons h₁ .nil => exact contains_nullTest h₁
    | .nil | .cons _ (.cons _ _) => trivial
  | scalarCmp op | scalarOp op => exact op.contains_value h
  | scalarIsDistinctFrom op =>
    match h with
    | .cons h₁ (.cons h₂ .nil) => exact contains_isDistinctFrom op h₁ h₂
    | .nil | .cons _ .nil | .cons _ (.cons _ (.cons _ _)) => trivial
  | scalarArrayCmp earrcmpt op =>
    match h with
    | .cons h₁ (.cons h₂ .nil) =>
      refine contains_arrayCmp elements earrcmpt op h₁ h₂ fun hs hnull => ?_
      subst hnull
      exact harray earrcmpt op _ _ _ rfl rfl rfl hs
    | .nil | .cons _ .nil | .cons _ (.cons _ (.cons _ _)) => exact op.contains_none
  | scalarNullIf op =>
    match h with
    | .cons h₁ (.cons h₂ .nil) => exact contains_nullIf op h₁ h₂
    | .nil | .cons _ .nil | .cons _ (.cons _ (.cons _ _)) => trivial
  | scalarFunc func => exact func.contains_value h
  | scalarCast isBinaryCoercible func =>
    rw [CScalarOp.eber]
    split_ifs with hflag
    · exact contains_nullOnAnyNullChild h (cast_eq_none elements env hflag)
    · trivial
  | scalarCoerceViaIO func =>
    exact contains_nullOnAnyNullChild h (coerceViaIO_eq_none elements env func)
  | scalarCoalesce => exact contains_nullOnAllNullChildren h coalesce_eq_none
  | scalarMinMax extremum => exact contains_nullOnAllNullChildren h minMax_eq_none
  | scalarIf => exact contains_nullOnAllNullChildren h (if_eq_none elements env)

end

/-! ### Evaluation of expressions -/

namespace CExpression

variable (elements : β → List (Option (CDatum β))) {children children' : List (CExpression β)}

/-- The subexpressions that are evaluated under an assignment, each with the assignment it is
evaluated under itself -/
inductive Within : SAssignment β → CExpression β → SAssignment β → CExpression β → Prop
  | self (env : SAssignment β) (e : CExpression β) : Within env e env e
  | operand {env env' : SAssignment β} {pop : CScalarOp β} {children : List (CExpression β)}
      {child s : CExpression β} (hchild : child ∈ children) (h : Within env child env' s) :
      Within env (node pop children) env' s
  | argument {env env' : SAssignment β} {argument : CExpression β} {s : CExpression β}
      (branches : List (CExpression β)) (h : Within env argument env' s) :
      Within env (scalarSwitch argument branches) env' s
  | branch {env env' : SAssignment β} {argument branch s : CExpression β}
      {branches : List (CExpression β)} (hbranch : branch ∈ branches)
      (h : Within { env with caseTest := value elements env argument } branch env' s) :
      Within env (scalarSwitch argument branches) env' s
  | condition {env env' : SAssignment β} {condition s : CExpression β} (result : CExpression β)
      (h : Within env condition env' s) : Within env (scalarSwitchCase condition result) env' s
  | result {env env' : SAssignment β} {result s : CExpression β} (condition : CExpression β)
      (h : Within env result env' s) : Within env (scalarSwitchCase condition result) env' s

/-- No strict comparison with an empty array is evaluated whose scalar operand counts as NULL. -/
def NoNullOverEmptyArray (env : SAssignment β) (e : CExpression β) : Prop :=
  ∀ env' earrcmpt op scalar array,
    Within elements env e env' (node (.scalarArrayCmp earrcmpt op) [scalar, array]) →
    op.returnsNullOnNullInput = true → scalar.eberEvaluate = eberNull →
    ¬ EmptyArray elements (value elements env' array)

theorem replaceColsWithNulls_node (pcrs : Finset ℕ) (pop : CScalarOp β)
    (children : List (CExpression β)) :
    replaceColsWithNulls pcrs (node pop children) =
        node pop (replaceColsWithNullsAll pcrs children) ∨
      ∃ colref ∈ pcrs, pop = .scalarIdent colref ∧
        replaceColsWithNulls pcrs (node pop children) = node (.scalarConst none) [] := by
  cases pop with
  | scalarIdent colref =>
    rw [replaceColsWithNulls]
    split_ifs with hmem
    · exact .inr ⟨colref,hmem,rfl,rfl⟩
    · exact .inl rfl
  | _ => exact .inl rfl

variable {elements} {env env' env'' : SAssignment β} {e s t : CExpression β}

theorem Within.trans (h : Within elements env e env' s) (h' : Within elements env' s env'' t) :
    Within elements env e env'' t := by
  induction h with
  | self env e => exact h'
  | operand hch _ ih => exact .operand hch (ih h')
  | argument branches _ ih => exact .argument branches (ih h')
  | branch hbr _ ih => exact .branch hbr (ih h')
  | condition result _ ih => exact .condition result (ih h')
  | result condition _ ih => exact .result condition (ih h')

theorem NoNullOverEmptyArray.of_within (h : NoNullOverEmptyArray elements env e)
    (hwi : Within elements env e env' s) : NoNullOverEmptyArray elements env' s :=
  fun env'' earrcmpt op scalar array h' => h env'' earrcmpt op scalar array (hwi.trans h')

theorem NoNullOverEmptyArray.arrayCmp {pop : CScalarOp β}
    (h : NoNullOverEmptyArray elements env (node pop children)) (earrcmpt : EArrCmpType)
    (op : IMDFunction β) (d : EBoolEvalResult) (v w : Option (CDatum β))
    (hpop : pop = .scalarArrayCmp earrcmpt op) (hcs : eberEvaluateAll children = [eberNull, d])
    (hvs : values elements env children = [v, w]) (hs : op.returnsNullOnNullInput = true) :
    ¬ EmptyArray elements w := by
  rw [values_eq_map] at hvs
  obtain ⟨scalar,rest,rfl,hsc,hrest⟩ := map_eq_cons_iff.mp hvs
  obtain ⟨array,rest,rfl,rfl,hnil⟩ := map_eq_cons_iff.mp hrest
  obtain rfl := map_eq_nil_iff.mp hnil
  subst hpop
  exact h env earrcmpt op scalar array (.self _ _) hs (cons.inj hcs).1

mutual

theorem contains_eberEvaluate (env : SAssignment β) (e : CExpression β)
    (h : NoNullOverEmptyArray elements env e) :
    e.eberEvaluate.Contains (value elements env e) := by
  match e with
  | node pop children =>
    rw [eberEvaluate,value]
    exact contains_value elements env pop (contains_eberEvaluateAll env children fun child hch =>
      h.of_within (.operand hch (.self _ _))) h.arrayCmp
  | scalarSwitch argument branches =>
    have harg := contains_eberEvaluate env argument (h.of_within (.argument branches (.self _ _)))
    have hbra := contains_eberEvaluateAll { env with caseTest := value elements env argument }
      branches fun branch hbr => h.of_within (.branch hbr (.self _ _))
    rw [eberEvaluate,value]
    refine contains_nullOnAllNullChildren (.cons harg hbra) fun hnull => ?_
    rcases switchValue_eq elements { env with caseTest := value elements env argument }
      branches with hnone | ⟨branch,hbr,heq⟩
    · exact hnone
    · rw [heq]
      refine hnull _ (mem_cons_of_mem _ ?_)
      rw [values_eq_map]
      exact mem_map_of_mem hbr
  | scalarSwitchCase condition result =>
    have hcon := contains_eberEvaluate env condition
      (h.of_within (.condition result (.self _ _)))
    have hre := contains_eberEvaluate env result (h.of_within (.result condition (.self _ _)))
    rw [eberEvaluate,value]
    exact contains_nullOnAllNullChildren (.cons hcon (.cons hre .nil)) fun hnull =>
      hnull _ (mem_cons_of_mem _ mem_cons_self)
  | subquery v fVolatile => trivial

theorem contains_eberEvaluateAll (env : SAssignment β) (children : List (CExpression β))
    (h : ∀ child ∈ children, NoNullOverEmptyArray elements env child) :
    List.Forall₂ Contains (eberEvaluateAll children) (values elements env children) := by
  match children with
  | [] => exact .nil
  | child :: children =>
    exact .cons (contains_eberEvaluate env child (h child mem_cons_self))
      (contains_eberEvaluateAll env children fun c hc => h c (mem_cons_of_mem _ hc))

end

mutual

/-- NULL constants for columns that are NULL do not change the value. -/
theorem value_replaceColsWithNulls (pcrs : Finset ℕ) (env : SAssignment β)
    (hpcrs : ∀ colref ∈ pcrs, env.columns colref = none) (e : CExpression β) :
    value elements env (replaceColsWithNulls pcrs e) = value elements env e := by
  match e with
  | node pop children =>
    rcases replaceColsWithNulls_node pcrs pop children with heq | ⟨colref,hmem,rfl,heq⟩
    · rw [heq,value,value,values_replaceColsWithNullsAll pcrs env hpcrs children]
    · rw [heq,value,value]
      exact (hpcrs colref hmem).symm
  | scalarSwitch argument branches =>
    rw [replaceColsWithNulls,value,value,value_replaceColsWithNulls pcrs env hpcrs argument]
    exact switchValue_replaceColsWithNulls pcrs { env with caseTest := value elements env argument }
      hpcrs branches
  | scalarSwitchCase condition result =>
    rw [replaceColsWithNulls,value,value,value_replaceColsWithNulls pcrs env hpcrs result]
  | subquery v fVolatile => rfl

theorem values_replaceColsWithNullsAll (pcrs : Finset ℕ) (env : SAssignment β)
    (hpcrs : ∀ colref ∈ pcrs, env.columns colref = none) (children : List (CExpression β)) :
    values elements env (replaceColsWithNullsAll pcrs children) = values elements env children := by
  match children with
  | [] => rfl
  | child :: children =>
    rw [replaceColsWithNullsAll,values,values,value_replaceColsWithNulls pcrs env hpcrs child,
      values_replaceColsWithNullsAll pcrs env hpcrs children]

theorem switchValue_replaceColsWithNulls (pcrs : Finset ℕ) (env : SAssignment β)
    (hpcrs : ∀ colref ∈ pcrs, env.columns colref = none) (branches : List (CExpression β)) :
    switchValue elements env (replaceColsWithNullsAll pcrs branches)
      = switchValue elements env branches := by
  match branches with
  | [] => rfl
  | scalarSwitchCase condition result :: branches =>
    rw [replaceColsWithNullsAll,replaceColsWithNulls,switchValue,switchValue,
      value_replaceColsWithNulls pcrs env hpcrs condition,
      value_replaceColsWithNulls pcrs env hpcrs result,
      switchValue_replaceColsWithNulls pcrs env hpcrs branches]
  | node pop children :: branches =>
    rw [replaceColsWithNullsAll]
    rcases replaceColsWithNulls_node pcrs pop children with heq | ⟨colref,hmem,rfl,heq⟩
    · rw [heq,switchValue,switchValue,values_replaceColsWithNullsAll pcrs env hpcrs children]
    · rw [heq,switchValue,switchValue]
      exact (hpcrs colref hmem).symm
  | scalarSwitch argument inner :: branches =>
    rw [replaceColsWithNullsAll,replaceColsWithNulls,switchValue,switchValue,
      value_replaceColsWithNulls pcrs env hpcrs argument]
    exact switchValue_replaceColsWithNulls pcrs { env with caseTest := value elements env argument }
      hpcrs inner
  | subquery v fVolatile :: branches => rfl

end

theorem value_ne_true_of_fNullRejecting {pcrs : Finset ℕ}
    (h : NoNullOverEmptyArray elements env (replaceColsWithNulls pcrs e))
    (hpcrs : ∀ colref ∈ pcrs, env.columns colref = none)
    (hrej : CPredicateUtils.fNullRejecting e pcrs = true) :
    value elements env e ≠ some (.bool true) := by
  have hcon := contains_eberEvaluate env _ h
  rw [value_replaceColsWithNulls pcrs env hpcrs] at hcon
  unfold CPredicateUtils.fNullRejecting at hrej
  intro htrue
  rw [htrue] at hcon
  split_ifs at hrej
  -- none of the classes that count as rejecting contains TRUE
  cases heq : (replaceColsWithNulls pcrs e).eberEvaluate with
  | eberTrue | eberAny => rw [heq] at hrej; cases hrej
  | eberNull | eberFalse => rw [heq] at hcon; cases hcon
  | eberNotTrue => rw [heq] at hcon; rcases hcon with h | h <;> cases h

/-- An expression and its subexpressions evaluate to classes that contain their values exactly when
no strict comparison with an empty array has a scalar operand that counts as NULL, and null
rejection is sound when that holds with NULLs for the columns. -/
theorem eberEvaluate_sound_iff (elements : β → List (Option (CDatum β))) (env : SAssignment β)
    (e : CExpression β) :
    ((∀ env' s, Within elements env e env' s →
        s.eberEvaluate.Contains (value elements env' s)) ↔ NoNullOverEmptyArray elements env e) ∧
      ∀ pcrs : Finset ℕ, (∀ colref ∈ pcrs, env.columns colref = none) →
        NoNullOverEmptyArray elements env (replaceColsWithNulls pcrs e) →
          CPredicateUtils.fNullRejecting e pcrs = true →
            value elements env e ≠ some (.bool true) := by
  refine ⟨⟨?_,fun h env' s hwi => contains_eberEvaluate env' s (h.of_within hwi)⟩,
    fun pcrs hpcrs h hrej => value_ne_true_of_fNullRejecting h hpcrs hrej⟩
  intro hsd env' earrcmpt op scalar array hwi hs hsc hemp
  have hcon := hsd env' _ hwi
  have hnull : (node (.scalarArrayCmp earrcmpt op) [scalar,array]).eberEvaluate = eberNull := by
    rw [eberEvaluate,CScalarOp.eber,IMDFunction.eber,if_pos hs,eberEvaluateAll,hsc]
    rfl
  rw [hnull,value] at hcon
  exact arrayCmp_of_empty elements earrcmpt op hemp hcon

end CExpression

/-! `x <> ALL ('{}')` is TRUE for a NULL `x`, but counts as null-rejecting. -/

namespace NotInEmptyArray

def elements (array : List (Option ℤ)) : List (Option (CDatum (List (Option ℤ)))) :=
  array.map (Option.map CDatum.int)

def notEqualValue : List (Option (CDatum (List (Option ℤ)))) → Option (CDatum (List (Option ℤ)))
  | [some v, some w] => some (.bool (v ≠ w))
  | _ => none

def notEqual : IMDFunction (List (Option ℤ)) where
  value := notEqualValue
  returnsNullOnNullInput := true
  fVolatile := false
  returnsSet := false
  strict := by
    rintro - values hnone
    unfold notEqualValue
    split
    · simp at hnone
    · rfl

def notInEmptyArray : CExpression (List (Option ℤ)) :=
  .node (.scalarArrayCmp .earrcmpAll notEqual)
    [.node (.scalarIdent 0) [], .node (.scalarConst (some (.other []))) []]

def allNull : SAssignment (List (Option ℤ)) := ⟨fun _ => none, none⟩

theorem true_though_null_rejecting :
    CPredicateUtils.fNullRejecting notInEmptyArray {0} = true ∧
      (∀ colref ∈ ({0} : Finset ℕ), allNull.columns colref = none) ∧
      notInEmptyArray.value elements allNull = some (.bool true) ∧
      (notInEmptyArray.replaceColsWithNulls {0}).eberEvaluate = eberNull ∧
      ¬ eberNull.Contains ((notInEmptyArray.replaceColsWithNulls {0}).value elements allNull) :=
  ⟨by decide,fun _ _ => rfl,rfl,by decide,nofun⟩

end NotInEmptyArray

end PgOrca.Scalar
