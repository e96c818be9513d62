import PgOrca.Constraint.Conversion

/-!
# Static partition pruning

The constraints of the kept partitions are attached to the new scan as one disjunction. A
partition without a derivable constraint is kept, but adds nothing to it.
-/

namespace PgOrca

open CTableExpr CConstraint List

/-- A partition: the constraint over its own columns, and the column of the
partition for each column of the root table. -/
structure CPartition (X : Type*) where
  partMdid : ℕ
  foreignServerMdid : ℕ
  mdPartConstraint : Option X
  rootColMapping : ℕ → ℕ

structure CLogicalDynamicGet (X : Type*) where
  pdrgpcrOutput : List ℕ
  partitions : List (CPartition X)

/-- The scan after pruning, or an empty table when no partition is left. -/
inductive CPrunedSelect (D : ℕ → Type*) where
  | constTableGet (colrefArray : List ℕ)
  | select (pdrgpcrOutput : List ℕ) (partitionMdids foreignServerMdids : List ℕ)
      (partitionCnstrsDisj : Option (CConstraint D)) (filterPred : CTableExpr D)

namespace CPrunedSelect

variable {D : ℕ → Type*}

def partitionMdids : CPrunedSelect D → List ℕ
  | constTableGet _ => []
  | select _ partitionMdids _ _ _ => partitionMdids

def partitionCnstrsDisj : CPrunedSelect D → Option (CConstraint D)
  | constTableGet _ => none
  | select _ _ _ partitionCnstrsDisj _ => partitionCnstrsDisj

end CPrunedSelect

variable {D : ℕ → Type*} [∀ colref, LinearOrder (D colref)] {X : Type*}

/-- What the pruning calls: the derivation of a constraint from a predicate, and the translation of
a partition's constraint to given columns. -/
structure CPartitionContext (D : ℕ → Type*) [∀ colref, LinearOrder (D colref)] (X : Type*) where
  columns : CTableColumns D
  pcnstrFromScalarExpr : CTableExpr D → Bool → EmdindexType → Option (CConstraint D)
  pexprTranslateScalar : X → List ℕ → List ℕ → CTableExpr D

namespace CPartitionContext

variable (ctxt : CPartitionContext D X) (pdrgpcrOutput : List ℕ)

/-- The partition's constraint over the columns of the root table. -/
def partConstraintExpr (part : CPartition X) : Option (CTableExpr D) :=
  part.mdPartConstraint.map fun dxlnode =>
    let mappedColids := pdrgpcrOutput.map part.rootColMapping
    ctxt.pexprTranslateScalar dxlnode pdrgpcrOutput mappedColids

def pcnstrFromChildPartition (part : CPartition X) : Option (CConstraint D) :=
  match ctxt.partConstraintExpr pdrgpcrOutput part with
  | none => none
  | some partConstraintExpr => ctxt.pcnstrFromScalarExpr partConstraintExpr true .emdindBtree

/-- The partition is not ruled out by the filter's constraint. -/
def fSelected (predCnstr relCnstr : Option (CConstraint D)) : Except Fault Bool :=
  (pcnstrConjunction ctxt.columns ctxt.columns.pciIntervalFromScalarExpr
      [predCnstr, relCnstr].reduceOption).map fun pcnstr =>
    match pcnstr with
    | none => true
    | some pcnstr => !pcnstr.fContradiction ctxt.columns

/-- The arrays that the loop over the partitions appends to. -/
structure CSelection (D : ℕ → Type*) where
  selectedPartitionMdids : List ℕ
  selectedPartitionCnstrs : List (CConstraint D)
  foreignServerMdids : List ℕ

def selectPartitions (pdrgpcrOutput : List ℕ) (predCnstr : Option (CConstraint D)) :
    List (CPartition X) → CSelection D → Except Fault (CSelection D)
  | [], selection => .ok selection
  | part :: parts, selection =>
    let relCnstr := ctxt.pcnstrFromChildPartition pdrgpcrOutput part
    match ctxt.fSelected predCnstr relCnstr with
    | .error fault => .error fault
    | .ok true =>
      selectPartitions pdrgpcrOutput predCnstr parts
        ⟨selection.selectedPartitionMdids ++ [part.partMdid],
          selection.selectedPartitionCnstrs ++ relCnstr.toList,
          selection.foreignServerMdids ++ [part.foreignServerMdid]⟩
    | .ok false => selectPartitions pdrgpcrOutput predCnstr parts selection

/-- The case of a filter over a dynamic scan; elsewhere the function only
descends. -/
def prunePartitions (dynGet : CLogicalDynamicGet X) (filterPred : CTableExpr D) :
    Except Fault (CPrunedSelect D) := do
  let predCnstr := ctxt.pcnstrFromScalarExpr filterPred false .emdindBtree
  let selection ← ctxt.selectPartitions dynGet.pdrgpcrOutput predCnstr dynGet.partitions
    ⟨[], [], []⟩
  if selection.selectedPartitionMdids = [] then return .constTableGet dynGet.pdrgpcrOutput
  else
    return .select dynGet.pdrgpcrOutput selection.selectedPartitionMdids
      selection.foreignServerMdids
      (← pcnstrDisjunction ctxt.columns ctxt.columns.pciIntervalFromScalarExpr
        selection.selectedPartitionCnstrs) filterPred

/-! ### The partitions that are not ruled out -/

variable (dynGet : CLogicalDynamicGet X) (filterPred : CTableExpr D)

def predCnstr : Option (CConstraint D) := ctxt.pcnstrFromScalarExpr filterPred false .emdindBtree

def relCnstr (part : CPartition X) : Option (CConstraint D) :=
  ctxt.pcnstrFromChildPartition dynGet.pdrgpcrOutput part

/-- The conjunction of the filter's and the partition's constraint is no contradiction. -/
def fCompatible (part : CPartition X) : Bool :=
  ctxt.fSelected (ctxt.predCnstr filterPred) (ctxt.relCnstr dynGet part) matches .ok true

def compatibleCnstrs : List (CConstraint D) :=
  (dynGet.partitions.filter (ctxt.fCompatible dynGet filterPred)).filterMap (ctxt.relCnstr dynGet)

/-- The predicates of constraints that are combined can be written: those of the filter and each
partition, and those of the partitions that are not ruled out. -/
structure Writable : Prop where
  conjunction : ∀ part ∈ dynGet.partitions, ∀ pred ∈ ctxt.predCnstr filterPred,
    ∀ rel ∈ ctxt.relCnstr dynGet part, Renderable ctxt.columns ([pred, rel].flatMap (opened true))
  disjunction : 1 < (ctxt.compatibleCnstrs dynGet filterPred).length →
    Renderable ctxt.columns ((ctxt.compatibleCnstrs dynGet filterPred).flatMap (opened false))

theorem selectPartitions_eq_ok {predCnstr : Option (CConstraint D)} {parts : List (CPartition X)}
    {selection result : CSelection D} :
    ctxt.selectPartitions pdrgpcrOutput predCnstr parts selection = .ok result ↔
      (∀ part ∈ parts, ∃ answer, ctxt.fSelected predCnstr
        (ctxt.pcnstrFromChildPartition pdrgpcrOutput part) = .ok answer) ∧
      let kept := parts.filter fun part => ctxt.fSelected predCnstr
        (ctxt.pcnstrFromChildPartition pdrgpcrOutput part) matches .ok true
      result = ⟨selection.selectedPartitionMdids ++ kept.map CPartition.partMdid,
        selection.selectedPartitionCnstrs ++
          kept.filterMap (ctxt.pcnstrFromChildPartition pdrgpcrOutput),
        selection.foreignServerMdids ++ kept.map CPartition.foreignServerMdid⟩ := by
  induction parts generalizing selection with
  | nil => simp [selectPartitions,eq_comm]
  | cons part parts ih =>
    rw [selectPartitions,forall_mem_cons]
    cases hsel : ctxt.fSelected predCnstr (ctxt.pcnstrFromChildPartition pdrgpcrOutput part) with
    | error fault => simp
    | ok answer =>
      cases answer with
      | false => simp [hsel,ih]
      | true =>
        simp only [hsel,ih,filter_cons_of_pos,map_cons,append_assoc,singleton_append]
        cases hrel : ctxt.pcnstrFromChildPartition pdrgpcrOutput part <;> simp [hrel]

variable {ctxt dynGet filterPred} {pruned : CPrunedSelect D}

/-- What pruning returns when it ends. -/
theorem prunePartitions_spec (h : ctxt.prunePartitions dynGet filterPred = .ok pruned) :
    (∀ part ∈ dynGet.partitions, ∃ answer, ctxt.fSelected (ctxt.predCnstr filterPred)
      (ctxt.relCnstr dynGet part) = .ok answer) ∧
    pruned.partitionMdids = (dynGet.partitions.filter (ctxt.fCompatible dynGet filterPred)).map
      CPartition.partMdid ∧
    pcnstrDisjunction ctxt.columns ctxt.columns.pciIntervalFromScalarExpr
      (ctxt.compatibleCnstrs dynGet filterPred) = .ok pruned.partitionCnstrsDisj := by
  obtain ⟨selection,hsel,h⟩ := bind_eq_ok.mp h
  obtain ⟨hans,rfl⟩ := (ctxt.selectPartitions_eq_ok _).mp hsel
  refine ⟨hans,?_⟩
  simp only [nil_append] at h
  split_ifs at h with hnil
  · cases h
    have hkept : dynGet.partitions.filter (ctxt.fCompatible dynGet filterPred) = [] :=
      map_eq_nil_iff.mp hnil
    refine ⟨hnil.symm,?_⟩
    rw [compatibleCnstrs,hkept]
    rfl
  · obtain ⟨disj,hdisj,h⟩ := bind_eq_ok.mp h
    cases h
    exact ⟨rfl,hdisj⟩

theorem exists_prunePartitions_iff :
    (∃ pruned, ctxt.prunePartitions dynGet filterPred = .ok pruned) ↔
    (∀ part ∈ dynGet.partitions, ∃ answer, ctxt.fSelected (ctxt.predCnstr filterPred)
      (ctxt.relCnstr dynGet part) = .ok answer) ∧
    ∃ answer, pcnstrDisjunction ctxt.columns ctxt.columns.pciIntervalFromScalarExpr
      (ctxt.compatibleCnstrs dynGet filterPred) = .ok answer := by
  constructor
  · rintro ⟨pruned,h⟩
    obtain ⟨hans,-,hdisj⟩ := prunePartitions_spec h
    exact ⟨hans,_,hdisj⟩
  · rintro ⟨hans,disj,hdisj⟩
    obtain ⟨selection,hsel⟩ : ∃ selection, ctxt.selectPartitions dynGet.pdrgpcrOutput
        (ctxt.predCnstr filterPred) dynGet.partitions ⟨[],[],[]⟩ = .ok selection :=
      ⟨_,(ctxt.selectPartitions_eq_ok _).mpr ⟨hans,rfl⟩⟩
    have hcnstrs : selection.selectedPartitionCnstrs = ctxt.compatibleCnstrs dynGet filterPred := by
      obtain ⟨-,rfl⟩ := (ctxt.selectPartitions_eq_ok _).mp hsel
      rfl
    by_cases hnil : selection.selectedPartitionMdids = []
    · exact ⟨_,bind_eq_ok.mpr ⟨selection,hsel,if_pos hnil⟩⟩
    · rw [← hcnstrs] at hdisj
      exact ⟨_,bind_eq_ok.mpr ⟨selection,hsel,(if_neg hnil).trans
        (bind_eq_ok.mpr ⟨disj,hdisj,rfl⟩)⟩⟩

/-! ### Soundness -/

variable (ctxt dynGet filterPred)

/-- The constraints derived from the filter and from the partitions' constraints, with intervals in
normal form, exclude no row that satisfies the predicate: one of which it is TRUE, or also one of
which it is NULL when NULLs are inferred. -/
structure Sound : Prop where
  filter : ∀ pcnstr ∈ ctxt.predCnstr filterPred, Normal pcnstr ∧
    ∀ row, eval ctxt.columns row filterPred = some true → pcnstr.Satisfied ctxt.columns row
  partitions : ∀ part ∈ dynGet.partitions, ∀ pcnstr ∈ ctxt.relCnstr dynGet part, Normal pcnstr ∧
    ∀ pexpr ∈ ctxt.partConstraintExpr dynGet.pdrgpcrOutput part,
      ∀ row, eval ctxt.columns row pexpr ≠ some false → pcnstr.Satisfied ctxt.columns row

/-- Each partition's rows make its constraint TRUE or NULL. -/
def Admissible (rows : ℕ → Multiset (TableRow D)) : Prop :=
  ∀ part ∈ dynGet.partitions, ∀ pexpr ∈ ctxt.partConstraintExpr dynGet.pdrgpcrOutput part,
    ∀ row ∈ rows part.partMdid, eval ctxt.columns row pexpr ≠ some false

variable {ctxt dynGet filterPred} {rows : ℕ → Multiset (TableRow D)} {part : CPartition X}
  {row : TableRow D} {pcnstr : CConstraint D}

theorem mem_compatibleCnstrs : pcnstr ∈ ctxt.compatibleCnstrs dynGet filterPred ↔
    ∃ part ∈ dynGet.partitions, ctxt.fCompatible dynGet filterPred part ∧
      pcnstr ∈ ctxt.relCnstr dynGet part := by
  simp [compatibleCnstrs,and_assoc]

section

variable (hsound : ctxt.Sound dynGet filterPred)

include hsound

theorem Sound.normal_preds (hpart : part ∈ dynGet.partitions) :
    ∀ pcnstr ∈ [ctxt.predCnstr filterPred,ctxt.relCnstr dynGet part].reduceOption,
      Normal pcnstr := by
  intro pcnstr hpc
  rw [reduceOption_mem_iff] at hpc
  simp only [mem_cons,not_mem_nil,or_false] at hpc
  rcases hpc with hpred | hrel
  · exact (hsound.filter pcnstr hpred.symm).1
  · exact (hsound.partitions part hpart pcnstr hrel.symm).1

theorem Sound.normal_compatibleCnstrs :
    ∀ pcnstr ∈ ctxt.compatibleCnstrs dynGet filterPred, Normal pcnstr := by
  intro pcnstr hpc
  obtain ⟨part,hpart,-,hrel⟩ := mem_compatibleCnstrs.mp hpc
  exact (hsound.partitions part hpart pcnstr hrel).1

theorem Sound.exists_fSelected (hpart : part ∈ dynGet.partitions) :
    (∃ answer, ctxt.fSelected (ctxt.predCnstr filterPred) (ctxt.relCnstr dynGet part) =
      .ok answer) ↔ ∀ pred ∈ ctxt.predCnstr filterPred, ∀ rel ∈ ctxt.relCnstr dynGet part,
        Renderable ctxt.columns ([pred, rel].flatMap (opened true)) := by
  have hmap : (∃ answer, ctxt.fSelected (ctxt.predCnstr filterPred) (ctxt.relCnstr dynGet part) =
      .ok answer) ↔ ∃ answer, pcnstrConjunction ctxt.columns ctxt.columns.pciIntervalFromScalarExpr
        [ctxt.predCnstr filterPred,ctxt.relCnstr dynGet part].reduceOption = .ok answer := by
    unfold fSelected
    cases pcnstrConjunction ctxt.columns ctxt.columns.pciIntervalFromScalarExpr
      [ctxt.predCnstr filterPred,ctxt.relCnstr dynGet part].reduceOption <;> simp [Except.map]
  rw [hmap]
  refine (exists_pcnstrConjDisj (hsound.normal_preds hpart)).trans ?_
  cases ctxt.predCnstr filterPred <;> cases ctxt.relCnstr dynGet part <;> simp

theorem Sound.exists_prunePartitions :
    (∃ pruned, ctxt.prunePartitions dynGet filterPred = .ok pruned) ↔
      ctxt.Writable dynGet filterPred := by
  rw [exists_prunePartitions_iff,pcnstrDisjunction,
    exists_pcnstrConjDisj hsound.normal_compatibleCnstrs]
  constructor
  · rintro ⟨hsel,hdisj⟩
    exact ⟨fun part hpart => (hsound.exists_fSelected hpart).mp (hsel part hpart),hdisj⟩
  · rintro ⟨hsel,hdisj⟩
    exact ⟨fun part hpart => (hsound.exists_fSelected hpart).mpr (hsel part hpart),hdisj⟩

variable (hadm : ctxt.Admissible dynGet rows) (hpart : part ∈ dynGet.partitions)
  (hrow : row ∈ rows part.partMdid)

include hadm hpart hrow

theorem Sound.relCnstr_satisfied (h : pcnstr ∈ ctxt.relCnstr dynGet part) :
    pcnstr.Satisfied ctxt.columns row := by
  have hspec := (hsound.partitions part hpart pcnstr h).2
  unfold relCnstr pcnstrFromChildPartition at h
  split at h
  · simp at h
  · next pexpr hpexpr => exact hspec pexpr hpexpr row (hadm part hpart pexpr hpexpr row hrow)

/-- A partition with a row that passes the filter is not ruled out. -/
theorem Sound.fCompatible {answer : Bool}
    (hans : ctxt.fSelected (ctxt.predCnstr filterPred) (ctxt.relCnstr dynGet part) = .ok answer)
    (hfil : eval ctxt.columns row filterPred = some true) :
    ctxt.fCompatible dynGet filterPred part := by
  have hsat : ∀ pcnstr ∈ [ctxt.predCnstr filterPred,ctxt.relCnstr dynGet part].reduceOption,
      pcnstr.Satisfied ctxt.columns row := by
    intro pcnstr hpc
    rw [reduceOption_mem_iff] at hpc
    simp only [mem_cons,not_mem_nil,or_false] at hpc
    rcases hpc with hpred | hrel
    · exact (hsound.filter pcnstr hpred.symm).2 row hfil
    · exact hsound.relCnstr_satisfied hadm hpart hrow hrel.symm
  obtain rfl : answer = true := by
    unfold fSelected at hans
    cases hconj : pcnstrConjunction ctxt.columns ctxt.columns.pciIntervalFromScalarExpr
        [ctxt.predCnstr filterPred,ctxt.relCnstr dynGet part].reduceOption with
    | error fault =>
      rw [hconj] at hans
      cases hans
    | ok pcnstr =>
      rw [hconj] at hans
      obtain rfl := Except.ok.inj hans
      cases pcnstr with
      | none => rfl
      | some pcnstr =>
        have hspec := (pcnstrConjDisj_spec (hsound.normal_preds hpart) hconj).2 row
        rw [Bool.not_eq_true',Bool.eq_false_iff]
        intro hctr
        exact not_satisfied_of_fContradiction hctr (hspec.mpr hsat)
  rw [CPartitionContext.fCompatible,hans]

end

/-- The rows that pass the filter, from the partitions with the given ids. -/
def filteredRows (ctxt : CPartitionContext D X) (rows : ℕ → Multiset (TableRow D))
    (filterPred : CTableExpr D) (mdids : List ℕ) : Multiset (TableRow D) :=
  (mdids.map rows).sum.filter fun row => eval ctxt.columns row filterPred = some true

theorem filteredRows_cons (mdid : ℕ) (mdids : List ℕ) :
    filteredRows ctxt rows filterPred (mdid :: mdids) =
      (rows mdid).filter (fun row => eval ctxt.columns row filterPred = some true) +
        filteredRows ctxt rows filterPred mdids := by
  simp only [filteredRows,map_cons,sum_cons,Multiset.filter_add]

/-- Pruning ends exactly when the predicates it asks for can be written, and then the scanned
partitions hold every row that passes the filter. -/
theorem Sound.filteredRows_prunePartitions (hsound : ctxt.Sound dynGet filterPred)
    (hadm : ctxt.Admissible dynGet rows) :
    (∃ pruned, ctxt.prunePartitions dynGet filterPred = .ok pruned ∧
      filteredRows ctxt rows filterPred pruned.partitionMdids =
        filteredRows ctxt rows filterPred (dynGet.partitions.map CPartition.partMdid)) ↔
      ctxt.Writable dynGet filterPred := by
  rw [← hsound.exists_prunePartitions]
  refine exists_congr fun pruned => and_iff_left_of_imp fun h => ?_
  obtain ⟨hans,hmdids,-⟩ := prunePartitions_spec h
  have hnone : ∀ part ∈ dynGet.partitions, ¬ ctxt.fCompatible dynGet filterPred part →
      (rows part.partMdid).filter
        (fun row => eval ctxt.columns row filterPred = some true) = 0 := by
    intro part hpart hcom
    refine Multiset.filter_eq_nil.mpr fun row hrow hfil => hcom ?_
    obtain ⟨answer,hans⟩ := hans part hpart
    exact hsound.fCompatible hadm hpart hrow hans hfil
  rw [hmdids]
  generalize dynGet.partitions = parts at hnone ⊢
  induction parts with
  | nil => rfl
  | cons part parts ih =>
    rw [forall_mem_cons] at hnone
    rw [map_cons,filteredRows_cons,← ih hnone.2,filter_cons]
    split_ifs with hsel
    · rw [map_cons,filteredRows_cons]
    · rw [hnone.1 hsel,zero_add]

end CPartitionContext

/-! ### A table with a partition that has no constraint -/

namespace UpperBounds

open CPartitionContext
open TwoBounds (Numbers columns)

def below (colref bound : ℕ) : CTableExpr Numbers :=
  onColumn colref (.scalarCmp .ecmptL .scalarIdent (.scalarConst (some bound)))

def belowInterval (bound : ℕ) (fIncludesNull : Bool) : CConstraintInterval (IDatum ℕ) :=
  ⟨[.ofCmp .ecmptL (bound : IDatum ℕ)], fIncludesNull⟩

/-- Constraints are derived from predicates over one column, with the intervals that the extraction
finds. A partition's constraint is an upper bound of its column 1. -/
def ctxt : CPartitionContext Numbers ℕ where
  columns := columns
  pcnstrFromScalarExpr := fun pexpr inferNullsAs accessMethod =>
    match pexpr with
    | onColumn colref pexpr =>
      match CConstraintInterval.pciIntervalFromScalarExpr (columns.settings colref)
          (columns.md colref) inferNullsAs accessMethod pexpr with
      | .ok (some pci) => some (.interval colref pci)
      | _ => none
    | _ => none
  pexprTranslateScalar := fun bound pdrgpcrOutput mappedColids =>
    match (pdrgpcrOutput.zip mappedColids).find? fun pair => pair.2 = 1 with
    | some pair => below pair.1 bound
    | none => .scalarConst none

theorem eval_below (colref bound : ℕ) (row : TableRow Numbers) :
    eval columns row (below colref bound) = (row colref).map fun v : ℕ => decide (v < bound) := by
  cases h : row colref <;>
    simp [below,eval,CScalarExpr.eval,COperand.eval,ECmpType.compare,h]

theorem normalForm_belowInterval (colref bound : ℕ) (fIncludesNull : Bool) :
    @CConstraintInterval.NormalForm Numbers _ colref (belowInterval bound fIncludesNull) := by
  refine ⟨?_,by simp [belowInterval,CRange.ofCmp,CConstraintInterval.EndsIn,CRange.EndsIn]⟩
  simp [belowInterval,CRange.ofCmp,CConstraintInterval.WellFormed,ordered_cons,CRange.lo,CRange.hi,
    CRange.cutLeft,CRange.cutRight,StartAfter]

theorem satisfied_belowInterval {colref bound : ℕ} {fIncludesNull : Bool} {row : TableRow Numbers} :
    (CConstraint.interval (D := Numbers) colref (belowInterval bound fIncludesNull)).Satisfied
        columns row ↔
      (row colref).elim (fIncludesNull : Prop) (· < bound) := by
  rw [satisfied_interval (normalForm_belowInterval _ _ _)]
  cases row colref with
  | none => rfl
  | some v =>
    refine CConstraintInterval.inRanges_singleton.trans ?_
    simp only [CRange.ofCmp,CRange.Holds,Option.not_mem_none,Option.mem_some_iff,false_imp_iff,
      implies_true,forall_eq',true_and,reduceCtorEq,if_false]
    exact WithBot.coe_lt_coe

theorem pcnstrFromScalarExpr_below (colref bound : ℕ) (inferNullsAs : Bool) :
    ctxt.pcnstrFromScalarExpr (below colref bound) inferNullsAs .emdindBtree =
      some (.interval colref (belowInterval bound inferNullsAs)) := rfl

theorem normal_below (colref bound : ℕ) (fIncludesNull : Bool) :
    Normal (CConstraint.interval (D := Numbers) colref (belowInterval bound fIncludesNull)) :=
  .interval (normalForm_belowInterval colref bound fIncludesNull)

/-- The predicates of a table without constraints on arrays can be written. -/
theorem renderable {pdrgpcnstr : List (CConstraint Numbers)}
    (h : ∀ pcnstr ∈ pdrgpcnstr, Normal pcnstr) : Renderable columns pdrgpcnstr := by
  intro colref _ pcnstr hcol
  exact ((h pcnstr (mem_pdrgpcnstrOnColumn.mp hcol).1).exists_pexprScalar columns).1

theorem writable {get : CLogicalDynamicGet ℕ} {filterPred : CTableExpr Numbers}
    (h : ctxt.Sound get filterPred) : ctxt.Writable get filterPred where
  conjunction part hpart pred hpred rel hrel := by
    refine renderable (normal_opened ?_ true)
    simpa using ⟨(h.filter pred hpred).1,(h.partitions part hpart rel hrel).1⟩
  disjunction _ := renderable (normal_opened h.normal_compatibleCnstrs false)

theorem partConstraintExpr_eq {pdrgpcrOutput : List ℕ} {part : CPartition ℕ}
    {pexpr : CTableExpr Numbers} (h : ctxt.partConstraintExpr pdrgpcrOutput part = some pexpr) :
    pexpr = .scalarConst none ∨ ∃ colref bound, pexpr = below colref bound := by
  obtain ⟨bound,-,rfl⟩ := Option.map_eq_some_iff.mp h
  simp only [ctxt]
  split
  · exact .inr ⟨_,_,rfl⟩
  · exact .inl rfl

theorem sound (get : CLogicalDynamicGet ℕ) (colref bound : ℕ) :
    ctxt.Sound get (below colref bound) where
  filter := by
    intro pcnstr hpc
    cases (pcnstrFromScalarExpr_below colref bound false).symm.trans hpc
    refine ⟨normal_below colref bound false,fun row heval => satisfied_belowInterval.mpr ?_⟩
    rw [show ctxt.columns = columns from rfl,eval_below] at heval
    cases hrow : row colref <;> simp_all
  partitions := by
    intro part _ pcnstr hpc
    cases hpexpr : ctxt.partConstraintExpr get.pdrgpcrOutput part with
    | none => simp [relCnstr,pcnstrFromChildPartition,hpexpr] at hpc
    | some pexpr =>
      simp only [relCnstr,pcnstrFromChildPartition,hpexpr] at hpc
      rcases partConstraintExpr_eq hpexpr with rfl | ⟨colref,bound,rfl⟩
      · cases hpc
      · cases (pcnstrFromScalarExpr_below colref bound true).symm.trans hpc
        refine ⟨normal_below colref bound true,?_⟩
        simp only [Option.mem_some_iff,forall_eq']
        intro row heval
        rw [show ctxt.columns = columns from rfl,eval_below] at heval
        refine satisfied_belowInterval.mpr ?_
        cases hrow : row colref <;> simp_all

/-- One partition below ten, and one without a constraint. -/
def dynGet : CLogicalDynamicGet ℕ :=
  ⟨[0], [⟨0, 0, some 10, fun _ => 1⟩, ⟨1, 0, none, fun _ => 0⟩]⟩

def rows (mdid : ℕ) : Multiset (TableRow Numbers) :=
  if mdid = 0 then {fun _ => some 3} else {fun _ => some 50}

theorem admissible : ctxt.Admissible dynGet rows := by
  intro part hpart pexpr hpexpr row hrow
  simp only [dynGet,mem_cons,not_mem_nil,or_false] at hpart
  rcases hpart with rfl | rfl
  · obtain rfl : below 0 10 = pexpr := Option.some.inj hpexpr
    obtain rfl := Multiset.mem_singleton.mp hrow
    rw [show ctxt.columns = columns from rfl,eval_below]
    simp
  · cases hpexpr

theorem filteredRows_below : ∃ pruned, ctxt.prunePartitions dynGet (below 0 100) = .ok pruned ∧
    filteredRows ctxt rows (below 0 100) pruned.partitionMdids =
      filteredRows ctxt rows (below 0 100) [0, 1] :=
  ((sound dynGet 0 100).filteredRows_prunePartitions admissible).mpr (writable (sound dynGet 0 100))

end UpperBounds

end PgOrca
