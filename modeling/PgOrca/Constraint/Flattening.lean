import PgOrca.Constraint.Combination

/-!
# Rows lost by flattening

Where the constraints on one column cannot be combined, the first stands for the others. This
drops conditions of a conjunction, but alternatives of a disjunction.
-/

namespace PgOrca

open List

variable {D : ℕ → Type*} [∀ colref, LinearOrder (D colref)]

namespace CConstraint

/-! ## Two-valued satisfaction -/

mutual

/-- The value of the column is in the interval, and the connectives are two-valued. -/
def Holds (row : TableRow D) : CConstraint D → Prop
  | interval colref pci => pci.Contains (row colref)
  | conjunction pdrgpcnstr => AllHold row pdrgpcnstr
  | disjunction pdrgpcnstr => AnyHolds row pdrgpcnstr
  | negation pcnstr => ¬ Holds row pcnstr

def AllHold (row : TableRow D) : List (CConstraint D) → Prop
  | [] => True
  | pcnstr :: pdrgpcnstr => Holds row pcnstr ∧ AllHold row pdrgpcnstr

def AnyHolds (row : TableRow D) : List (CConstraint D) → Prop
  | [] => False
  | pcnstr :: pdrgpcnstr => Holds row pcnstr ∨ AnyHolds row pdrgpcnstr

end

variable {row : TableRow D} {pdrgpcnstr : List (CConstraint D)}

theorem holds_conjunction :
    (conjunction pdrgpcnstr).Holds row ↔ ∀ pcnstr ∈ pdrgpcnstr, pcnstr.Holds row := by
  rw [Holds]
  induction pdrgpcnstr with
  | nil => simp [AllHold]
  | cons pcnstr pdrgpcnstr ih => rw [AllHold,ih,forall_mem_cons]

theorem holds_disjunction :
    (disjunction pdrgpcnstr).Holds row ↔ ∃ pcnstr ∈ pdrgpcnstr, pcnstr.Holds row := by
  rw [Holds]
  induction pdrgpcnstr with
  | nil => simp [AnyHolds]
  | cons pcnstr pdrgpcnstr ih => rw [AnyHolds,ih,exists_mem_cons_iff]

theorem forall_mem_opened (pdrgpcnstr : List (CConstraint D)) :
    (∀ child ∈ pdrgpcnstr.flatMap (opened true), child.Holds row) ↔
      ∀ pcnstr ∈ pdrgpcnstr, pcnstr.Holds row := by
  simp only [mem_flatMap,forall_exists_index,and_imp]
  rw [forall_comm]
  refine forall_congr' fun pcnstr => ?_
  cases pcnstr with
  | conjunction children => simp [opened,holds_conjunction]; grind
  | interval | disjunction | negation => simp [opened]

theorem exists_mem_opened (pdrgpcnstr : List (CConstraint D)) :
    (∃ child ∈ pdrgpcnstr.flatMap (opened false), child.Holds row) ↔
      ∃ pcnstr ∈ pdrgpcnstr, pcnstr.Holds row := by
  simp only [mem_flatMap]
  constructor
  · rintro ⟨child,⟨pcnstr,hmem,hch⟩,hrow⟩
    refine ⟨pcnstr,hmem,?_⟩
    cases pcnstr with
    | disjunction children => exact holds_disjunction.mpr ⟨child,hch,hrow⟩
    | interval | conjunction | negation => simp_all [opened]
  · rintro ⟨pcnstr,hmem,hrow⟩
    cases pcnstr with
    | disjunction children =>
      obtain ⟨child,hch,hrow⟩ := holds_disjunction.mp hrow
      exact ⟨child,⟨_,hmem,hch⟩,hrow⟩
    | interval | conjunction | negation => exact ⟨_,⟨_,hmem,by simp [opened]⟩,hrow⟩

/-! ## Flattening -/

variable (columns : CTableColumns D)

section

variable (pciIntervalFromScalarExpr : ∀ colref, CTableExpr D →
  Except Fault (Option (CConstraintInterval (IDatum (D colref)))))

/-- The constructors of conjunctions and disjunctions lose no row of their children. -/
structure FlattenKeepsRows (pdrgpcnstr : List (CConstraint D)) : Prop where
  conjunction : ∃ children,
    pdrgpcnstrFlatten columns pciIntervalFromScalarExpr true pdrgpcnstr = .ok children ∧
      ∀ row, (∀ pcnstr ∈ pdrgpcnstr, pcnstr.Holds row) → (conjunction children).Holds row
  disjunction : ∃ children,
    pdrgpcnstrFlatten columns pciIntervalFromScalarExpr false pdrgpcnstr = .ok children ∧
      ∀ row, (∃ pcnstr ∈ pdrgpcnstr, pcnstr.Holds row) → (disjunction children).Holds row

/-- What is assumed of the conversion of an expression to an interval: it answers, and an interval
contains every value at which the expression is TRUE. -/
def ContainsTrueValues : Prop :=
  ∀ colref pexpr, ∃ answer, pciIntervalFromScalarExpr colref pexpr = .ok answer ∧
    ∀ pci ∈ answer, ∀ row, CTableExpr.eval columns row pexpr = some true → pci.Contains (row colref)

end

/-- The scalar forms of the constraints that are flattened are TRUE where they hold. -/
def ScalarForms (pdrgpcnstr : List (CConstraint D)) : Prop :=
  ∀ fConj, ∀ pcnstr ∈ pdrgpcnstr.flatMap (opened fConj),
    ∀ pexpr, pcnstr.pexprScalar columns = .ok pexpr →
      ∀ row, pcnstr.Holds row → CTableExpr.eval columns row pexpr = some true

omit [∀ colref, LinearOrder (D colref)] in
/-- The constraint uses several columns, or it is the first on its column. -/
def Stays (pdrgpcnstr : List (CConstraint D)) (pcnstr : CConstraint D) : Prop :=
  ∀ colref, pcnstr.pcrsUsed = [colref] →
    (pdrgpcnstrOnColumn pdrgpcnstr colref).head? = some pcnstr

variable {columns} {pciIntervalFromScalarExpr : ∀ colref, CTableExpr D →
  Except Fault (Option (CConstraintInterval (IDatum (D colref))))} {kept : List (CConstraint D)}
  {pcnstr : CConstraint D}

/-- The interval that stands for the conjuncts on a column contains what they have in common. -/
theorem holds_combined_conj (hconv : ContainsTrueValues columns pciIntervalFromScalarExpr)
    {colref : ℕ}
    (hcom : combined columns pciIntervalFromScalarExpr true pdrgpcnstr colref = .ok (some pcnstr))
    (hforms : ∀ child ∈ pdrgpcnstrOnColumn pdrgpcnstr colref,
      ∀ e, child.pexprScalar columns = .ok e → CTableExpr.eval columns row e = some true) :
    pcnstr.Holds row := by
  obtain ⟨pexpr,hpexpr,hcom⟩ := bind_eq_ok.mp hcom
  obtain ⟨answer,hans,hcont⟩ := hconv colref pexpr
  rw [hans] at hcom
  obtain ⟨pci,rfl,rfl⟩ := Option.map_eq_some_iff.mp (Except.ok.inj hcom)
  exact hcont pci rfl row ((eval_pexprScalarConj hpexpr).mpr hforms)

theorem holds_combined_disj (hconv : ContainsTrueValues columns pciIntervalFromScalarExpr)
    {colref : ℕ} {child : CConstraint D}
    (hcom : combined columns pciIntervalFromScalarExpr false pdrgpcnstr colref = .ok (some pcnstr))
    (hch : child ∈ pdrgpcnstrOnColumn pdrgpcnstr colref)
    (hform : ∀ e, child.pexprScalar columns = .ok e → CTableExpr.eval columns row e = some true) :
    pcnstr.Holds row := by
  obtain ⟨pexpr,hpexpr,hcom⟩ := bind_eq_ok.mp hcom
  obtain ⟨answer,hans,hcont⟩ := hconv colref pexpr
  rw [hans] at hcom
  obtain ⟨pci,rfl,rfl⟩ := Option.map_eq_some_iff.mp (Except.ok.inj hcom)
  exact hcont pci rfl row ((eval_pexprScalarDisj hpexpr).mpr ⟨child,hch,hform⟩)

theorem exists_flatten (hconv : ContainsTrueValues columns pciIntervalFromScalarExpr)
    (fConj : Bool) :
    (∃ children, pdrgpcnstrFlatten columns pciIntervalFromScalarExpr fConj pdrgpcnstr =
        .ok children) ↔ Renderable columns (pdrgpcnstr.flatMap (opened fConj)) :=
  exists_pdrgpcnstrDeduplicate columns _ fun colref pexpr _ => by
    obtain ⟨answer,hans,-⟩ := hconv colref pexpr
    exact ⟨answer,hans⟩

theorem holds_conjunction_flatten (hconv : ContainsTrueValues columns pciIntervalFromScalarExpr)
    (hforms : ScalarForms columns pdrgpcnstr)
    (hkept : pdrgpcnstrFlatten columns pciIntervalFromScalarExpr true pdrgpcnstr = .ok kept)
    (hrow : ∀ pcnstr ∈ pdrgpcnstr, pcnstr.Holds row) : (conjunction kept).Holds row := by
  have hop := (forall_mem_opened pdrgpcnstr).mpr hrow
  apply holds_conjunction.mpr
  intro pcnstr hpc
  rcases mem_or_combined hkept hpc with hmem | ⟨colref,merged,-,hmg,hnone,hsome⟩
  · exact hop pcnstr hmem
  · cases merged with
    | none => exact hop pcnstr (hnone rfl)
    | some merged =>
      rw [hsome merged rfl]
      refine holds_combined_conj hconv hmg fun child hch e he => ?_
      have hmem := (mem_pdrgpcnstrOnColumn.mp hch).1
      exact hforms true child hmem e he row (hop child hmem)

theorem holds_disjunction_flatten (hconv : ContainsTrueValues columns pciIntervalFromScalarExpr)
    (hforms : ScalarForms columns pdrgpcnstr)
    (hkept : pdrgpcnstrFlatten columns pciIntervalFromScalarExpr false pdrgpcnstr = .ok kept)
    (hmem : pcnstr ∈ pdrgpcnstr.flatMap (opened false))
    (hstays : Stays (pdrgpcnstr.flatMap (opened false)) pcnstr) (hrow : pcnstr.Holds row) :
    (disjunction kept).Holds row := by
  apply holds_disjunction.mpr
  rcases kept_or_combined hkept hmem with hpc | ⟨colref,first,merged,hcol,-,hfst,hmg,hpc⟩
  · exact ⟨pcnstr,hpc,hrow⟩
  · refine ⟨_,hpc,?_⟩
    cases merged with
    | none =>
      obtain rfl := Option.some.inj
        ((hstays colref (mem_pdrgpcnstrOnColumn.mp hcol).2).symm.trans hfst)
      exact hrow
    | some merged =>
      exact holds_combined_disj hconv hmg hcol fun e he => hforms false pcnstr hmem e he row hrow

/-- The conversion that never succeeds. -/
def noInterval (colref : ℕ) (_ : CTableExpr D) :
    Except Fault (Option (CConstraintInterval (IDatum (D colref)))) := .ok none

theorem containsTrueValues_noInterval : ContainsTrueValues columns noInterval := by
  intro colref pexpr
  exact ⟨none,rfl,by simp⟩

/-- Without conversions, only what stays is kept. -/
theorem stays_of_noInterval
    (hkept : pdrgpcnstrDeduplicate columns noInterval false pdrgpcnstr = .ok kept)
    (hpc : pcnstr ∈ kept) : pcnstr ∈ pdrgpcnstr ∧ Stays pdrgpcnstr pcnstr := by
  rcases (mem_deduplicateLoop columns _ _ _ hkept).mp hpc with
    ⟨hmem,halone⟩ | ⟨colref,-,-,first,merged,hfst,hmg,rfl⟩
  · refine ⟨hmem,fun colref hused => ?_⟩
    obtain ⟨only,honly⟩ := length_eq_one_iff.mp (halone colref hused).2
    have hcol := mem_pdrgpcnstrOnColumn.mpr ⟨hmem,hused⟩
    rw [honly,mem_singleton] at hcol
    rw [honly,hcol,head?_cons]
  · obtain ⟨pexpr,-,hmg⟩ := bind_eq_ok.mp hmg
    obtain rfl : none = merged := Except.ok.inj hmg
    obtain ⟨hmem,hused⟩ := mem_pdrgpcnstrOnColumn.mp (mem_of_mem_head? hfst)
    refine ⟨hmem,fun colref' hused' => ?_⟩
    cases hused.symm.trans hused'
    exact hfst

/-- Flattening loses no row, whichever conversions succeed, exactly when the predicates it asks for
can be written and the disjuncts that are not the first on their column add no row. -/
theorem flattenKeepsRows_iff (columns : CTableColumns D) (pdrgpcnstr : List (CConstraint D))
    (hforms : ScalarForms columns pdrgpcnstr) :
    (∀ pciIntervalFromScalarExpr, ContainsTrueValues columns pciIntervalFromScalarExpr →
      FlattenKeepsRows columns pciIntervalFromScalarExpr pdrgpcnstr) ↔
      (∀ fConj, Renderable columns (pdrgpcnstr.flatMap (opened fConj))) ∧
        ∀ pcnstr ∈ pdrgpcnstr.flatMap (opened false), ∀ row, pcnstr.Holds row →
          ∃ pcnstr' ∈ pdrgpcnstr.flatMap (opened false),
            Stays (pdrgpcnstr.flatMap (opened false)) pcnstr' ∧ pcnstr'.Holds row := by
  constructor
  · intro h
    obtain ⟨⟨conjuncts,hconj,-⟩,disjuncts,hdisj,hrows⟩ := h noInterval containsTrueValues_noInterval
    refine ⟨fun fConj => ?_,fun pcnstr hmem row hrow => ?_⟩
    · apply (exists_flatten containsTrueValues_noInterval fConj).mp
      cases fConj with
      | true => exact ⟨conjuncts,hconj⟩
      | false => exact ⟨disjuncts,hdisj⟩
    · obtain ⟨pcnstr',hpc,hrow'⟩ := holds_disjunction.mp
        (hrows row ((exists_mem_opened pdrgpcnstr).mp ⟨pcnstr,hmem,hrow⟩))
      obtain ⟨hmem',hstays⟩ := stays_of_noInterval hdisj hpc
      exact ⟨pcnstr',hmem',hstays,hrow'⟩
  · rintro ⟨hrend,hcov⟩ conv hconv
    obtain ⟨conjuncts,hconj⟩ := (exists_flatten hconv true).mpr (hrend true)
    obtain ⟨disjuncts,hdisj⟩ := (exists_flatten hconv false).mpr (hrend false)
    refine ⟨⟨conjuncts,hconj,fun row => holds_conjunction_flatten hconv hforms hconj⟩,
      disjuncts,hdisj,fun row hrow => ?_⟩
    obtain ⟨pcnstr,hmem,hrow⟩ := (exists_mem_opened pdrgpcnstr).mpr hrow
    obtain ⟨pcnstr',hmem',hstays,hrow'⟩ := hcov pcnstr hmem row hrow
    exact holds_disjunction_flatten hconv hforms hdisj hmem' hstays hrow'

end CConstraint

/-! ## Two bounds -/

namespace TwoBounds

open CConstraint

abbrev Numbers : ℕ → Type := fun _ => ℕ

variable {row : TableRow Numbers}

def columns : CTableColumns Numbers := plainColumns Numbers false true

def below (colref bound : ℕ) : CConstraint Numbers :=
  interval colref ⟨[⟨none, .eriExcluded, some ((bound : ℕ) : IDatum ℕ), .eriExcluded⟩], false⟩

theorem holds_below {colref bound : ℕ} :
    (below colref bound).Holds row ↔ ∃ v < bound, row colref = some v := by
  rw [below,Holds]
  cases h : row colref with
  | none => simp [CConstraintInterval.Contains]
  | some v =>
    simp [CConstraintInterval.Contains,CRange.Holds]
    exact WithBot.coe_lt_coe

theorem pexprScalar_below (colref bound : ℕ) : (below colref bound).pexprScalar columns =
    .ok (pexprScalarCmp colref ((bound : ℕ) : IDatum ℕ) .ecmptL) := rfl

theorem eval_below {colref bound : ℕ} (hrow : (below colref bound).Holds row) :
    CTableExpr.eval columns row (pexprScalarCmp colref ((bound : ℕ) : IDatum ℕ) .ecmptL) =
      some true := by
  obtain ⟨v,hv,hval⟩ := holds_below.mp hrow
  simp [pexprScalarCmp,CTableExpr.eval,CScalarExpr.eval,COperand.eval,ECmpType.compare,hval,hv]

theorem scalarForms (colref bound colref' bound' : ℕ) :
    ScalarForms columns [below colref bound, below colref' bound'] := by
  intro fConj pcnstr hmem pexpr hpexpr row hrow
  have hop : pcnstr ∈ [below colref bound,below colref' bound'] := by
    cases fConj <;> exact hmem
  simp only [mem_cons,not_mem_nil,or_false] at hop
  rcases hop with rfl | rfl
  · cases (pexprScalar_below _ _).symm.trans hpexpr
    exact eval_below hrow
  · cases (pexprScalar_below _ _).symm.trans hpexpr
    exact eval_below hrow

/-- Of `a < 1 OR a < 2` only the first disjunct is left. -/
theorem not_flattenKeepsRows :
    ScalarForms columns [below 0 1, below 0 2] ∧ ContainsTrueValues columns noInterval ∧
      ¬ FlattenKeepsRows columns noInterval [below 0 1, below 0 2] := by
  refine ⟨scalarForms 0 1 0 2,containsTrueValues_noInterval,fun h => ?_⟩
  obtain ⟨children,hchildren,hrows⟩ := h.disjunction
  obtain rfl : [below 0 1] = children := Except.ok.inj hchildren
  have hrow := hrows (fun _ => some 1) ⟨below 0 2,by simp,holds_below.mpr ⟨1,by decide,rfl⟩⟩
  rw [holds_disjunction] at hrow
  simp [holds_below] at hrow

theorem flattenKeepsRows_twoColumns : ScalarForms columns [below 0 1, below 1 2] ∧
    ∀ pciIntervalFromScalarExpr, ContainsTrueValues columns pciIntervalFromScalarExpr →
      FlattenKeepsRows columns pciIntervalFromScalarExpr [below 0 1, below 1 2] := by
  refine ⟨scalarForms 0 1 1 2,(flattenKeepsRows_iff columns _ (scalarForms 0 1 1 2)).mpr
    ⟨fun fConj colref hlen pcnstr hmem => ?_,fun pcnstr hmem row hrow => ⟨pcnstr,hmem,?_,hrow⟩⟩⟩
  · obtain ⟨hmem,-⟩ := mem_pdrgpcnstrOnColumn.mp hmem
    have hop : pcnstr ∈ [below 0 1,below 1 2] := by
      cases fConj <;> exact hmem
    simp only [mem_cons,not_mem_nil,or_false] at hop
    rcases hop with rfl | rfl
    · exact ⟨_,pexprScalar_below 0 1⟩
    · exact ⟨_,pexprScalar_below 1 2⟩
  · intro colref hused
    have hop : pcnstr ∈ [below 0 1,below 1 2] := hmem
    simp only [mem_cons,not_mem_nil,or_false] at hop
    rcases hop with rfl | rfl
    · cases hused
      rfl
    · cases hused
      rfl

end TwoBounds

end PgOrca
