import PgOrca.Constraint.ScalarExpr

/-!
# Extracting an interval from a predicate

The interval of `PciIntervalFromScalarExpr` is characterised by the *reading* of the predicate:
what skipped conjuncts, complements and NULL constants make of it.
-/

namespace PgOrca

open List CRange

variable {D : Type*} [LinearOrder D]

/-- A datum of the column's type. The comparator puts NULL before all others. -/
abbrev IDatum (D : Type*) := WithBot D

/-- A run that does not come back with an answer. -/
inductive Fault where
  | nullDereference
  | assertion
  deriving DecidableEq, Repr

/-- The traces and the metadata consulted by the extraction. -/
structure CSettings (D : Type*) where
  fArrayConstraints : Bool
  fConsiderOpfamilies : Bool
  fOpInOpfamily : COperand D → CScalarExpr D → EmdindexType → Bool

open ERangeInclusion

variable (cmpType : ECmpType) (datum : IDatum D)

/-- The range of the values that compare to the datum as the operator asks. -/
def CRange.ofCmp : CRange (IDatum D) :=
  match cmpType with
  | .ecmptEq => ⟨some datum, eriIncluded, some datum, eriIncluded⟩
  | .ecmptL => ⟨none, eriExcluded, some datum, eriExcluded⟩
  | .ecmptLEq => ⟨none, eriExcluded, some datum, eriIncluded⟩
  | .ecmptG => ⟨some datum, eriExcluded, none, eriExcluded⟩
  | .ecmptGEq => ⟨some datum, eriIncluded, none, eriExcluded⟩
  | _ => ⟨none, eriExcluded, none, eriExcluded⟩

/-- The elements of the array that are not NULL, in order and each one once. -/
def dedupSorted : List D → List D
  | [] => []
  | datum :: rest => datum :: go datum rest
where
  go (prev : D) : List D → List D
    | [] => []
    | datum :: rest => if datum ≠ prev then datum :: go datum rest else go prev rest

variable (elements : List (Option D))

def datumSortedSet : List D :=
  dedupSorted (elements.reduceOption.insertionSort (· ≤ ·))

def inRanges (data : List D) : List (CRange (IDatum D)) :=
  data.map fun datum : D => CRange.ofCmp .ecmptEq (datum : IDatum D)

/-- The ranges between consecutive data, from the one to the left of the first
to the one to the right of the last. -/
def notInRanges (pprevdatum : Option (IDatum D)) : List D → List (CRange (IDatum D))
  | [] => [⟨pprevdatum, eriExcluded, none, eriExcluded⟩]
  | datum :: rest =>
    ⟨pprevdatum, eriExcluded, some (datum : IDatum D), eriExcluded⟩ ::
      notInRanges (some (datum : IDatum D)) rest

variable (pcis : List (CConstraintInterval (IDatum D)))

namespace CConstraintInterval

def Contains (pci : CConstraintInterval (IDatum D)) : Option D → Prop
  | none => pci.fIncludesNull
  | some v => InRanges pci.pdrgprng (v : IDatum D)

instance (pci : CConstraintInterval (IDatum D)) (value : Option D) :
    Decidable (pci.Contains value) := by
  cases value with
  | none => exact inferInstanceAs (Decidable (pci.fIncludesNull = true))
  | some v => exact inferInstanceAs (Decidable (∃ r ∈ pci.pdrgprng, r.Holds (v : IDatum D)))

def pciUnbounded (colref : CColRef D) (fIncludesNull : Bool) :
    Option (CConstraintInterval (IDatum D)) :=
  if colref.fConstrainableType then
    match colref.fBool with
    | some iso =>
      some ⟨[⟨some (iso.symm false : IDatum D),eriIncluded,some (iso.symm true : IDatum D),
        eriIncluded⟩], fIncludesNull⟩
    | none => some ⟨[⟨none, eriExcluded, none, eriExcluded⟩], fIncludesNull⟩
  else none

def pciComplement (colref : CColRef D) (this : CConstraintInterval (IDatum D)) :
    Except Fault (CConstraintInterval (IDatum D)) :=
  match pciUnbounded colref true with
  | some pciUniversal => .ok (pciUniversal.pciDifference this)
  | none => .error .nullDereference

def pciRangeFromColConstCmp : Option (List (CRange (IDatum D))) :=
  match cmpType with
  | .ecmptOther => none
  | .ecmptNEq | .ecmptIDF => some [.ofCmp .ecmptL datum, .ofCmp .ecmptG datum]
  | _ => some [.ofCmp cmpType datum]

def pciIntervalFromScalarIdent (colref : CColRef D) (inferNullsAs : Bool) :
    Except Fault (Option (CConstraintInterval (IDatum D))) :=
  match colref.fBool with
  | some iso => .ok (some ⟨[.ofCmp .ecmptEq (iso.symm true : IDatum D)], inferNullsAs⟩)
  | none => .error .assertion

def pciIntervalFromScalarNullTest (child : COperand D) : Option (CConstraintInterval (IDatum D)) :=
  match child with
  | .scalarIdent => some ⟨[], true⟩
  | _ => none

/-- `FCompareIdentToConst`, with the constant. -/
def compareIdentToConst : COperand D → COperand D → Option (Option D)
  | .scalarIdent, .scalarConst datum => some datum
  | .scalarIdent, .castedConst datum => some datum
  | .castedScId, .scalarConst datum => some datum
  | .castedScId, .castedConst datum => some datum
  | _, _ => none

def fOpInOpfamilies (settings : CSettings D) (cmpType : ECmpType) (left right : COperand D)
    (accessMethod : EmdindexType) : Bool :=
  !settings.fConsiderOpfamilies ||
    (settings.fOpInOpfamily left (.scalarCmp cmpType left right) accessMethod &&
      settings.fOpInOpfamily right (.scalarCmp cmpType left right) accessMethod)

def pciIntervalFromScalarCmp (settings : CSettings D) (cmpType : ECmpType) (left right : COperand D)
    (inferNullsAs : Bool) (accessMethod : EmdindexType) : Option (CConstraintInterval (IDatum D)) :=
  match compareIdentToConst left right with
  | none => none
  | some datum =>
    if fOpInOpfamilies settings cmpType left right accessMethod then
      (pciRangeFromColConstCmp cmpType datum).map fun ranges => ⟨ranges, inferNullsAs⟩
    else none

def pciIntervalFromScalarIDF (colref : CColRef D) (left right : COperand D) :
    Except Fault (Option (CConstraintInterval (IDatum D))) :=
  match left, right with
  | .scalarIdent, .scalarConst none => (pciComplement colref ⟨[], true⟩).map some
  | .scalarIdent, .scalarConst (some datum) =>
    .ok ((pciRangeFromColConstCmp .ecmptIDF (datum : IDatum D)).map fun ranges => ⟨ranges, true⟩)
  | _, _ => .ok none

/-- `FCompareIdentToConstArray` or `FCompareCastIdentToConstArray`, with the
elements of the array. -/
def compareIdentToConstArray : COperand D → CArrayOperand D → Option (List (Option D))
  | .scalarIdent, .scalarConstArray false elements => some elements
  | .castedScId, .scalarConstArray _ elements => some elements
  | _, _ => none

/-- Neither the quantifier of the comparison nor the NULLs of the array are
looked at. Without a single datum there is no last one to start from. -/
def pcnstrIntervalFromScalarArrayCmp (left : COperand D) (array : CArrayOperand D)
    (inferNullsAs : Bool) : Except Fault (Option (CConstraintInterval (IDatum D))) :=
  match compareIdentToConstArray left array with
  | none => .ok none
  | some elements =>
    if elements = [] then .ok none
    else
      match cmpType with
      | .ecmptEq =>
        .ok (some ⟨inRanges (datumSortedSet elements), inferNullsAs⟩)
      | .ecmptNEq =>
        if datumSortedSet elements = [] then .error .nullDereference
        else .ok (some ⟨notInRanges none (datumSortedSet elements), inferNullsAs⟩)
      | _ => .ok none

def unionPairs : List (CConstraintInterval (IDatum D)) → List (CConstraintInterval (IDatum D))
  | pci1 :: pci2 :: rest => pci1.pciUnion pci2 :: unionPairs rest
  | rest => rest

theorem length_unionPairs_le : (unionPairs pcis).length ≤ pcis.length := by
  fun_induction unionPairs pcis with
  | case1 pci1 pci2 rest ih => simp only [length_cons]; omega
  | case2 => exact le_rfl

def unionRounds (first : CConstraintInterval (IDatum D))
    (rest : List (CConstraintInterval (IDatum D))) : CConstraintInterval (IDatum D) :=
  match rest with
  | [] => first
  | second :: rest => unionRounds (first.pciUnion second) (unionPairs rest)
termination_by rest.length
decreasing_by
  have := length_unionPairs_le rest
  simp only [List.length_cons]
  omega

def pciNot (colref : CColRef D) (child : Option (CConstraintInterval (IDatum D))) :
    Except Fault (Option (CConstraintInterval (IDatum D))) :=
  match child with
  | none => .ok none
  | some pciChild => (pciComplement colref pciChild).map some

variable (settings : CSettings D) (colref : CColRef D)

mutual

def pciIntervalFromScalarExpr (inferNullsAs : Bool) (accessMethod : EmdindexType) :
    CScalarExpr D → Except Fault (Option (CConstraintInterval (IDatum D)))
  | .scalarNullTest child => .ok (pciIntervalFromScalarNullTest child)
  | .scalarBooleanTest ebt child =>
    match ebt with
    | .ebtIsTrue => pciIntervalFromScalarExpr false .emdindSentinel child
    | .ebtIsNotFalse => pciIntervalFromScalarExpr true .emdindSentinel child
    | .ebtIsNotTrue => do
        pciNot colref (← pciIntervalFromScalarExpr false .emdindSentinel child)
    | .ebtIsFalse => do
        pciNot colref (← pciIntervalFromScalarExpr true .emdindSentinel child)
    | .ebtIsUnknown =>
      match child with
      | .scalarIdent => .ok (pciIntervalFromScalarNullTest .scalarIdent)
      | _ => .ok none
    | .ebtIsNotUnknown =>
      match child with
      | .scalarIdent => pciNot colref (pciIntervalFromScalarNullTest .scalarIdent)
      | _ => .ok none
  | .scalarBoolAnd first rest => do
      boolAndLoop inferNullsAs accessMethod
        (← pciIntervalFromScalarExpr inferNullsAs accessMethod first) rest
  | .scalarBoolOr first rest => do
      match ← pciIntervalFromScalarExpr inferNullsAs accessMethod first with
      | none => return none
      | some pci =>
        return (← boolOrChildren inferNullsAs accessMethod rest).map (unionRounds pci)
  | .scalarBoolNot child => do
      pciNot colref (← pciIntervalFromScalarExpr (!inferNullsAs) .emdindSentinel child)
  | .scalarIdent => pciIntervalFromScalarIdent colref inferNullsAs
  | .scalarCmp cmpType left right =>
    .ok (pciIntervalFromScalarCmp settings cmpType left right inferNullsAs accessMethod)
  | .scalarIsDistinctFrom left right => pciIntervalFromScalarIDF colref left right
  | .scalarConst value =>
    if value = some true then .ok (pciUnbounded colref true)
    else .ok (some ⟨[], false⟩)
  | .scalarArrayCmp cmpType _ left array =>
    if settings.fArrayConstraints then
      pcnstrIntervalFromScalarArrayCmp cmpType left array inferNullsAs
    else .ok none
  | .other _ => .ok none

def boolAndLoop (inferNullsAs : Bool) (accessMethod : EmdindexType)
    (pci : Option (CConstraintInterval (IDatum D))) :
    List (CScalarExpr D) → Except Fault (Option (CConstraintInterval (IDatum D)))
  | [] => .ok pci
  | e :: es => do
      let pciChild ← pciIntervalFromScalarExpr inferNullsAs accessMethod e
      match pciChild, pci with
      | some pciChild, some pci =>
        boolAndLoop inferNullsAs accessMethod (some (pci.pciIntersect pciChild)) es
      | some pciChild, none => boolAndLoop inferNullsAs accessMethod (some pciChild) es
      | none, pci => boolAndLoop inferNullsAs accessMethod pci es

/-- The intervals of all children, or nothing as soon as one has none. -/
def boolOrChildren (inferNullsAs : Bool) (accessMethod : EmdindexType) :
    List (CScalarExpr D) → Except Fault (Option (List (CConstraintInterval (IDatum D))))
  | [] => .ok (some [])
  | e :: es => do
      match ← pciIntervalFromScalarExpr inferNullsAs accessMethod e with
      | none => return none
      | some pci => return (← boolOrChildren inferNullsAs accessMethod es).map (pci :: ·)

end

end CConstraintInterval

/-! ### What the extraction reads -/

/-- The comparison as the comparator makes it, with NULL before all others. -/
def ECmpType.holds (value datum : IDatum D) : Bool :=
  match cmpType with
  | ecmptEq => value = datum
  | ecmptNEq | ecmptIDF => value ≠ datum
  | ecmptL => value < datum
  | ecmptLEq => value ≤ datum
  | ecmptG => datum < value
  | ecmptGEq => datum ≤ value
  | ecmptOther => true

namespace CScalarExpr

open CConstraintInterval

variable (settings : CSettings D) (colref : CColRef D)

mutual

/-- The predicate has an interval. -/
def fConvertible (accessMethod : EmdindexType) : CScalarExpr D → Bool
  | scalarNullTest child => (child matches .scalarIdent)
  | scalarBooleanTest ebt child =>
    match ebt with
    | .ebtIsUnknown | .ebtIsNotUnknown => (child matches .scalarIdent)
    | _ => fConvertible .emdindSentinel child
  | scalarBoolAnd first rest => fConvertible accessMethod first || anyConvertible accessMethod rest
  | scalarBoolOr first rest => fConvertible accessMethod first && allConvertible accessMethod rest
  | scalarBoolNot child => fConvertible .emdindSentinel child
  | scalarIdent => true
  | scalarCmp cmpType left right =>
    (compareIdentToConst left right).isSome && cmpType ≠ .ecmptOther &&
      fOpInOpfamilies settings cmpType left right accessMethod
  | scalarIsDistinctFrom left right => (left matches .scalarIdent) && (right matches .scalarConst _)
  | scalarConst value => value ≠ some true || colref.fConstrainableType
  | scalarArrayCmp cmpType _ left array =>
    settings.fArrayConstraints && (cmpType = .ecmptEq || cmpType = .ecmptNEq) &&
      (compareIdentToConstArray left array).any (· ≠ [])
  | other _ => false

def anyConvertible (accessMethod : EmdindexType) : List (CScalarExpr D) → Bool
  | [] => false
  | e :: es => fConvertible accessMethod e || anyConvertible accessMethod es

def allConvertible (accessMethod : EmdindexType) : List (CScalarExpr D) → Bool
  | [] => true
  | e :: es => fConvertible accessMethod e && allConvertible accessMethod es

end

mutual

/-- The predicate as it is read: conjuncts without an interval are left out, a
comparison with NULL is one with a datum before all others, NULLs in an array
and the quantifier of its comparison are ignored, and the constant NULL is FALSE. -/
def reading (value : Option D) (inferNullsAs : Bool) (accessMethod : EmdindexType) :
    CScalarExpr D → Bool
  | scalarNullTest _ => value.isNone
  | scalarBooleanTest ebt child =>
    match ebt with
    | .ebtIsTrue => reading value false .emdindSentinel child
    | .ebtIsNotFalse => reading value true .emdindSentinel child
    | .ebtIsNotTrue => !reading value false .emdindSentinel child
    | .ebtIsFalse => !reading value true .emdindSentinel child
    | .ebtIsUnknown => value.isNone
    | .ebtIsNotUnknown => value.isSome
  | scalarBoolAnd first rest =>
    (!fConvertible settings colref accessMethod first ||
        reading value inferNullsAs accessMethod first) &&
      readingAll value inferNullsAs accessMethod rest
  | scalarBoolOr first rest =>
    reading value inferNullsAs accessMethod first ||
      readingAny value inferNullsAs accessMethod rest
  | scalarBoolNot child => !reading value (!inferNullsAs) .emdindSentinel child
  | scalarIdent => (colref.fBool.bind fun iso => value.map iso).getD inferNullsAs
  | scalarCmp cmpType left right =>
    value.elim inferNullsAs fun v =>
      (compareIdentToConst left right).any fun datum => cmpType.holds (v : IDatum D) datum
  | scalarIsDistinctFrom _ right => value ≠ right.eval value
  | scalarConst t => t = some true
  | scalarArrayCmp cmpType _ left array =>
    value.elim inferNullsAs fun v =>
      (compareIdentToConstArray left array).any fun elements =>
        if cmpType = .ecmptEq then some v ∈ elements else some v ∉ elements
  | other _ => true

def readingAll (value : Option D) (inferNullsAs : Bool) (accessMethod : EmdindexType) :
    List (CScalarExpr D) → Bool
  | [] => true
  | e :: es =>
    (!fConvertible settings colref accessMethod e ||
        reading value inferNullsAs accessMethod e) &&
      readingAll value inferNullsAs accessMethod es

def readingAny (value : Option D) (inferNullsAs : Bool) (accessMethod : EmdindexType) :
    List (CScalarExpr D) → Bool
  | [] => false
  | e :: es =>
    reading value inferNullsAs accessMethod e || readingAny value inferNullsAs accessMethod es

end

end CScalarExpr

/-! ### The intervals of single comparisons -/

namespace CConstraintInterval

variable {ranges : List (CRange (IDatum D))} {colref : CColRef D}
  {pci : CConstraintInterval (IDatum D)} {convertible inferNullsAs : Bool} {read : Option D → Bool}
  {result : Except Fault (Option (CConstraintInterval (IDatum D)))} {r : CRange (IDatum D)}

theorem ordered_singleton (h : r.lo < r.hi) : Ordered [r] :=
  ordered_cons.mpr ⟨h,by simp [StartAfter],ordered_nil⟩

theorem inRanges_singleton {v : IDatum D} :
    InRanges [r] v ↔ r.Holds v := by simp

theorem ofCmp_lo_lt_hi : (ofCmp cmpType datum).lo < (ofCmp cmpType datum).hi := by
  cases cmpType <;> simp [ofCmp,lo,hi,cutLeft,cutRight]

theorem pciRangeFromColConstCmp_spec (h : pciRangeFromColConstCmp cmpType datum = some ranges) :
    Ordered ranges ∧ ∀ v : IDatum D, InRanges ranges v ↔ cmpType.holds v datum := by
  have htwo : Ordered [ofCmp .ecmptL datum,ofCmp .ecmptG datum] := by
    refine ordered_cons.mpr ⟨ofCmp_lo_lt_hi _ _,?_,ordered_singleton (ofCmp_lo_lt_hi _ _)⟩
    simp [StartAfter,ofCmp,lo,hi,cutLeft,cutRight]
  cases cmpType with
  | ecmptOther => cases h
  | ecmptNEq | ecmptIDF =>
    cases h
    exact ⟨htwo,fun v => by simp [ofCmp,CRange.Holds,ECmpType.holds]⟩
  | ecmptEq =>
    cases h
    refine ⟨ordered_singleton (ofCmp_lo_lt_hi _ _),fun v => ?_⟩
    simp only [inRanges_singleton,ofCmp,CRange.Holds,ECmpType.holds,Option.mem_some_iff,
      forall_eq',if_true,decide_eq_true_eq]
    exact ⟨fun h => h.2.antisymm h.1,fun h => ⟨h.ge,h.le⟩⟩
  | _ =>
    cases h
    exact ⟨ordered_singleton (ofCmp_lo_lt_hi _ _),fun v => by
      simp [ofCmp,CRange.Holds,ECmpType.holds]⟩

theorem mem_dedupSorted_go (prev d : D) (ds : List D) :
    d ∈ prev :: dedupSorted.go prev ds ↔ d ∈ prev :: ds := by
  induction ds generalizing prev with
  | nil => rfl
  | cons e es ih =>
    unfold dedupSorted.go
    split_ifs with hne
    · rw [mem_cons,ih e,← mem_cons]
    · rw [not_not] at hne
      rw [ih prev,hne]
      simp

theorem pairwise_dedupSorted_go (prev : D) (ds : List D) (h : (prev :: ds).Pairwise (· ≤ ·)) :
    (prev :: dedupSorted.go prev ds).Pairwise (· < ·) := by
  induction ds generalizing prev with
  | nil => simp [dedupSorted.go]
  | cons e es ih =>
    rw [pairwise_cons] at h
    have hle : prev ≤ e := h.1 e (by simp)
    unfold dedupSorted.go
    split_ifs with hne
    · refine pairwise_cons.mpr ⟨fun d hd => ?_,ih e h.2⟩
      have hed : e ≤ d := by
        rcases mem_cons.mp ((mem_dedupSorted_go e d es).mp hd) with rfl | hd
        · exact le_rfl
        · exact (pairwise_cons.mp h.2).1 d hd
      exact (lt_of_le_of_ne hle (Ne.symm hne)).trans_le hed
    · refine ih prev (pairwise_cons.mpr ⟨fun d hd => h.1 d (by simp [hd]),?_⟩)
      exact (pairwise_cons.mp h.2).2

theorem mem_datumSortedSet {elements : List (Option D)} {d : D} :
    d ∈ datumSortedSet elements ↔ some d ∈ elements := by
  have hdedup (ds : List D) : d ∈ dedupSorted ds ↔ d ∈ ds := by
    cases ds with
    | nil => rfl
    | cons e es => exact mem_dedupSorted_go e d es
  rw [datumSortedSet,hdedup,mem_insertionSort,reduceOption_mem_iff]

theorem pairwise_datumSortedSet : (datumSortedSet elements).Pairwise (· < ·) := by
  have hso := pairwise_insertionSort (· ≤ ·) elements.reduceOption
  unfold datumSortedSet
  cases hds : elements.reduceOption.insertionSort (· ≤ ·) with
  | nil => exact List.Pairwise.nil
  | cons d ds => exact pairwise_dedupSorted_go d ds (hds ▸ hso)

theorem ordered_inRanges {ds : List D} (h : ds.Pairwise (· < ·)) : Ordered (inRanges ds) := by
  refine ⟨?_,pairwise_map.mpr (h.imp fun {a b} hab => ?_)⟩
  · intro r hr
    obtain ⟨d,-,rfl⟩ := mem_map.mp hr
    exact ofCmp_lo_lt_hi _ _
  · simpa [ofCmp,lo,hi,cutLeft,cutRight] using hab

theorem inRanges_inRanges (ds : List D) (v : D) :
    InRanges (inRanges ds) (v : IDatum D) ↔ v ∈ ds := by
  have hpt (d : D) : (ofCmp .ecmptEq (d : IDatum D)).Holds (v : IDatum D) ↔ v = d := by
    have := (pciRangeFromColConstCmp_spec .ecmptEq (d : IDatum D) rfl).2 v
    simpa [ECmpType.holds] using this
  simp [inRanges,InRanges,hpt]

theorem notInRanges_spec (prev : Option (IDatum D)) (ds : List D)
    (hprev : ∀ p ∈ prev, ∀ d ∈ ds, p < (d : IDatum D)) (h : ds.Pairwise (· < ·)) :
    Ordered (notInRanges prev ds) ∧
      StartAfter (cutLeft prev eriExcluded) (notInRanges prev ds) ∧
      ∀ v : IDatum D, InRanges (notInRanges prev ds) v ↔
        (∀ p ∈ prev, p < v) ∧ ∀ d ∈ ds, v ≠ (d : IDatum D) := by
  induction ds generalizing prev with
  | nil =>
    refine ⟨ordered_singleton ?_,?_,fun v => ?_⟩
    · cases prev <;> simp [lo,hi,cutLeft,cutRight]
    · simp [notInRanges,StartAfter,lo]
    · simp [notInRanges,CRange.Holds]
  | cons d ds ih =>
    rw [pairwise_cons] at h
    obtain ⟨hord,haft,hmem⟩ := ih (some (d : IDatum D))
      (fun p hp e he => by
        rw [Option.mem_some_iff] at hp
        exact hp ▸ WithBot.coe_lt_coe.mpr (h.1 e he)) h.2
    have hlt : cutLeft prev eriExcluded < Cut.below (d : IDatum D) := by
      cases prev with
      | none => simp [cutLeft]
      | some p => simpa [cutLeft] using hprev p rfl d (by simp)
    have hrest : StartAfter (Cut.below (d : IDatum D)) (notInRanges (some (d : IDatum D)) ds) :=
      haft.mono (by simp [cutLeft])
    refine ⟨ordered_cons.mpr ⟨hlt,hrest,hord⟩,?_,fun v => ?_⟩
    · intro r hr
      rcases mem_cons.mp hr with rfl | hr
      · exact le_rfl
      · exact hlt.le.trans (hrest r hr)
    · have hdprev : (d : IDatum D) < v → ∀ p ∈ prev, p < v := fun hdv p hp =>
        (hprev p hp d (by simp)).trans hdv
      have hds : v < (d : IDatum D) → ∀ e ∈ ds, v ≠ (e : IDatum D) := fun hvd e he heq =>
        absurd (WithBot.coe_lt_coe.mpr (h.1 e he)) (heq ▸ hvd).not_gt
      rw [notInRanges,inRanges_cons,hmem]
      simp only [CRange.Holds,Option.mem_some_iff,forall_eq',reduceCtorEq,if_false,forall_mem_cons]
      constructor
      · rintro (⟨hp,hvd⟩ | ⟨hdv,he⟩)
        · exact ⟨hp,hvd.ne,hds hvd⟩
        · exact ⟨hdprev hdv,hdv.ne',he⟩
      · rintro ⟨hp,hne,he⟩
        rcases lt_or_gt_of_ne hne with hvd | hdv
        · exact .inl ⟨hp,hvd⟩
        · exact .inr ⟨hdv,he⟩

theorem pciUnbounded_spec {fIncludesNull : Bool}
    (h : pciUnbounded colref fIncludesNull = some pci) :
    pci.WellFormed ∧ pci.fIncludesNull = fIncludesNull ∧
      ∀ v : D, InRanges pci.pdrgprng (v : IDatum D) := by
  unfold pciUnbounded at h
  split_ifs at h with htype
  cases hbool : colref.fBool with
  | none =>
    rw [hbool] at h
    cases h
    refine ⟨ordered_singleton ?_,rfl,fun v => ?_⟩
    · simp [lo,hi,cutLeft,cutRight]
    · simp [CRange.Holds]
  | some iso =>
    rw [hbool] at h
    cases h
    have hff (v : D) : iso.symm false ≤ v := by
      rw [← iso.symm_apply_apply v,iso.symm.le_iff_le]
      exact Bool.false_le _
    have htrue (v : D) : v ≤ iso.symm true := by
      rw [← iso.symm_apply_apply v,iso.symm.le_iff_le]
      exact Bool.le_true _
    refine ⟨ordered_singleton ?_,rfl,fun v => ?_⟩
    · simp [lo,hi,cutLeft,cutRight,hff]
    · simpa [CRange.Holds] using ⟨hff v,htrue v⟩

theorem pciComplement_spec {this : CConstraintInterval (IDatum D)} (hthis : this.WellFormed)
    (h : pciComplement colref this = .ok pci) :
    pci.WellFormed ∧ ∀ value, pci.Contains value ↔ ¬ this.Contains value := by
  unfold pciComplement at h
  cases huniv : pciUnbounded colref true with
  | none => rw [huniv] at h; cases h
  | some universal =>
    rw [huniv] at h
    cases h
    obtain ⟨hwf,hnull,hall⟩ := pciUnbounded_spec huniv
    obtain ⟨hord,hmem⟩ := pciDifference_spec hwf hthis
    refine ⟨hord,fun value => ?_⟩
    cases value with
    | none => simp [Contains,pciDifference,hnull]
    | some v =>
      simp only [Contains,hmem]
      exact and_iff_right (hall v)

variable {this : CConstraintInterval (IDatum D)}

theorem contains_pciUnion (hthis : this.WellFormed) (hpci : pci.WellFormed) (value : Option D) :
    (this.pciUnion pci).Contains value ↔ this.Contains value ∨ pci.Contains value := by
  cases value with
  | none => simp [Contains,CConstraintInterval.pciUnion]
  | some v => exact inRanges_pciUnion hthis hpci v

theorem contains_pciIntersect (hthis : this.WellFormed) (hpci : pci.WellFormed) (value : Option D) :
    (this.pciIntersect pci).Contains value ↔ this.Contains value ∧ pci.Contains value := by
  cases value with
  | none => simp [Contains,CConstraintInterval.pciIntersect]
  | some v => exact inRanges_pciIntersect hthis hpci v

theorem unionPairs_spec (h : ∀ pci ∈ pcis, pci.WellFormed) :
    (∀ pci ∈ unionPairs pcis, pci.WellFormed) ∧
      ∀ value, (∃ pci ∈ unionPairs pcis, pci.Contains value) ↔
        ∃ pci ∈ pcis, pci.Contains value := by
  fun_induction unionPairs pcis with
  | case1 pci1 pci2 rest ih =>
    obtain ⟨hwf,hmem⟩ := ih fun pci hpci => h pci (by simp [hpci])
    have h1 := h pci1 (by simp)
    have h2 := h pci2 (by simp)
    refine ⟨forall_mem_cons.mpr ⟨h1.pciUnion h2,hwf⟩,fun value => ?_⟩
    rw [exists_mem_cons_iff,hmem,exists_mem_cons_iff,exists_mem_cons_iff,
      contains_pciUnion h1 h2,or_assoc]
  | case2 rest => exact ⟨h,fun value => Iff.rfl⟩

theorem unionRounds_spec (first : CConstraintInterval (IDatum D))
    (rest : List (CConstraintInterval (IDatum D))) (hfst : first.WellFormed)
    (hrest : ∀ pci ∈ rest, pci.WellFormed) :
    (unionRounds first rest).WellFormed ∧
      ∀ value, (unionRounds first rest).Contains value ↔
        first.Contains value ∨ ∃ pci ∈ rest, pci.Contains value := by
  fun_induction unionRounds first rest with
  | case1 first => exact ⟨hfst,fun value => by simp⟩
  | case2 first second rest ih =>
    have hse := hrest second (by simp)
    obtain ⟨hps,hpai⟩ := unionPairs_spec rest fun pci hpci => hrest pci (by simp [hpci])
    obtain ⟨hwf,hmem⟩ := ih (hfst.pciUnion hse) hps
    refine ⟨hwf,fun value => ?_⟩
    rw [hmem,hpai,contains_pciUnion hfst hse,exists_mem_cons_iff,or_assoc]

/-- The result of an extraction fits what is read: an interval of exactly the
values the reading holds at, or none for want of one. -/
def Fits (convertible : Bool) (read : Option D → Bool) :
    Except Fault (Option (CConstraintInterval (IDatum D))) → Prop
  | .error _ => True
  | .ok none => convertible = false
  | .ok (some pci) =>
    convertible = true ∧ pci.WellFormed ∧ ∀ value, pci.Contains value ↔ read value = true

theorem Fits.bind_pciNot (h : Fits convertible read result) :
    Fits convertible (fun value => !read value) (result >>= pciNot colref) := by
  match result, h with
  | .error _, _ => trivial
  | .ok none, h => exact h
  | .ok (some pci), ⟨hconv,hwf,hmem⟩ =>
    change Fits _ _ ((pciComplement colref pci).map some)
    cases hcomp : pciComplement colref pci with
    | error fault => trivial
    | ok comp =>
      obtain ⟨hwf',hmem'⟩ := pciComplement_spec hwf hcomp
      refine ⟨hconv,hwf',fun value => ?_⟩
      rw [hmem',hmem,Bool.not_eq_true,Bool.not_eq_true']

theorem wellFormed_nil (fIncludesNull : Bool) :
    (⟨[], fIncludesNull⟩ : CConstraintInterval (IDatum D)).WellFormed :=
  ordered_nil

theorem pciIntervalFromScalarIdent_fits (colref : CColRef D) (inferNullsAs : Bool) :
    Fits true (fun value => (colref.fBool.bind fun iso => value.map iso).getD inferNullsAs)
      (pciIntervalFromScalarIdent colref inferNullsAs) := by
  unfold pciIntervalFromScalarIdent
  cases hbool : colref.fBool with
  | none => trivial
  | some iso =>
    obtain ⟨hord,hmem⟩ :=
      pciRangeFromColConstCmp_spec .ecmptEq (iso.symm true : IDatum D) rfl
    refine ⟨rfl,hord,fun value => ?_⟩
    cases value with
    | none => simp [Contains]
    | some v =>
      simp only [Contains,hmem]
      simp [ECmpType.holds,OrderIso.eq_symm_apply]

theorem pciIntervalFromScalarNullTest_fits (child : COperand D) :
    Fits (child matches .scalarIdent) (fun value => value.isNone)
      (.ok (pciIntervalFromScalarNullTest child)) := by
  cases child with
  | scalarIdent =>
    refine ⟨rfl,ordered_nil,fun value => ?_⟩
    cases value <;> simp [Contains]
  | _ => rfl

theorem contains_ranges {read : D → Bool}
    (h : ∀ v : D, InRanges ranges (v : IDatum D) ↔ read v = true) (value : Option D) :
    (⟨ranges, inferNullsAs⟩ : CConstraintInterval (IDatum D)).Contains value ↔
      value.elim inferNullsAs read = true := by
  cases value with
  | none => rfl
  | some v => exact h v

theorem pciIntervalFromScalarCmp_fits (settings : CSettings D) (cmpType : ECmpType)
    (left right : COperand D) (inferNullsAs : Bool) (accessMethod : EmdindexType) :
    Fits ((compareIdentToConst left right).isSome && cmpType ≠ .ecmptOther &&
        fOpInOpfamilies settings cmpType left right accessMethod)
      (fun value : Option D => value.elim inferNullsAs fun v =>
          (compareIdentToConst left right).any fun datum => cmpType.holds (v : IDatum D) datum)
      (.ok (pciIntervalFromScalarCmp settings cmpType left right inferNullsAs accessMethod)) := by
  unfold pciIntervalFromScalarCmp
  cases compareIdentToConst left right with
  | none => rfl
  | some datum =>
    by_cases hop : fOpInOpfamilies settings cmpType left right accessMethod
    · simp only [hop,if_true]
      cases hrs : pciRangeFromColConstCmp cmpType (datum : IDatum D) with
      | none => cases cmpType <;> first | rfl | cases hrs
      | some ranges =>
        obtain ⟨hord,hmem⟩ := pciRangeFromColConstCmp_spec cmpType (datum : IDatum D) hrs
        have hoth : cmpType ≠ .ecmptOther := by
          rintro rfl
          cases hrs
        refine ⟨by simp [hoth],hord,contains_ranges fun v => ?_⟩
        rw [hmem]
        rfl
    · simp [hop,Fits]

theorem pciIntervalFromScalarIDF_fits (colref : CColRef D) (left right : COperand D) :
    Fits ((left matches .scalarIdent) && (right matches .scalarConst _))
      (fun value => value ≠ right.eval value) (pciIntervalFromScalarIDF colref left right) := by
  cases left with
  | scalarIdent =>
    cases right with
    | scalarConst datum =>
      cases datum with
      | none =>
        change Fits _ _ ((pciComplement colref ⟨[],true⟩).map some)
        cases hcomp : pciComplement colref (⟨[],true⟩ : CConstraintInterval (IDatum D)) with
        | error fault => trivial
        | ok comp =>
          obtain ⟨hwf,hmem⟩ := pciComplement_spec (wellFormed_nil true) hcomp
          refine ⟨rfl,hwf,fun value => ?_⟩
          rw [hmem]
          cases value <;> simp [Contains,COperand.eval]
      | some datum =>
        obtain ⟨hord,hmem⟩ := pciRangeFromColConstCmp_spec .ecmptIDF (datum : IDatum D) rfl
        refine ⟨rfl,hord,fun value => ?_⟩
        cases value with
        | none => simp [Contains,COperand.eval]
        | some v =>
          simp only [Contains,hmem]
          simp [ECmpType.holds,COperand.eval]
    | _ => rfl
  | _ => rfl

theorem pcnstrIntervalFromScalarArrayCmp_fits (left : COperand D) (array : CArrayOperand D)
    (inferNullsAs : Bool) :
    Fits ((cmpType = .ecmptEq || cmpType = .ecmptNEq) &&
        (compareIdentToConstArray left array).any (· ≠ []))
      (fun value : Option D => value.elim inferNullsAs fun v =>
          (compareIdentToConstArray left array).any fun elements =>
            if cmpType = .ecmptEq then some v ∈ elements else some v ∉ elements)
      (pcnstrIntervalFromScalarArrayCmp cmpType left array inferNullsAs) := by
  unfold pcnstrIntervalFromScalarArrayCmp
  cases compareIdentToConstArray left array with
  | none => simp [Fits]
  | some elements =>
    by_cases hne : elements = []
    · simp [hne,Fits]
    · simp only [hne,if_false]
      cases cmpType with
      | ecmptEq =>
        refine ⟨by simp [hne],ordered_inRanges (pairwise_datumSortedSet _),
          contains_ranges fun v => ?_⟩
        rw [inRanges_inRanges,mem_datumSortedSet]
        simp
      | ecmptNEq =>
        by_cases hset : datumSortedSet elements = []
        · simp [hset,Fits]
        · simp only [hset,if_false]
          obtain ⟨hord,-,hmem⟩ := notInRanges_spec none (datumSortedSet elements) (by simp)
            (pairwise_datumSortedSet _)
          refine ⟨by simp [hne],hord,contains_ranges fun v => ?_⟩
          rw [hmem]
          simp only [WithBot.coe_inj,ne_eq,mem_datumSortedSet,Option.any_some,reduceCtorEq,
            if_false,decide_eq_true_eq]
          exact ⟨fun h hv => h.2 v hv rfl,fun h => ⟨nofun,fun d hd hvd => h (hvd ▸ hd)⟩⟩
      | _ => simp [Fits]

theorem Fits.congr {convertible' : Bool} {read' : Option D → Bool}
    (h : Fits convertible read result) (hconv : convertible = convertible')
    (hread : ∀ value, read value = read' value) : Fits convertible' read' result := by
  obtain rfl := hconv
  obtain rfl : read = read' := funext hread
  exact h

/-- The results of the children of a disjunction. -/
def FitsAll (convertible : Bool) (read : Option D → Bool) :
    Except Fault (Option (List (CConstraintInterval (IDatum D)))) → Prop
  | .error _ => True
  | .ok none => convertible = false
  | .ok (some pcis) =>
    convertible = true ∧ (∀ pci ∈ pcis, pci.WellFormed) ∧
      ∀ value, (∃ pci ∈ pcis, pci.Contains value) ↔ read value = true

variable (settings : CSettings D) (colref : CColRef D)

open CScalarExpr

mutual

theorem pciIntervalFromScalarExpr_fits : (e : CScalarExpr D) →
    ∀ (inferNullsAs : Bool) (accessMethod : EmdindexType),
      Fits (e.fConvertible settings colref accessMethod)
        (fun value => e.reading settings colref value inferNullsAs accessMethod)
        (pciIntervalFromScalarExpr settings colref inferNullsAs accessMethod e)
  | .scalarNullTest child, _, _ => pciIntervalFromScalarNullTest_fits child
  | .scalarBooleanTest ebt child, inferNullsAs, accessMethod => by
    have hch := pciIntervalFromScalarExpr_fits child
    cases ebt with
    | ebtIsTrue => exact hch false .emdindSentinel
    | ebtIsNotFalse => exact hch true .emdindSentinel
    | ebtIsNotTrue => exact (hch false .emdindSentinel).bind_pciNot
    | ebtIsFalse => exact (hch true .emdindSentinel).bind_pciNot
    | ebtIsUnknown =>
      cases child with
      | scalarIdent => exact pciIntervalFromScalarNullTest_fits (D := D) .scalarIdent
      | _ => simp [pciIntervalFromScalarExpr,fConvertible,Fits]
    | ebtIsNotUnknown =>
      cases child with
      | scalarIdent =>
        have hnull : Fits _ _ (_ >>= pciNot colref) :=
          (pciIntervalFromScalarNullTest_fits (D := D) .scalarIdent).bind_pciNot
        simpa [pciIntervalFromScalarExpr,fConvertible,reading,bind,Except.bind] using hnull
      | _ => simp [pciIntervalFromScalarExpr,fConvertible,Fits]
  | .scalarBoolAnd first rest, inferNullsAs, accessMethod => by
    have hfst := pciIntervalFromScalarExpr_fits first inferNullsAs accessMethod
    simp only [pciIntervalFromScalarExpr,fConvertible,reading]
    cases hres : pciIntervalFromScalarExpr settings colref inferNullsAs accessMethod first with
    | error fault => trivial
    | ok pci =>
      rw [hres] at hfst
      refine boolAndLoop_fits rest inferNullsAs accessMethod pci _ _ ?_ fun hconv value => ?_
      · cases pci with
        | none => exact hfst
        | some pci => exact hfst.congr rfl fun value => by rw [hfst.1]; rfl
      · simp [hconv]
  | .scalarBoolOr first rest, inferNullsAs, accessMethod => by
    have hall := boolOrChildren_fits (first :: rest) inferNullsAs accessMethod
    simp only [boolOrChildren,allConvertible,readingAny] at hall
    simp only [pciIntervalFromScalarExpr,fConvertible,reading]
    generalize pciIntervalFromScalarExpr settings colref _ accessMethod first = fst at hall ⊢
    generalize boolOrChildren settings colref _ accessMethod rest = others at hall ⊢
    rcases fst with _ | _ | pci
    · trivial
    · exact hall
    · rcases others with _ | _ | pcis
      · trivial
      · exact hall
      · obtain ⟨hconv,hwf,hmem⟩ := hall
        obtain ⟨hfst,hrest⟩ := forall_mem_cons.mp hwf
        obtain ⟨hun,huni⟩ := unionRounds_spec pci pcis hfst hrest
        refine ⟨hconv,hun,fun value => (huni value).trans ?_⟩
        rw [← hmem,exists_mem_cons_iff]
  | .scalarBoolNot child, inferNullsAs, _ =>
    (pciIntervalFromScalarExpr_fits child (!inferNullsAs) .emdindSentinel).bind_pciNot
  | .scalarIdent, inferNullsAs, _ => pciIntervalFromScalarIdent_fits colref inferNullsAs
  | .scalarCmp cmpType left right, inferNullsAs, accessMethod =>
    pciIntervalFromScalarCmp_fits settings cmpType left right inferNullsAs accessMethod
  | .scalarIsDistinctFrom left right, _, _ => pciIntervalFromScalarIDF_fits colref left right
  | .scalarConst t, inferNullsAs, accessMethod => by
    simp only [pciIntervalFromScalarExpr,fConvertible,reading]
    by_cases htrue : t = some true
    · simp only [htrue,if_true]
      cases huniv : pciUnbounded colref true with
      | none =>
        have : colref.fConstrainableType = false := by
          unfold pciUnbounded at huniv
          split_ifs at huniv with htype
          · cases hbool : colref.fBool <;> rw [hbool] at huniv <;> cases huniv
          · simpa using htype
        simp [Fits,this]
      | some universal =>
        obtain ⟨hwf,hnull,hall⟩ := pciUnbounded_spec huniv
        refine ⟨?_,hwf,fun value => ?_⟩
        · by_contra hnot
          simp only [ne_eq,not_true_eq_false,decide_false,Bool.false_or] at hnot
          simp [pciUnbounded,hnot] at huniv
        · cases value with
          | none => simp [Contains,hnull]
          | some v => simpa [Contains] using hall v
    · simp only [htrue,if_false]
      refine ⟨by simp [htrue],wellFormed_nil false,fun value => ?_⟩
      cases value <;> simp [Contains]
  | .scalarArrayCmp cmpType earrcmpt left array, inferNullsAs, accessMethod => by
    simp only [pciIntervalFromScalarExpr,fConvertible,reading]
    by_cases htrace : settings.fArrayConstraints
    · simpa only [htrace,if_true,Bool.true_and] using
        pcnstrIntervalFromScalarArrayCmp_fits cmpType left array inferNullsAs
    · simp [htrace,Fits]
  | .other f, inferNullsAs, accessMethod => by
    simp [pciIntervalFromScalarExpr,fConvertible,Fits]

theorem boolAndLoop_fits : (es : List (CScalarExpr D)) →
    ∀ (inferNullsAs : Bool) (accessMethod : EmdindexType)
      (pci : Option (CConstraintInterval (IDatum D))) (convertible : Bool)
      (read : Option D → Bool), Fits convertible read (.ok pci) →
      (convertible = false → ∀ value, read value = true) →
      Fits (convertible || anyConvertible settings colref accessMethod es)
        (fun value => read value && readingAll settings colref value inferNullsAs accessMethod es)
        (boolAndLoop settings colref inferNullsAs accessMethod pci es)
  | [], inferNullsAs, accessMethod, pci, convertible, read, hpci, hread => by
    simpa only [boolAndLoop,anyConvertible,readingAll,Bool.or_false,Bool.and_true] using hpci
  | e :: es, inferNullsAs, accessMethod, pci, convertible, read, hpci, hread => by
    have he := pciIntervalFromScalarExpr_fits e inferNullsAs accessMethod
    have hes := boolAndLoop_fits es inferNullsAs accessMethod
    simp only [boolAndLoop,anyConvertible,readingAll]
    cases hres : pciIntervalFromScalarExpr settings colref inferNullsAs accessMethod e with
    | error fault => trivial
    | ok pciChild =>
      rw [hres] at he
      cases pciChild with
      | none =>
        have hconv : fConvertible settings colref accessMethod e = false := he
        refine (hes pci convertible read hpci hread).congr ?_ fun value => ?_
        · rw [hconv,Bool.false_or]
        · rw [hconv,Bool.not_false,Bool.true_or,Bool.true_and]
      | some pciChild =>
        obtain ⟨hconv,hwf,hmem⟩ := he
        cases pci with
        | none =>
          have hnone : convertible = false := hpci
          refine (hes (some pciChild) true _ ⟨rfl,hwf,hmem⟩ nofun).congr ?_ fun value => ?_
          · rw [hconv,hnone]
            rfl
          · rw [hconv,hread hnone value]
            rfl
        | some pci =>
          obtain ⟨hsome,hwf',hmem'⟩ := hpci
          have hboth : Fits true
              (fun value => read value && reading settings colref value inferNullsAs accessMethod e)
              (.ok (some (pci.pciIntersect pciChild))) := by
            refine ⟨rfl,hwf'.pciIntersect hwf,fun value => ?_⟩
            rw [contains_pciIntersect hwf' hwf,hmem,hmem',Bool.and_eq_true]
          refine (hes _ true _ hboth nofun).congr ?_ fun value => ?_
          · rw [hsome]
            rfl
          · rw [hconv,Bool.not_true,Bool.false_or,Bool.and_assoc]

theorem boolOrChildren_fits : (es : List (CScalarExpr D)) →
    ∀ (inferNullsAs : Bool) (accessMethod : EmdindexType),
      FitsAll (allConvertible settings colref accessMethod es)
        (fun value => readingAny settings colref value inferNullsAs accessMethod es)
        (boolOrChildren settings colref inferNullsAs accessMethod es)
  | [], inferNullsAs, accessMethod => by
    simp [boolOrChildren,allConvertible,readingAny,FitsAll]
  | e :: es, inferNullsAs, accessMethod => by
    have he := pciIntervalFromScalarExpr_fits e inferNullsAs accessMethod
    have hes := boolOrChildren_fits es inferNullsAs accessMethod
    simp only [boolOrChildren,allConvertible,readingAny]
    generalize pciIntervalFromScalarExpr settings colref _ accessMethod e = fst at he ⊢
    generalize boolOrChildren settings colref _ accessMethod es = others at hes ⊢
    rcases fst with _ | _ | pci
    · trivial
    · exact congrArg (· && _) he
    · obtain ⟨hconv,hwf,hmem⟩ := he
      rcases others with _ | _ | pcis
      · trivial
      · exact Bool.and_eq_false_imp.mpr fun _ => hes
      · obtain ⟨hconv',hwf',hmem'⟩ := hes
        refine ⟨by rw [hconv,hconv']; rfl,forall_mem_cons.mpr ⟨hwf,hwf'⟩,fun value => ?_⟩
        rw [exists_mem_cons_iff,hmem,hmem',Bool.or_eq_true]

end

end CConstraintInterval

end PgOrca
