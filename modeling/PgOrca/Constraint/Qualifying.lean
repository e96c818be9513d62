import PgOrca.Constraint.Extraction

/-!
# Which qualifying values an interval keeps

A skipped conjunct, a NULL constant, a NULL in an array or its quantifier can make the extraction
err at a value. A negation turns a value that is let in into one that is lost, and the other
operands of a connective may hide either.
-/

namespace PgOrca

variable {D : Type*} [LinearOrder D]

namespace CScalarExpr

open CConstraintInterval

/-- The comparison with NULL is NULL throughout. It is taken for one that holds nowhere or
everywhere; only a value can be told apart from that. -/
def fSafeNull (fOver inferNullsAs fValue : Bool) : ECmpType → Bool
  | .ecmptEq | .ecmptL | .ecmptLEq => !(fOver && inferNullsAs && fValue)
  | .ecmptNEq | .ecmptG | .ecmptGEq => fOver || inferNullsAs || !fValue
  | .ecmptIDF => fOver || !inferNullsAs || fValue
  | .ecmptOther => true

/-- Of an array comparison, NULL elements and the quantifier are not looked at. -/
def fSafeArray (fOver inferNullsAs fQualifies fListed fNullElement : Bool) :
    ECmpType → EArrCmpType → Bool
  | .ecmptEq, .earrcmpAny => !(fOver && inferNullsAs) || fListed || !fNullElement
  | .ecmptNEq, .earrcmpAll => fOver || inferNullsAs || fListed || !fNullElement
  | .ecmptEq, .earrcmpAll => if fOver then !fQualifies || fListed else fQualifies || !fListed
  | _, _ => if fOver then !fQualifies || !fListed else fQualifies || fListed

/-- An operand of a connective at a value: whether it is of a shape that has an interval, whether
it qualifies, and whether it is safe in the two directions. -/
structure Outcome where
  fConvertible : Bool
  fQualifies : Bool
  fKept : Bool
  fShut : Bool

/-- A value is lost by a conjunction that it satisfies with one of the conjuncts, and let in if no
conjunct with an interval shuts it out. -/
def fSafeAnd (fOver : Bool) (outcomes : List Outcome) : Bool :=
  if fOver then
    outcomes.any (fun o => !o.fQualifies) || outcomes.all fun o => !o.fConvertible || o.fKept
  else
    outcomes.all Outcome.fQualifies ||
      outcomes.any fun o => o.fConvertible && if o.fQualifies then !o.fKept else o.fShut

def fSafeOr (fOver : Bool) (outcomes : List Outcome) : Bool :=
  if fOver then
    outcomes.all (fun o => !o.fQualifies) ||
      outcomes.any fun o => if o.fQualifies then o.fKept else !o.fShut
  else outcomes.any Outcome.fQualifies || outcomes.all Outcome.fShut

variable (settings : CSettings D) (colref : CColRef D)
  (otherOp : Option D → Option D → Option Bool) (value : Option D)

/-- The predicate is TRUE at the value, or NULL where NULLs count. -/
def fQualifies (inferNullsAs : Bool) (e : CScalarExpr D) : Bool :=
  (e.eval otherOp colref value).getD inferNullsAs

mutual

/-- With `fOver` the value is not lost, without it the value is not let in. -/
def fSafe (fOver inferNullsAs : Bool) (accessMethod : EmdindexType) : CScalarExpr D → Bool
  | scalarConst t => !(fOver && inferNullsAs) || t.isSome
  | scalarIdent => true
  | scalarNullTest _ => true
  | scalarBooleanTest ebt child =>
    match ebt with
    | .ebtIsTrue => fSafe fOver false .emdindSentinel child
    | .ebtIsNotFalse => fSafe fOver true .emdindSentinel child
    | .ebtIsNotTrue => fSafe (!fOver) false .emdindSentinel child
    | .ebtIsFalse => fSafe (!fOver) true .emdindSentinel child
    -- a column of another type is no predicate
    | .ebtIsUnknown => colref.fBool.isSome || !fOver || value.isNone
    | .ebtIsNotUnknown => colref.fBool.isSome || fOver || value.isNone
  | scalarCmp cmpType left right =>
    match compareIdentToConst left right with
    | some none => fSafeNull fOver inferNullsAs value.isSome cmpType
    | _ => cmpType ≠ .ecmptIDF || !fOver || inferNullsAs || value.isSome
  | scalarIsDistinctFrom _ _ => true
  | scalarArrayCmp cmpType earrcmpt left array =>
    value.isNone || (compareIdentToConstArray left array).all fun elements =>
      fSafeArray fOver inferNullsAs
        ((earrcmpt.eval (elements.map fun e => cmpType.compare otherOp value e)).getD inferNullsAs)
        (elements.contains value) (elements.contains none) cmpType earrcmpt
  | scalarBoolAnd first rest =>
    fSafeAnd fOver (⟨fConvertible settings colref accessMethod first,
      fQualifies colref otherOp value inferNullsAs first,
      fSafe true inferNullsAs accessMethod first,
      fSafe false inferNullsAs accessMethod first⟩ :: outcomes inferNullsAs accessMethod rest)
  | scalarBoolOr first rest =>
    fSafeOr fOver (⟨fConvertible settings colref accessMethod first,
      fQualifies colref otherOp value inferNullsAs first,
      fSafe true inferNullsAs accessMethod first,
      fSafe false inferNullsAs accessMethod first⟩ :: outcomes inferNullsAs accessMethod rest)
  | scalarBoolNot child => fSafe (!fOver) (!inferNullsAs) .emdindSentinel child
  | other _ => true

def outcomes (inferNullsAs : Bool) (accessMethod : EmdindexType) :
    List (CScalarExpr D) → List Outcome
  | [] => []
  | e :: es =>
    ⟨fConvertible settings colref accessMethod e, fQualifies colref otherOp value inferNullsAs e,
      fSafe true inferNullsAs accessMethod e, fSafe false inferNullsAs accessMethod e⟩ ::
        outcomes inferNullsAs accessMethod es

end

omit [LinearOrder D] in
theorem eval_of_compareIdentToConst {left right : COperand D} {datum : Option D}
    (h : compareIdentToConst left right = some datum) (value : Option D) :
    left.eval value = value ∧ right.eval value = datum := by
  unfold compareIdentToConst at h
  split at h <;> cases h <;> exact ⟨rfl,rfl⟩

omit [LinearOrder D] in
theorem eval_of_compareIdentToConstArray {left : COperand D} {array : CArrayOperand D}
    (h : compareIdentToConstArray left array = some elements)
    (value : Option D) : left.eval value = value ∧ array.eval value = some elements := by
  unfold compareIdentToConstArray at h
  split at h <;> cases h <;> exact ⟨rfl,rfl⟩

variable {settings colref otherOp value} {fOver inferNullsAs : Bool} {elements : List (Option D)}
  {cmpType : ECmpType}

theorem compare_some (hidf : cmpType ≠ .ecmptIDF) (hoth : cmpType ≠ .ecmptOther)
    (datum : D) :
    (cmpType.compare otherOp value (some datum)).getD inferNullsAs =
      value.elim inferNullsAs fun v => cmpType.holds (v : IDatum D) (datum : IDatum D) := by
  cases cmpType <;> cases value <;> simp_all [ECmpType.compare,ECmpType.holds]

theorem booleanTest_getD (t : Option Bool) :
    EBooleanTest.ebtIsTrue.eval t = t.getD false ∧
      EBooleanTest.ebtIsNotFalse.eval t = t.getD true ∧
      EBooleanTest.ebtIsNotTrue.eval t = !t.getD false ∧
      EBooleanTest.ebtIsFalse.eval t = !t.getD true := by
  rcases t with _ | _ | _ <;> decide

theorem getD_anyEq (elements : List (Option D)) (v : D) (inferNullsAs : Bool) :
    (EArrCmpType.earrcmpAny.eval
        (elements.map fun e => ECmpType.ecmptEq.compare otherOp (some v) e)).getD inferNullsAs =
      (decide (some v ∈ elements) || inferNullsAs && decide (none ∈ elements)) := by
  rw [EArrCmpType.eval,Kleene.getD_any,List.any_map]
  induction elements with
  | nil => cases inferNullsAs <;> simp
  | cons e es ih =>
    rw [List.any_cons,ih]
    cases e <;> cases inferNullsAs <;> simp [ECmpType.compare,Bool.decide_or,Bool.or_assoc]

theorem getD_allNEq (elements : List (Option D)) (v : D) (inferNullsAs : Bool) :
    (EArrCmpType.earrcmpAll.eval
        (elements.map fun e => ECmpType.ecmptNEq.compare otherOp (some v) e)).getD inferNullsAs =
      (decide (some v ∉ elements) && (inferNullsAs || decide (none ∉ elements))) := by
  rw [EArrCmpType.eval,Kleene.getD_all,List.all_map]
  induction elements with
  | nil => cases inferNullsAs <;> simp
  | cons e es ih =>
    rw [List.all_cons,ih]
    cases e <;> cases inferNullsAs <;> simp [ECmpType.compare,Bool.decide_and,not_or,Bool.and_assoc]

theorem getD_array_null (earrcmpt : EArrCmpType)
    (hcmp : cmpType = .ecmptEq ∨ cmpType = .ecmptNEq) (hne : elements ≠ []) :
    (earrcmpt.eval (elements.map fun e => cmpType.compare otherOp none e)).getD inferNullsAs =
      inferNullsAs := by
  obtain ⟨e,es,rfl⟩ := List.exists_cons_of_ne_nil hne
  have hnull (e : Option D) : cmpType.compare otherOp none e = none := by
    rcases hcmp with rfl | rfl <;> rfl
  cases earrcmpt <;> cases inferNullsAs <;>
    simp [EArrCmpType.eval,Kleene.getD_any,Kleene.getD_all,hnull]

/-! ## What a safe predicate tells -/

/-- The truth of a predicate implies what it is taken for, or is implied by it. -/
def agrees (fOver q r : Bool) : Bool := if fOver then !q || r else q || !r

theorem agrees_self (fOver q : Bool) : agrees fOver q q = true := by
  cases fOver <;> cases q <;> rfl

theorem agrees_not (fOver q r : Bool) : agrees fOver (!q) (!r) = agrees (!fOver) q r := by
  cases fOver <;> cases q <;> cases r <;> rfl

/-- The operand is taken for `r`. -/
def Outcome.Describes (o : Outcome) (r : Bool) : Prop :=
  o.fKept = agrees true o.fQualifies r ∧ o.fShut = agrees false o.fQualifies r

section

variable {α : Type*} {es : List α} {o : α → Outcome} {r : α → Bool}

theorem fSafeAnd_map (fOver : Bool)
    (h : ∀ e ∈ es, (o e).fConvertible → (o e).Describes (r e)) :
    fSafeAnd fOver (es.map o) = agrees fOver (es.all fun e => (o e).fQualifies)
      (es.all fun e => !(o e).fConvertible || r e) := by
  simp only [Outcome.Describes,agrees,if_true,Bool.false_eq_true,if_false] at h
  unfold fSafeAnd agrees
  rw [Bool.eq_iff_iff]
  cases fOver
  · simp
    grind
  · simp
    grind

theorem fSafeOr_map (fOver : Bool) (h : ∀ e ∈ es, (o e).Describes (r e)) :
    fSafeOr fOver (es.map o) =
      agrees fOver (es.any fun e => (o e).fQualifies) (es.any r) := by
  simp only [Outcome.Describes,agrees,if_true,Bool.false_eq_true,if_false] at h
  unfold fSafeOr agrees
  rw [Bool.eq_iff_iff]
  cases fOver
  · simp
    grind
  · simp
    grind

end

theorem fSafeNull_eq (hoth : cmpType ≠ .ecmptOther) :
    fSafeNull fOver inferNullsAs value.isSome cmpType =
      agrees fOver ((cmpType.compare otherOp value none).getD inferNullsAs)
        (value.elim inferNullsAs fun v => cmpType.holds (v : IDatum D) ⊥) := by
  cases cmpType <;> cases value <;> cases fOver <;> cases inferNullsAs <;>
    simp_all [fSafeNull,agrees,ECmpType.compare,ECmpType.holds]

theorem fSafeCmp_eq (hoth : cmpType ≠ .ecmptOther) (datum : D) :
    (cmpType ≠ .ecmptIDF || !fOver || inferNullsAs || value.isSome) =
      agrees fOver ((cmpType.compare otherOp value (some datum)).getD inferNullsAs)
        (value.elim inferNullsAs fun v => cmpType.holds (v : IDatum D) (datum : IDatum D)) := by
  by_cases hidf : cmpType = .ecmptIDF
  · subst hidf
    cases value <;> cases fOver <;> cases inferNullsAs <;>
      simp [agrees,ECmpType.compare,ECmpType.holds]
  · rw [compare_some hidf hoth,agrees_self]
    simp [hidf]

theorem fSafeArray_eq {earrcmpt : EArrCmpType} (v : D)
    (hcmp : cmpType = .ecmptEq ∨ cmpType = .ecmptNEq) :
    fSafeArray fOver inferNullsAs
        ((earrcmpt.eval (elements.map fun e => cmpType.compare otherOp (some v) e)).getD
          inferNullsAs) (elements.contains (some v)) (elements.contains none) cmpType earrcmpt =
      agrees fOver
        ((earrcmpt.eval (elements.map fun e => cmpType.compare otherOp (some v) e)).getD
          inferNullsAs)
        (if cmpType = .ecmptEq then decide (some v ∈ elements)
          else decide (some v ∉ elements)) := by
  have hmem : elements.contains (some v) = decide (some v ∈ elements) := by simp
  have hnull : elements.contains none = decide (none ∈ elements) := by simp
  rw [hmem,hnull]
  rcases hcmp with rfl | rfl <;> cases earrcmpt
  · rw [getD_anyEq]
    generalize decide (some v ∈ elements) = fListed,decide (none ∈ elements) = fNull
    cases fOver <;> cases inferNullsAs <;> cases fListed <;> cases fNull <;> rfl
  · simp [fSafeArray,agrees]
  · simp [fSafeArray,agrees]
  · rw [getD_allNEq]
    simp only [decide_not]
    generalize decide (some v ∈ elements) = fListed,decide (none ∈ elements) = fNull
    cases fOver <;> cases inferNullsAs <;> cases fListed <;> cases fNull <;> rfl

variable (settings colref value)

theorem outcomes_eq_map (inferNullsAs : Bool) (accessMethod : EmdindexType)
    (es : List (CScalarExpr D)) :
    outcomes settings colref otherOp value inferNullsAs accessMethod es = es.map fun e =>
      ⟨fConvertible settings colref accessMethod e, fQualifies colref otherOp value inferNullsAs e,
        fSafe settings colref otherOp value true inferNullsAs accessMethod e,
        fSafe settings colref otherOp value false inferNullsAs accessMethod e⟩ := by
  induction es with
  | nil => rfl
  | cons e es ih => rw [outcomes,ih,List.map_cons]

theorem evalAll_eq_map (es : List (CScalarExpr D)) :
    evalAll otherOp colref value es = es.map (eval otherOp colref value) := by
  induction es with
  | nil => rfl
  | cons e es ih => rw [evalAll,ih,List.map_cons]

theorem readingAll_eq (inferNullsAs : Bool) (accessMethod : EmdindexType)
    (es : List (CScalarExpr D)) :
    readingAll settings colref value inferNullsAs accessMethod es = es.all fun e =>
      !fConvertible settings colref accessMethod e ||
        reading settings colref value inferNullsAs accessMethod e := by
  induction es with
  | nil => rfl
  | cons e es ih => rw [readingAll,ih,List.all_cons]

theorem readingAny_eq (inferNullsAs : Bool) (accessMethod : EmdindexType)
    (es : List (CScalarExpr D)) :
    readingAny settings colref value inferNullsAs accessMethod es =
      es.any (reading settings colref value inferNullsAs accessMethod) := by
  induction es with
  | nil => rfl
  | cons e es ih => rw [readingAny,ih,List.any_cons]

theorem allConvertible_iff (accessMethod : EmdindexType) (es : List (CScalarExpr D)) :
    allConvertible settings colref accessMethod es = true ↔
      ∀ e ∈ es, fConvertible settings colref accessMethod e = true := by
  induction es with
  | nil => simp [allConvertible]
  | cons e es ih => rw [allConvertible,Bool.and_eq_true,ih,List.forall_mem_cons]

variable {settings colref value}

variable (settings colref otherOp value) in
/-- If the predicate has an interval, it is safe at the value exactly if its truth there agrees with
its reading. -/
def Exposed (e : CScalarExpr D) : Prop :=
  ∀ {fOver inferNullsAs : Bool} {accessMethod : EmdindexType},
    e.fConvertible settings colref accessMethod = true →
      e.fSafe settings colref otherOp value fOver inferNullsAs accessMethod =
        agrees fOver (e.fQualifies colref otherOp value inferNullsAs)
          (e.reading settings colref value inferNullsAs accessMethod)

theorem fSafe_scalarBoolAnd {first : CScalarExpr D} {rest : List (CScalarExpr D)}
    (hall : ∀ e ∈ first :: rest, Exposed settings colref otherOp value e) :
    Exposed settings colref otherOp value (.scalarBoolAnd first rest) := by
  intro fOver inferNullsAs accessMethod _
  have h := fSafeAnd_map fOver (o := fun e => ⟨fConvertible settings colref accessMethod e,
      fQualifies colref otherOp value inferNullsAs e,
      fSafe settings colref otherOp value true inferNullsAs accessMethod e,
      fSafe settings colref otherOp value false inferNullsAs accessMethod e⟩)
    fun e he hconv => ⟨hall e he hconv,hall e he hconv⟩
  simp only [fSafe,fQualifies,eval,reading,Kleene.getD_all,outcomes_eq_map,evalAll_eq_map,
    readingAll_eq]
  simpa [List.all_map,Function.comp_def,fQualifies] using h

theorem fSafe_scalarBoolOr {first : CScalarExpr D} {rest : List (CScalarExpr D)}
    (hall : ∀ e ∈ first :: rest, Exposed settings colref otherOp value e) :
    Exposed settings colref otherOp value (.scalarBoolOr first rest) := by
  intro fOver inferNullsAs accessMethod hconv
  rw [fConvertible,← allConvertible,allConvertible_iff] at hconv
  have h := fSafeOr_map fOver (o := fun e => ⟨fConvertible settings colref accessMethod e,
      fQualifies colref otherOp value inferNullsAs e,
      fSafe settings colref otherOp value true inferNullsAs accessMethod e,
      fSafe settings colref otherOp value false inferNullsAs accessMethod e⟩)
    fun e he => ⟨hall e he (hconv e he),hall e he (hconv e he)⟩
  simp only [fSafe,fQualifies,eval,reading,Kleene.getD_any,outcomes_eq_map,evalAll_eq_map,
    readingAny_eq]
  simpa [List.any_map,Function.comp_def,fQualifies] using h

mutual

theorem fSafe_eq : (e : CScalarExpr D) → Exposed settings colref otherOp value e
  | .scalarConst t, fOver, inferNullsAs, _, _ => by
    rw [fSafe,fQualifies,eval,reading]
    rcases t with _ | _ | _ <;> cases fOver <;> cases inferNullsAs <;> rfl
  | .scalarIdent, _, _, _, _ => by
    rw [fSafe,fQualifies,eval,reading,agrees_self]
  | .scalarNullTest child, _, _, _, hconv => by
    cases child with
    | scalarIdent =>
      rw [fSafe,fQualifies,eval,reading]
      exact (agrees_self _ _).symm
    | _ => simp [fConvertible] at hconv
  | .scalarBooleanTest ebt child, fOver, _, _, hconv => by
    obtain ⟨hisT,hisN,hisNo,hisF⟩ := booleanTest_getD (child.eval otherOp colref value)
    cases ebt with
    | ebtIsTrue | ebtIsNotFalse =>
      simp only [fConvertible] at hconv
      rw [fSafe,fQualifies,eval,reading,Option.getD_some]
      simp only [hisT,hisN]
      exact fSafe_eq child hconv
    | ebtIsNotTrue | ebtIsFalse =>
      simp only [fConvertible] at hconv
      rw [fSafe,fQualifies,eval,reading,Option.getD_some]
      simp only [hisNo,hisF]
      exact (fSafe_eq child hconv).trans (agrees_not _ _ _).symm
    | ebtIsUnknown | ebtIsNotUnknown =>
      cases child with
      | scalarIdent =>
        rw [fSafe,fQualifies,eval,reading,Option.getD_some,eval]
        cases colref.fBool <;> cases value <;> cases fOver <;>
          simp [agrees,EBooleanTest.eval]
      | _ => simp [fConvertible] at hconv
  | .scalarCmp cmpType left right, _, _, _, hconv => by
    rw [fConvertible] at hconv
    rw [fSafe,fQualifies,eval,reading]
    cases hcmp : compareIdentToConst left right with
    | none => simp [hcmp] at hconv
    | some datum =>
      obtain ⟨hleft,hr⟩ := eval_of_compareIdentToConst hcmp value
      have hoth : cmpType ≠ .ecmptOther := by
        rintro rfl
        simp at hconv
      rw [hleft,hr]
      cases datum with
      | none => exact fSafeNull_eq hoth
      | some datum => exact fSafeCmp_eq hoth datum
  | .scalarIsDistinctFrom left right, _, _, _, hconv => by
    cases left with
    | scalarIdent =>
      rw [fSafe,fQualifies,eval,reading]
      exact (agrees_self _ _).symm
    | _ => simp [fConvertible] at hconv
  | .scalarArrayCmp cmpType earrcmpt left array, _, inferNullsAs, _, hconv => by
    rw [fConvertible] at hconv
    rw [fSafe,fQualifies,eval,reading]
    cases hcmp : compareIdentToConstArray left array with
    | none => simp [hcmp] at hconv
    | some elements =>
      obtain ⟨hleft,harray⟩ := eval_of_compareIdentToConstArray hcmp value
      rw [hcmp,Option.any_some] at hconv
      simp only [Bool.and_eq_true,Bool.or_eq_true,decide_eq_true_eq] at hconv
      obtain ⟨⟨-,hcmp⟩,hne⟩ := hconv
      rw [hleft,harray]
      cases value with
      | none =>
        rw [Option.bind_some,getD_array_null earrcmpt hcmp (by simpa using hne)]
        exact (agrees_self _ _).symm
      | some v => exact fSafeArray_eq v hcmp
  | .scalarBoolAnd first rest, _, _, _, hconv =>
    fSafe_scalarBoolAnd (List.forall_mem_cons.mpr ⟨fSafe_eq first,fSafe_eq_all rest⟩) hconv
  | .scalarBoolOr first rest, _, _, _, hconv =>
    fSafe_scalarBoolOr (List.forall_mem_cons.mpr ⟨fSafe_eq first,fSafe_eq_all rest⟩) hconv
  | .scalarBoolNot child, _, _, _, hconv => by
    rw [fConvertible] at hconv
    rw [fSafe,fQualifies,eval,reading,Kleene.getD_not]
    exact (fSafe_eq child hconv).trans (agrees_not _ _ _).symm
  | .other f, _, _, _, hconv => by
    simp [fConvertible] at hconv

theorem fSafe_eq_all : (es : List (CScalarExpr D)) →
    ∀ e ∈ es, Exposed settings colref otherOp value e
  | [] => by simp
  | e :: es => List.forall_mem_cons.mpr ⟨fSafe_eq e,fSafe_eq_all es⟩

end

end CScalarExpr

namespace CConstraintInterval

variable (settings : CSettings D) (colref : CColRef D)
  (otherOp : Option D → Option D → Option Bool)

/-- No qualifying value is lost exactly when the predicate is safe at every value. -/
theorem keeps_qualifying_iff (e : CScalarExpr D) (inferNullsAs : Bool) (accessMethod : EmdindexType)
    (pci : CConstraintInterval (IDatum D))
    (h : pciIntervalFromScalarExpr settings colref inferNullsAs accessMethod e = .ok (some pci)) :
    (∀ value, (e.eval otherOp colref value).getD inferNullsAs = true → pci.Contains value) ↔
      ∀ value, e.fSafe settings colref otherOp value true inferNullsAs accessMethod = true := by
  have hfits := pciIntervalFromScalarExpr_fits settings colref e inferNullsAs accessMethod
  rw [h] at hfits
  refine forall_congr' fun value => ?_
  rw [hfits.2.2 value,e.fSafe_eq hfits.1,CScalarExpr.agrees,if_pos rfl,CScalarExpr.fQualifies]
  cases (e.eval otherOp colref value).getD inferNullsAs <;> simp

end CConstraintInterval

namespace LostValues

open CConstraintInterval

def settings : CSettings ℤ := ⟨true, false, fun _ _ _ => true⟩

def colref : CColRef ℤ := ⟨true, none⟩

def noOp : Option ℤ → Option ℤ → Option Bool := fun _ _ => none

def greater (datum : Option ℤ) : CScalarExpr ℤ :=
  .scalarCmp .ecmptG .scalarIdent (.scalarConst datum)

def even : CScalarExpr ℤ := .other fun value => value.map fun v => v % 2 = 0

def greaterAndEven : CScalarExpr ℤ := .scalarBoolAnd (greater (some 5)) [even]

def inOneNull : CScalarExpr ℤ :=
  .scalarArrayCmp .ecmptEq .earrcmpAny .scalarIdent (.scalarConstArray false [some 1, none])

def unequalAny : CScalarExpr ℤ :=
  .scalarArrayCmp .ecmptNEq .earrcmpAny .scalarIdent (.scalarConstArray false [some 1, some 2])

/-- The predicate qualifies at the value, and its interval leaves the value out. -/
def Loses (e : CScalarExpr ℤ) (inferNullsAs : Bool) (value : ℤ) : Prop :=
  (e.eval noOp colref (some value)).getD inferNullsAs = true ∧
    ∃ pci, pciIntervalFromScalarExpr settings colref inferNullsAs .emdindSentinel e =
      .ok (some pci) ∧ ¬ pci.Contains (some value)

/-- The conjunct that is skipped below the negation is false at 7. -/
theorem loses_not_greaterAndEven : Loses (.scalarBoolNot greaterAndEven) false 7 ∧
    Loses (.scalarConst none) true 7 ∧ Loses inOneNull true 7 ∧ Loses unequalAny false 1 ∧
    Loses (.scalarBooleanTest .ebtIsNotTrue (greater none)) false 7 := by
  refine ⟨⟨by decide,⟨[⟨none,.eriExcluded,some (5 : ℤ),.eriIncluded⟩],false⟩,?_⟩,
    ⟨by decide,⟨[],false⟩,?_⟩,
    ⟨by decide,⟨[⟨some (1 : ℤ),.eriIncluded,some (1 : ℤ),.eriIncluded⟩],true⟩,?_⟩,
    ⟨by decide,⟨[⟨none,.eriExcluded,some (1 : ℤ),.eriExcluded⟩,
      ⟨some (1 : ℤ),.eriExcluded,some (2 : ℤ),.eriExcluded⟩,
      ⟨some (2 : ℤ),.eriExcluded,none,.eriExcluded⟩],false⟩,?_⟩,
    ⟨by decide,⟨[⟨none,.eriExcluded,some ⊥,.eriIncluded⟩],true⟩,?_⟩⟩
  all_goals decide +kernel

theorem keeps_qualifying_greaterAndEven :
    ∃ pci, pciIntervalFromScalarExpr settings colref false .emdindSentinel greaterAndEven =
        .ok (some pci) ∧
      ∀ value, (greaterAndEven.eval noOp colref value).getD false = true → pci.Contains value := by
  have hpci : pciIntervalFromScalarExpr settings colref false .emdindSentinel greaterAndEven =
      .ok (some ⟨[⟨some (5 : ℤ),.eriExcluded,none,.eriExcluded⟩],false⟩) := by
    decide +kernel
  refine ⟨_,hpci,(keeps_qualifying_iff settings colref noOp greaterAndEven false .emdindSentinel _
    hpci).mpr fun value => ?_⟩
  simp [greaterAndEven,greater,even,CScalarExpr.fSafe,CScalarExpr.outcomes,CScalarExpr.fSafeAnd,
    CScalarExpr.fConvertible,compareIdentToConst]

end LostValues

end PgOrca
