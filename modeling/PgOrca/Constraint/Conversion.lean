import PgOrca.Constraint.Flattening
import PgOrca.Constraint.ScalarForm
import PgOrca.Constraint.Qualifying

/-!
# Scalar forms and back

The predicate of a constraint on one column is of a shape that the extraction reads without error.
Combining constraints through their predicates is therefore exact, wherever predicates can be
written.
-/

namespace PgOrca

open CTableExpr List

variable {D : ℕ → Type*} [∀ colref, LinearOrder (D colref)] {colref : ℕ} {columns : CTableColumns D}

/-! ## Predicates that are read without error -/

namespace CConstraintInterval

variable {pcis : List (CConstraintInterval (IDatum (D colref)))}

/-- The interval is found, in normal form, and has exactly the values with the property. -/
def Found (answer : Except Fault (Option (CConstraintInterval (IDatum (D colref)))))
    (member : Option (D colref) → Prop) : Prop :=
  ∃ pci, answer = .ok (some pci) ∧ pci.Exactly member

theorem Exactly.congr {pci : CConstraintInterval (IDatum (D colref))}
    {member member' : Option (D colref) → Prop} (h : pci.Exactly member)
    (heq : ∀ value, member value ↔ member' value) : pci.Exactly member' :=
  ⟨h.normalForm,fun value => (h.contains_iff value).trans (heq value)⟩

theorem unionPairs_normalForm (h : ∀ pci ∈ pcis, pci.NormalForm) :
    ∀ pci ∈ unionPairs pcis, pci.NormalForm := by
  fun_induction unionPairs pcis with
  | case1 pci1 pci2 rest ih =>
    simp only [forall_mem_cons] at h ⊢
    exact ⟨(h.1.pciUnion h.2.1).normalForm,ih h.2.2⟩
  | case2 rest => exact h

theorem unionRounds_normalForm (first : CConstraintInterval (IDatum (D colref)))
    (hfst : first.NormalForm) (hrest : ∀ pci ∈ pcis, pci.NormalForm) :
    (unionRounds first pcis).NormalForm := by
  fun_induction unionRounds first pcis with
  | case1 first => exact hfst
  | case2 first second rest ih =>
    rw [forall_mem_cons] at hrest
    exact ih (hfst.pciUnion hrest.1).normalForm (unionPairs_normalForm hrest.2)

end CConstraintInterval

namespace CScalarExpr

open CConstraintInterval

variable (columns colref) in
/-- Comparisons with data, IN and NOT IN lists of data, IS NULL, TRUE and FALSE, and what is built
from them. -/
inductive Plain : CScalarExpr (D colref) → Prop where
  | scalarConst (value : Bool) : Plain (.scalarConst (some value))
  | scalarNullTest : Plain (.scalarNullTest .scalarIdent)
  | scalarCmp {cmpType : ECmpType} (datum : D colref) :
    cmpType ≠ .ecmptIDF → cmpType ≠ .ecmptOther →
      Plain (.scalarCmp cmpType .scalarIdent (.scalarConst (some datum)))
  | scalarIn {data : List (Option (D colref))} :
    (columns.settings colref).fArrayConstraints = true → data ≠ [] → none ∉ data →
      Plain (.scalarArrayCmp .ecmptEq .earrcmpAny .scalarIdent (.scalarConstArray false data))
  | scalarNotIn {data : List (Option (D colref))} :
    (columns.settings colref).fArrayConstraints = true → data ≠ [] → none ∉ data →
      Plain (.scalarArrayCmp .ecmptNEq .earrcmpAll .scalarIdent (.scalarConstArray false data))
  | scalarBoolAnd {first : CScalarExpr (D colref)} {rest : List (CScalarExpr (D colref))} :
    (∀ e ∈ first :: rest, Plain e) → Plain (.scalarBoolAnd first rest)
  | scalarBoolOr {first : CScalarExpr (D colref)} {rest : List (CScalarExpr (D colref))} :
    (∀ e ∈ first :: rest, Plain e) → Plain (.scalarBoolOr first rest)
  | scalarBoolNot {child : CScalarExpr (D colref)} : Plain child → Plain (.scalarBoolNot child)

variable (columns colref) in
/-- The values at which the predicate qualifies are found. -/
def Read (e : CScalarExpr (D colref)) : Prop :=
  ∀ inferNullsAs, Found
    (pciIntervalFromScalarExpr (columns.settings colref) (columns.md colref) inferNullsAs
      .emdindSentinel e)
    fun value => (e.eval (columns.otherOp colref)
      (columns.md colref) value).getD inferNullsAs = true

theorem read_scalarConst (value : Bool) :
    Read colref columns (.scalarConst (some value)) := by
  intro inferNullsAs
  cases value with
  | true =>
    obtain ⟨universal,huniv⟩ := CConstraint.exists_pciUnbounded columns colref true
    refine ⟨universal,by simp [pciIntervalFromScalarExpr,huniv],
      pciUnbounded_normalForm columns huniv,
      fun value => ?_⟩
    simpa [eval] using contains_pciUnbounded columns huniv value
  | false =>
    refine ⟨⟨[],false⟩,by simp [pciIntervalFromScalarExpr],⟨ordered_nil,by simp [EndsIn]⟩,
      fun value => ?_⟩
    cases value <;> simp [eval,Contains]

theorem read_scalarNullTest : Read colref columns (.scalarNullTest .scalarIdent) := by
  intro inferNullsAs
  refine ⟨⟨[],true⟩,by simp [pciIntervalFromScalarExpr,pciIntervalFromScalarNullTest],
    ⟨ordered_nil,by simp [EndsIn]⟩,fun value => ?_⟩
  cases value <;> simp [eval,Contains,COperand.eval]

theorem read_scalarCmp {cmpType : ECmpType} (datum : D colref) (hidf : cmpType ≠ .ecmptIDF)
    (hoth : cmpType ≠ .ecmptOther) :
    Read colref columns (.scalarCmp cmpType .scalarIdent (.scalarConst (some datum))) := by
  intro inferNullsAs
  have hsome : (pciRangeFromColConstCmp cmpType (datum : IDatum (D colref))).isSome := by
    cases cmpType <;> first | rfl | exact absurd rfl hoth
  obtain ⟨ranges,hrs⟩ := Option.isSome_iff_exists.mp hsome
  obtain ⟨hord,hmem⟩ := pciRangeFromColConstCmp_spec cmpType (datum : IDatum (D colref)) hrs
  refine ⟨⟨ranges,inferNullsAs⟩,?_,⟨hord,?_⟩,fun value => ?_⟩
  · have hop := columns.fOpInOpfamilies colref cmpType (some datum)
    simp only [pciIntervalFromScalarExpr,pciIntervalFromScalarCmp,compareIdentToConst,hop,if_true]
    exact congrArg (fun ranges => Except.ok (Option.map _ ranges)) hrs
  · cases cmpType <;> cases hrs <;> simp [EndsIn,CRange.EndsIn,CRange.ofCmp]
  · refine (contains_ranges (fun v : D colref => hmem v) value).trans ?_
    rw [eval,COperand.eval,COperand.eval,compare_some hidf hoth]

omit [∀ colref, LinearOrder (D colref)] in
theorem endsIn_notInRanges {prev : Option (IDatum (D colref))} (data : List (D colref))
    (hprev : ∀ a ∈ prev, a ≠ ⊥) : EndsIn (· ≠ ⊥) (notInRanges prev data) := by
  induction data generalizing prev with
  | nil => simpa [notInRanges,EndsIn,CRange.EndsIn] using hprev
  | cons d data ih =>
    rw [notInRanges,EndsIn,forall_mem_cons]
    exact ⟨⟨hprev,by simp⟩,ih (by simp)⟩

section

variable {data : List (Option (D colref))}
  (htrace : (columns.settings colref).fArrayConstraints = true) (hne : data ≠ [])
  (hvs : none ∉ data)

include htrace hne hvs

theorem read_scalarIn : Read colref columns
    (.scalarArrayCmp .ecmptEq .earrcmpAny .scalarIdent (.scalarConstArray false data)) := by
  intro inferNullsAs
  refine ⟨⟨inRanges (datumSortedSet data),inferNullsAs⟩,?_,
    ⟨ordered_inRanges (pairwise_datumSortedSet _),?_⟩,fun value => ?_⟩
  · simp [pciIntervalFromScalarExpr,htrace,pcnstrIntervalFromScalarArrayCmp,
      compareIdentToConstArray,hne]
  · intro r hr
    obtain ⟨d,-,rfl⟩ := mem_map.mp hr
    simp [CRange.EndsIn,CRange.ofCmp]
  · have hmem (v : D colref) : decide (v ∈ datumSortedSet data) = true ↔ some v ∈ data := by
      rw [decide_eq_true_eq,mem_datumSortedSet]
    have heval := eval_anyEq hne hvs value (columns.otherOp colref) hmem
    refine (contains_ranges (fun v => ((inRanges_inRanges _ v).trans
      mem_datumSortedSet).trans (hmem v).symm) value).trans ?_
    rw [eval,COperand.eval,CArrayOperand.eval,Option.bind_some,show EArrCmpType.eval _ _ = _ from
      heval]
    cases value <;> rfl

theorem read_scalarNotIn : Read colref columns
    (.scalarArrayCmp .ecmptNEq .earrcmpAll .scalarIdent (.scalarConstArray false data)) := by
  intro inferNullsAs
  have hset : datumSortedSet data ≠ [] := by
    obtain ⟨t,ht⟩ := exists_mem_of_ne_nil _ hne
    cases t with
    | none => exact absurd ht hvs
    | some d => exact ne_nil_of_mem (mem_datumSortedSet.mpr ht)
  obtain ⟨hord,-,hmem⟩ := notInRanges_spec none (datumSortedSet data) (by simp)
    (pairwise_datumSortedSet _)
  refine ⟨⟨notInRanges none (datumSortedSet data),inferNullsAs⟩,?_,⟨hord,?_⟩,fun value => ?_⟩
  · simp [pciIntervalFromScalarExpr,htrace,pcnstrIntervalFromScalarArrayCmp,
      compareIdentToConstArray,hne,hset]
  · exact endsIn_notInRanges _ (by simp)
  · have hnot (v : D colref) : decide (v ∉ datumSortedSet data) = true ↔ some v ∉ data := by
      rw [decide_eq_true_eq,mem_datumSortedSet]
    have heval := eval_allNEq hne hvs value (columns.otherOp colref) hnot
    have hin (v : D colref) : InRanges (notInRanges none (datumSortedSet data))
        (v : IDatum (D colref)) ↔ decide (v ∉ datumSortedSet data) = true := by
      rw [hmem,decide_eq_true_eq]
      simp only [Option.not_mem_none,false_imp_iff,implies_true,true_and,ne_eq,WithBot.coe_inj]
      exact ⟨fun h hv => h v hv rfl,fun h d hd heq => h (heq ▸ hd)⟩
    refine (contains_ranges hin value).trans ?_
    rw [eval,COperand.eval,CArrayOperand.eval,Option.bind_some,show EArrCmpType.eval _ _ = _ from
      heval]
    cases value <;> rfl

end

section

variable {es : List (CScalarExpr (D colref))} (h : ∀ e ∈ es, Read colref columns e)
  (inferNullsAs : Bool)

include h

/-- The conjuncts that follow cut down the interval found so far. -/
theorem found_boolAndLoop {pci : CConstraintInterval (IDatum (D colref))}
    {member : Option (D colref) → Prop} (hpci : pci.Exactly member) :
    Found (boolAndLoop (columns.settings colref) (columns.md colref) inferNullsAs .emdindSentinel
        (some pci) es)
      fun value => member value ∧ ∀ e ∈ es, (e.eval (columns.otherOp colref) (columns.md colref)
        value).getD inferNullsAs = true := by
  induction es generalizing pci member with
  | nil => exact ⟨pci,by rw [boolAndLoop],hpci.congr fun value => by simp⟩
  | cons e es ih =>
    rw [forall_mem_cons] at h
    obtain ⟨pciChild,hfound,hchild⟩ := h.1 inferNullsAs
    have hcut := hpci.normalForm.pciIntersect hchild.normalForm
    obtain ⟨pci',hloop,hexact⟩ := ih h.2 hcut
    refine ⟨pci',?_,hexact.congr fun value => ?_⟩
    · rw [boolAndLoop,hfound]
      exact hloop
    · rw [hpci.contains_iff,hchild.contains_iff,forall_mem_cons,and_assoc]

theorem exists_boolOrChildren :
    ∃ pcis, boolOrChildren (columns.settings colref) (columns.md colref) inferNullsAs
        .emdindSentinel es = .ok (some pcis) ∧
      (∀ pci ∈ pcis, pci.NormalForm) ∧
      ∀ value, (∃ pci ∈ pcis, pci.Contains value) ↔ ∃ e ∈ es,
        (e.eval (columns.otherOp colref) (columns.md colref) value).getD inferNullsAs = true := by
  induction es with
  | nil => exact ⟨[],by rw [boolOrChildren],by simp⟩
  | cons e es ih =>
    rw [forall_mem_cons] at h
    obtain ⟨pci,hfound,hpci⟩ := h.1 inferNullsAs
    obtain ⟨pcis,hchi,hnorm,hmem⟩ := ih h.2
    refine ⟨pci :: pcis,?_,forall_mem_cons.mpr ⟨hpci.normalForm,hnorm⟩,fun value => ?_⟩
    · rw [boolOrChildren,hfound,hchi]
      rfl
    · rw [exists_mem_cons_iff,exists_mem_cons_iff,hmem,hpci.contains_iff]

end

variable {first child : CScalarExpr (D colref)} {rest : List (CScalarExpr (D colref))}

theorem read_scalarBoolAnd (h : ∀ e ∈ first :: rest, Read colref columns e) :
    Read colref columns (.scalarBoolAnd first rest) := by
  intro inferNullsAs
  rw [forall_mem_cons] at h
  obtain ⟨pci,hfound,hpci⟩ := h.1 inferNullsAs
  obtain ⟨pci',hloop,hexact⟩ := found_boolAndLoop h.2 inferNullsAs hpci
  refine ⟨pci',?_,hexact.congr fun value => ?_⟩
  · rw [pciIntervalFromScalarExpr,hfound]
    exact hloop
  · rw [eval,Kleene.getD_all,evalAll_eq_map]
    simp

theorem read_scalarBoolOr (h : ∀ e ∈ first :: rest, Read colref columns e) :
    Read colref columns (.scalarBoolOr first rest) := by
  intro inferNullsAs
  rw [forall_mem_cons] at h
  obtain ⟨pci,hfound,hpci⟩ := h.1 inferNullsAs
  obtain ⟨pcis,hchi,hnorm,hmem⟩ := exists_boolOrChildren h.2 inferNullsAs
  refine ⟨unionRounds pci pcis,?_,unionRounds_normalForm pci hpci.normalForm hnorm,
    fun value => ?_⟩
  · rw [pciIntervalFromScalarExpr,hfound]
    exact congrArg (fun answer => answer.map (Option.map (unionRounds pci))) hchi
  · obtain ⟨-,hunion⟩ := unionRounds_spec pci pcis hpci.normalForm.wellFormed
      fun pci hp => (hnorm pci hp).wellFormed
    rw [hunion,hpci.contains_iff,hmem,eval,Kleene.getD_any,evalAll_eq_map]
    simp

theorem read_scalarBoolNot (h : Read colref columns child) :
    Read colref columns (.scalarBoolNot child) := by
  intro inferNullsAs
  obtain ⟨pci,hfound,hpci⟩ := h (!inferNullsAs)
  obtain ⟨complement,hcomp,hexact⟩ := hpci.normalForm.pciComplement columns
  refine ⟨complement,?_,hexact.congr fun value => ?_⟩
  · rw [pciIntervalFromScalarExpr,hfound]
    exact congrArg (Except.map some) hcomp
  · rw [hpci.contains_iff,eval]
    simp

theorem Plain.read {e : CScalarExpr (D colref)} (h : Plain colref columns e) :
    Read colref columns e := by
  induction h with
  | scalarConst value => exact read_scalarConst value
  | scalarNullTest => exact read_scalarNullTest
  | scalarCmp datum hidf hoth => exact read_scalarCmp datum hidf hoth
  | scalarIn htrace hne hvs => exact read_scalarIn htrace hne hvs
  | scalarNotIn htrace hne hvs => exact read_scalarNotIn htrace hne hvs
  | scalarBoolAnd _ ih => exact read_scalarBoolAnd ih
  | scalarBoolOr _ ih => exact read_scalarBoolOr ih
  | scalarBoolNot _ ih => exact read_scalarBoolNot ih

end CScalarExpr

/-! ## Predicates of constraints on one column -/

variable (columns colref) in
/-- A predicate over one column only, of parts that are read without error. -/
inductive CTableExpr.Form : CTableExpr D → Prop where
  | scalarConst (value : Bool) : Form (.scalarConst (some value))
  | onColumn {e : CScalarExpr (D colref)} : e.Plain colref columns → Form (.onColumn colref e)
  | scalarBoolAnd {children : List (CTableExpr D)} :
    (∀ e ∈ children, Form e) → Form (.scalarBoolAnd children)
  | scalarBoolOr {children : List (CTableExpr D)} :
    (∀ e ∈ children, Form e) → Form (.scalarBoolOr children)
  | scalarBoolNot {child : CTableExpr D} : Form child → Form (.scalarBoolNot child)

namespace CTableExpr

variable {e : CTableExpr D} {es : List (CTableExpr D)}

omit [∀ colref, LinearOrder (D colref)] in
theorem toScalarExprs_eq_map : toScalarExprs colref es = es.map (toScalarExpr colref) := by
  induction es with
  | nil => rfl
  | cons e es ih => rw [toScalarExprs,ih,map_cons]

theorem Form.toScalarExpr (h : Form colref columns e) (row : TableRow D) :
    (e.toScalarExpr colref).Plain colref columns ∧
      (e.toScalarExpr colref).eval (columns.otherOp colref) (columns.md colref) (row colref) =
        eval columns row e := by
  induction h with
  | scalarConst value =>
    exact ⟨.scalarConst value,by rw [CTableExpr.toScalarExpr,CScalarExpr.eval,eval]⟩
  | onColumn hpl =>
    rw [CTableExpr.toScalarExpr,dif_pos rfl,eval]
    exact ⟨hpl,rfl⟩
  | @scalarBoolAnd children _ ih =>
    rw [CTableExpr.toScalarExpr,toScalarExprs_eq_map,eval,evalAll_eq_map]
    cases children with
    | nil => exact ⟨.scalarConst true,by rw [map_nil,CScalarExpr.eval]; rfl⟩
    | cons e es =>
      refine ⟨.scalarBoolAnd (forall_mem_map.mpr fun e he => (ih e he).1),?_⟩
      simp only [map_cons]
      rw [CScalarExpr.eval,CScalarExpr.evalAll_eq_map,← map_cons,← map_cons,← map_cons,map_map]
      refine congrArg Kleene.all ?_
      exact map_congr_left fun e he => (ih e he).2
  | @scalarBoolOr children _ ih =>
    rw [CTableExpr.toScalarExpr,toScalarExprs_eq_map,eval,evalAll_eq_map]
    cases children with
    | nil => exact ⟨.scalarConst false,by rw [map_nil,CScalarExpr.eval]; rfl⟩
    | cons e es =>
      refine ⟨.scalarBoolOr (forall_mem_map.mpr fun e he => (ih e he).1),?_⟩
      simp only [map_cons]
      rw [CScalarExpr.eval,CScalarExpr.evalAll_eq_map,← map_cons,← map_cons,← map_cons,map_map]
      refine congrArg Kleene.any ?_
      exact map_congr_left fun e he => (ih e he).2
  | scalarBoolNot _ ih =>
    rw [CTableExpr.toScalarExpr,CScalarExpr.eval,eval,ih.2]
    exact ⟨.scalarBoolNot ih.1,rfl⟩

/-- The interval of such a predicate is found and has exactly the values at which it is TRUE. -/
theorem Form.exists_interval (h : Form colref columns e) :
    ∃ pci, columns.pciIntervalFromScalarExpr colref e = .ok (some pci) ∧ pci.NormalForm ∧
      ∀ row, pci.Contains (row colref) ↔ eval columns row e = some true := by
  obtain ⟨pci,hpci,hexact⟩ := (h.toScalarExpr fun _ => none).1.read false
  refine ⟨pci,hpci,hexact.normalForm,fun row => ?_⟩
  rw [hexact.contains_iff,(h.toScalarExpr row).2]
  rcases eval columns row e with _ | _ | _ <;> simp

theorem Form.pexprConjDisj {fConj : Bool} (h : ∀ e ∈ es, Form colref columns e) :
    Form colref columns (pexprConjDisj fConj es) := by
  unfold CTableExpr.pexprConjDisj
  split
  · exact .scalarConst _
  · have hfinal : ∀ e ∈ es.filter fun e => !fScalarConstBool fConj e, Form colref columns e :=
      fun e he => h e (mem_of_mem_filter he)
    split
    · exact .scalarConst _
    · next e heq => exact hfinal e (by simp [heq])
    · cases fConj
      · exact .scalarBoolOr hfinal
      · exact .scalarBoolAnd hfinal

end CTableExpr

open CTableExpr (Form)

theorem form_pexprScalarCmp {datum : IDatum (D colref)} {cmpType : ECmpType} (hdatum : datum ≠ ⊥)
    (hidf : cmpType ≠ .ecmptIDF) (hoth : cmpType ≠ .ecmptOther) :
    Form colref columns (pexprScalarCmp colref datum cmpType) := by
  obtain ⟨a,rfl⟩ := WithBot.ne_bot_iff_exists.mp hdatum
  exact .onColumn (.scalarCmp a hidf hoth)

theorem form_pexprIsNull : Form colref columns (pexprIsNull colref) :=
  .onColumn .scalarNullTest

theorem CRange.form_pexprScalar {r : CRange (IDatum (D colref))} (hends : r.EndsIn (· ≠ ⊥)) :
    Form colref columns (r.pexprScalar colref) := by
  unfold CRange.pexprScalar
  split
  · next e he =>
    unfold CRange.pexprEquality at he
    split at he
    · next left right hleft hright =>
      split_ifs at he
      cases he
      exact form_pexprScalarCmp (hends.1 left hleft) (by simp) (by simp)
    · cases he
  · refine Form.pexprConjDisj fun e he => ?_
    rw [reduceOption_mem_iff] at he
    simp only [mem_cons,not_mem_nil,or_false,pexprScalarCompEnd,eq_comm (a := some e),
      Option.map_eq_some_iff] at he
    rcases he with ⟨a,ha,rfl⟩ | ⟨b,hb,rfl⟩
    · exact form_pexprScalarCmp (hends.1 a ha) (by split_ifs <;> simp) (by split_ifs <;> simp)
    · exact form_pexprScalarCmp (hends.2 b hb) (by split_ifs <;> simp) (by split_ifs <;> simp)

namespace CConstraintInterval

variable {pci : CConstraintInterval (IDatum (D colref))} {pexpr : CTableExpr D}

theorem form_pexprScalarArrayCmp {earrcmptype : EArrCmpType} {ecmptype : ECmpType}
    {data : List (Option (D colref))} (hvs : none ∉ data) (hidf : ecmptype ≠ .ecmptIDF)
    (hoth : ecmptype ≠ .ecmptOther)
    (hpl : CScalarExpr.Plain colref columns (.scalarArrayCmp ecmptype earrcmptype .scalarIdent
      (.scalarConstArray false data)))
    (h : pexprScalarArrayCmp colref columns earrcmptype ecmptype data = some pexpr) :
    Form colref columns pexpr := by
  unfold pexprScalarArrayCmp at h
  rw [Option.ite_none_right_eq_some] at h
  rcases data with _ | ⟨datum,_ | ⟨second,rest⟩⟩
  · cases h.2
    exact .onColumn hpl
  · cases h.2
    exact form_pexprScalarCmp (fun hbot => hvs (by simp [show datum = none from hbot])) hidf hoth
  · cases h.2
    exact .onColumn hpl

theorem form_pexprConstructArray {fIn : Bool}
    (hdata : ∀ e, pexprArrayOfRanges colref columns fIn pci = some e → Form colref columns e)
    (h : pexprConstructArray colref columns fIn pci = .ok (some pexpr)) :
    Form colref columns pexpr := by
  unfold pexprConstructArray at h
  split at h
  · exact hdata pexpr (by simpa using h)
  · next e he _ =>
    cases h
    refine Form.pexprConjDisj fun e' he' => ?_
    simp only [mem_cons,not_mem_nil,or_false] at he'
    rcases he' with rfl | rfl
    · exact hdata _ he
    · exact form_pexprIsNull
  · cases h

theorem NormalForm.form_pexprConstructArrayScalar (hpci : pci.NormalForm)
    (harray : (columns.settings colref).fArrayConstraints = true)
    (h : pexprConstructArrayScalar colref columns pci = .ok (some pexpr)) :
    Form colref columns pexpr := by
  unfold pexprConstructArrayScalar at h
  split_ifs at h with hin hnotIn
  · refine form_pexprConstructArray (fun e he => ?_) h
    have hvs := hpci.bot_notMem_rights (Subset.refl _)
    exact form_pexprScalarArrayCmp hvs (by simp) (by simp)
      (.scalarIn harray (rights_ne_nil hin) hvs) he
  · refine form_pexprConstructArray (fun e he => ?_) h
    have hvs := hpci.bot_notMem_rights (dropLast_subset _)
    exact form_pexprScalarArrayCmp hvs (by simp) (by simp)
      (.scalarNotIn harray (hpci.gaps_ne_nil hnotIn) hvs) he
  · cases h

theorem NormalForm.form_pexprConstructDisjunctionScalar (hpci : pci.NormalForm) :
    Form colref columns (pexprConstructDisjunctionScalar colref pci) := by
  have hrs : ∀ e ∈ pci.pdrgprng.map (CRange.pexprScalar colref), Form colref columns e :=
    forall_mem_map.mpr fun r hr => r.form_pexprScalar (hpci.ends r hr)
  unfold pexprConstructDisjunctionScalar
  simp only
  split
  · split
    · exact .scalarConst true
    · exact .scalarBoolNot form_pexprIsNull
  · refine Form.pexprConjDisj fun e he => ?_
    rcases mem_append.mp he with he | he
    · exact hrs e he
    · rw [mem_ite_nil_right,mem_singleton] at he
      exact he.2 ▸ form_pexprIsNull

theorem NormalForm.form_pexprConstructScalar (hpci : pci.NormalForm)
    (h : pexprConstructScalar colref columns pci = .ok pexpr) : Form colref columns pexpr := by
  unfold pexprConstructScalar at h
  split_ifs at h with hctr harray
  · cases h
    exact .scalarConst false
  · obtain ⟨array,heq,h⟩ := bind_eq_ok.mp h
    cases h
    cases array with
    | none => exact hpci.form_pexprConstructDisjunctionScalar
    | some e => exact hpci.form_pexprConstructArrayScalar harray heq
  · cases h
    exact hpci.form_pexprConstructDisjunctionScalar

end CConstraintInterval

namespace CConstraint

open CConstraintInterval hiding fContradiction isConstraintUnbounded

/-- The intervals of the constraint are in normal form. -/
inductive Normal : CConstraint D → Prop where
  | interval {colref : ℕ} {pci : CConstraintInterval (IDatum (D colref))} :
    pci.NormalForm → Normal (interval colref pci)
  | conjunction {pdrgpcnstr : List (CConstraint D)} :
    (∀ pcnstr ∈ pdrgpcnstr, Normal pcnstr) → Normal (conjunction pdrgpcnstr)
  | disjunction {pdrgpcnstr : List (CConstraint D)} :
    (∀ pcnstr ∈ pdrgpcnstr, Normal pcnstr) → Normal (disjunction pdrgpcnstr)
  | negation {pcnstr : CConstraint D} : Normal pcnstr → Normal (negation pcnstr)

variable {pcnstr : CConstraint D} {pdrgpcnstr : List (CConstraint D)} {row : TableRow D}

omit [∀ colref, LinearOrder (D colref)] in
theorem mem_pcrsFromConstraints :
    colref ∈ pcrsFromConstraints pdrgpcnstr ↔ ∃ pcnstr ∈ pdrgpcnstr, colref ∈ pcnstr.pcrsUsed := by
  induction pdrgpcnstr with
  | nil => simp [pcrsFromConstraints]
  | cons pcnstr pdrgpcnstr ih =>
    rw [pcrsFromConstraints,mem_union_iff,ih,exists_mem_cons_iff]

theorem exists_of_mem_pexprScalars {es : List (CTableExpr D)} {e : CTableExpr D}
    (hes : pexprScalars columns pdrgpcnstr = .ok es) (he : e ∈ es) :
    ∃ pcnstr ∈ pdrgpcnstr, pcnstr.pexprScalar columns = .ok e := by
  replace hes := (pexprScalars_eq_ok columns).mp hes
  induction hes with
  | nil => simp at he
  | @cons pcnstr e' pdrgpcnstr es heq _ ih =>
    rcases mem_cons.mp he with rfl | he
    · exact ⟨pcnstr,mem_cons_self,heq⟩
    · obtain ⟨p,hp,heq⟩ := ih he
      exact ⟨p,mem_cons_of_mem _ hp,heq⟩

section

variable {fConj fContradictory : Bool} {e : CTableExpr D}

/-- The predicate of a conjunction or disjunction is FALSE or made from those of its children. -/
theorem form_of_children
    (h : ∀ pcnstr ∈ pdrgpcnstr, ∀ e, pcnstr.pexprScalar columns = .ok e → Form colref columns e)
    (he : (if fContradictory then .ok (scalarConst (some false))
      else return pexprConjDisj fConj (← pexprScalars columns pdrgpcnstr)) = Except.ok e) :
    Form colref columns e := by
  split_ifs at he
  · cases he
    exact .scalarConst false
  · obtain ⟨es,hes,he⟩ := bind_eq_ok.mp he
    cases he
    refine Form.pexprConjDisj fun e he => ?_
    obtain ⟨pcnstr,hmem,heq⟩ := exists_of_mem_pexprScalars hes he
    exact h pcnstr hmem e heq

theorem form_of_negated {answer : Except Fault (CTableExpr D)}
    (h : ∀ e, answer = .ok e → Form colref columns e)
    (he : (return scalarBoolNot (← answer)) = Except.ok e) : Form colref columns e := by
  obtain ⟨e',he',he⟩ := bind_eq_ok.mp he
  cases he
  exact .scalarBoolNot (h e' he')

end

/-- The predicate of a constraint on one column, and that of its negation. -/
theorem Normal.form (h : Normal pcnstr) (hcol : ∀ pcr ∈ pcnstr.pcrsUsed, pcr = colref) :
    (∀ e, pcnstr.pexprScalar columns = .ok e → Form colref columns e) ∧
      ∀ e, (CConstraint.negation pcnstr).pexprScalar columns = .ok e → Form colref columns e := by
  induction h with
  | @interval pcr pci hpci =>
    obtain rfl : pcr = colref := hcol pcr (by simp [pcrsUsed])
    refine ⟨fun e he => hpci.form_pexprConstructScalar he,fun e he => ?_⟩
    obtain ⟨complement,hcomp,hexact⟩ := hpci.pciComplement columns
    rw [pexprScalar,hcomp] at he
    exact hexact.normalForm.form_pexprConstructScalar he
  | @conjunction pdrgpcnstr _ ih =>
    have hform : ∀ e, (CConstraint.conjunction pdrgpcnstr).pexprScalar columns = .ok e →
        Form colref columns e := by
      intro e he
      rw [pexprScalar] at he
      refine form_of_children (fun p hp => (ih p hp fun pcr hpcr => ?_).1) he
      exact hcol pcr (mem_pcrsFromConstraints.mpr ⟨p,hp,hpcr⟩)
    refine ⟨hform,fun e he => ?_⟩
    rw [pexprScalar] at he
    exact form_of_negated hform he
  | @disjunction pdrgpcnstr _ ih =>
    have hform : ∀ e, (CConstraint.disjunction pdrgpcnstr).pexprScalar columns = .ok e →
        Form colref columns e := by
      intro e he
      rw [pexprScalar] at he
      refine form_of_children (fun p hp => (ih p hp fun pcr hpcr => ?_).1) he
      exact hcol pcr (mem_pcrsFromConstraints.mpr ⟨p,hp,hpcr⟩)
    refine ⟨hform,fun e he => ?_⟩
    rw [pexprScalar] at he
    exact form_of_negated hform he
  | negation _ ih =>
    refine ⟨(ih hcol).2,fun e he => ?_⟩
    rw [pexprScalar] at he
    exact (ih hcol).1 e he

/-! ### With and without arrays -/

section

variable (columns)

mutual

theorem fContradiction_withoutArrays : (pcnstr : CConstraint D) →
    pcnstr.fContradiction columns.withoutArrays = pcnstr.fContradiction columns
  | .interval colref pci => by
    rw [fContradiction,fContradiction]
    rfl
  | .conjunction pdrgpcnstr => by
    rw [fContradiction,fContradiction,anyContradiction_withoutArrays]
  | .disjunction pdrgpcnstr => by
    rw [fContradiction,fContradiction,allContradiction_withoutArrays]
  | .negation pcnstr => by
    rw [fContradiction,fContradiction,isConstraintUnbounded_withoutArrays]

theorem isConstraintUnbounded_withoutArrays : (pcnstr : CConstraint D) →
    pcnstr.isConstraintUnbounded columns.withoutArrays = pcnstr.isConstraintUnbounded columns
  | .interval colref pci => by rw [isConstraintUnbounded,isConstraintUnbounded]
  | .conjunction pdrgpcnstr => by rw [isConstraintUnbounded,isConstraintUnbounded]
  | .disjunction pdrgpcnstr => by rw [isConstraintUnbounded,isConstraintUnbounded]
  | .negation pcnstr => by
    rw [isConstraintUnbounded,isConstraintUnbounded,fContradiction_withoutArrays]

theorem anyContradiction_withoutArrays : (pdrgpcnstr : List (CConstraint D)) →
    anyContradiction columns.withoutArrays pdrgpcnstr = anyContradiction columns pdrgpcnstr
  | [] => by rw [anyContradiction,anyContradiction]
  | pcnstr :: pdrgpcnstr => by
    rw [anyContradiction,anyContradiction,fContradiction_withoutArrays,
      anyContradiction_withoutArrays]

theorem allContradiction_withoutArrays : (pdrgpcnstr : List (CConstraint D)) →
    allContradiction columns.withoutArrays pdrgpcnstr = allContradiction columns pdrgpcnstr
  | [] => by rw [allContradiction,allContradiction]
  | pcnstr :: pdrgpcnstr => by
    rw [allContradiction,allContradiction,fContradiction_withoutArrays,
      allContradiction_withoutArrays]

end

variable (row : TableRow D)

mutual

theorem eval_withoutArrays : (e : CTableExpr D) →
    eval columns.withoutArrays row e = eval columns row e
  | .scalarConst t => by rw [eval,eval]
  | .onColumn colref e => by
    rw [eval,eval]
    rfl
  | .scalarBoolAnd children => by rw [eval,eval,evalAll_withoutArrays]
  | .scalarBoolOr children => by rw [eval,eval,evalAll_withoutArrays]
  | .scalarBoolNot child => by rw [eval,eval,eval_withoutArrays]
  | .other f => by rw [eval,eval]

theorem evalAll_withoutArrays : (es : List (CTableExpr D)) →
    evalAll columns.withoutArrays row es = evalAll columns row es
  | [] => by rw [evalAll,evalAll]
  | e :: es => by rw [evalAll,evalAll,eval_withoutArrays,evalAll_withoutArrays]

end

end

variable (columns) in
/-- Where the first predicate can be written so can the second, and they have the same truth
values. -/
def Agree (answer answer' : Except Fault (CTableExpr D)) : Prop :=
  ∀ e, answer = .ok e → ∃ e', answer' = .ok e' ∧ ∀ row, eval columns row e = eval columns row e'

theorem agree_pexprScalars {es : List (CTableExpr D)}
    (h : ∀ pcnstr ∈ pdrgpcnstr, Agree columns (pcnstr.pexprScalar columns)
      (pcnstr.pexprScalar columns.withoutArrays)) (hes : pexprScalars columns pdrgpcnstr = .ok es) :
    ∃ es', pexprScalars columns.withoutArrays pdrgpcnstr = .ok es' ∧
      ∀ row, es.map (eval columns row) = es'.map (eval columns row) := by
  replace hes := (pexprScalars_eq_ok columns).mp hes
  simp only [pexprScalars_eq_ok]
  induction hes with
  | nil => exact ⟨[],.nil,fun row => rfl⟩
  | cons he _ ih =>
    rw [forall_mem_cons] at h
    obtain ⟨e',he',heval⟩ := h.1 _ he
    obtain ⟨es',hes',hevals⟩ := ih h.2
    exact ⟨e' :: es',.cons he' hes',fun row => by rw [map_cons,map_cons,heval,hevals]⟩

theorem agree_of_children {fConj fContradictory : Bool}
    (h : ∀ pcnstr ∈ pdrgpcnstr, Agree columns (pcnstr.pexprScalar columns)
      (pcnstr.pexprScalar columns.withoutArrays)) :
    Agree columns
      (if fContradictory then .ok (scalarConst (some false))
        else return pexprConjDisj fConj (← pexprScalars columns pdrgpcnstr))
      (if fContradictory then .ok (scalarConst (some false))
        else return pexprConjDisj fConj (← pexprScalars columns.withoutArrays pdrgpcnstr)) := by
  intro e he
  split_ifs at he ⊢
  · exact ⟨e,he,fun row => rfl⟩
  · obtain ⟨es,hes,he⟩ := bind_eq_ok.mp he
    cases he
    obtain ⟨es',hes',hevals⟩ := agree_pexprScalars h hes
    refine ⟨_,bind_eq_ok.mpr ⟨es',hes',rfl⟩,fun row => ?_⟩
    cases fConj with
    | false => rw [eval_pexprDisjunction,eval_pexprDisjunction,hevals]
    | true => rw [eval_pexprConjunction,eval_pexprConjunction,hevals]

theorem Agree.negated {answer answer' : Except Fault (CTableExpr D)}
    (h : Agree columns answer answer') : Agree columns (return scalarBoolNot (← answer))
      (return scalarBoolNot (← answer')) := by
  intro e he
  obtain ⟨e,heq,he⟩ := bind_eq_ok.mp he
  cases he
  obtain ⟨e',heq',heval⟩ := h e heq
  exact ⟨_,bind_eq_ok.mpr ⟨e',heq',rfl⟩,fun row => by rw [eval,eval,heval]⟩

theorem Normal.agree (h : Normal pcnstr) :
    Agree columns (pcnstr.pexprScalar columns) (pcnstr.pexprScalar columns.withoutArrays) ∧
      Agree columns ((CConstraint.negation pcnstr).pexprScalar columns)
        ((CConstraint.negation pcnstr).pexprScalar columns.withoutArrays) := by
  induction h with
  | interval hpci =>
    refine ⟨fun e he => hpci.eval_pexprConstructScalar he,fun e he => ?_⟩
    obtain ⟨complement,hcomp,hexact⟩ := hpci.pciComplement columns
    have hcomp' : pciComplement (columns.withoutArrays.md _) _ = .ok complement := hcomp
    rw [pexprScalar,hcomp] at he
    rw [pexprScalar,hcomp']
    exact hexact.normalForm.eval_pexprConstructScalar he
  | @conjunction pdrgpcnstr _ ih =>
    have hagree : Agree columns ((CConstraint.conjunction pdrgpcnstr).pexprScalar columns)
        ((CConstraint.conjunction pdrgpcnstr).pexprScalar columns.withoutArrays) := by
      rw [pexprScalar,pexprScalar,anyContradiction_withoutArrays]
      exact agree_of_children fun p hp => (ih p hp).1
    refine ⟨hagree,?_⟩
    rw [pexprScalar,pexprScalar]
    exact hagree.negated
  | @disjunction pdrgpcnstr _ ih =>
    have hagree : Agree columns ((CConstraint.disjunction pdrgpcnstr).pexprScalar columns)
        ((CConstraint.disjunction pdrgpcnstr).pexprScalar columns.withoutArrays) := by
      rw [pexprScalar,pexprScalar,allContradiction_withoutArrays]
      exact agree_of_children fun p hp => (ih p hp).1
    refine ⟨hagree,?_⟩
    rw [pexprScalar,pexprScalar]
    exact hagree.negated
  | negation _ ih =>
    refine ⟨ih.2,?_⟩
    rw [pexprScalar,pexprScalar]
    exact ih.1

/-! ### The rows that satisfy a constraint -/

variable (columns) in
theorem Normal.exists_pexprScalar (h : Normal pcnstr) :
    (∃ e, pcnstr.pexprScalar columns.withoutArrays = .ok e) ∧
      ∃ e, (CConstraint.negation pcnstr).pexprScalar columns.withoutArrays = .ok e := by
  have hinterval {colref : ℕ} (pci : CConstraintInterval (IDatum (D colref))) :
      ∃ e, pexprConstructScalar colref columns.withoutArrays pci = .ok e :=
    exists_pexprConstructScalar.mpr fun h => Bool.false_ne_true h.1
  induction h with
  | @interval colref pci hpci =>
    obtain ⟨complement,hcomp⟩ := exists_pciComplement columns.withoutArrays pci
    refine ⟨hinterval pci,?_⟩
    rw [pexprScalar,hcomp]
    exact hinterval complement
  | @conjunction pdrgpcnstr _ ih =>
    have hwrite : ∃ e, (CConstraint.conjunction pdrgpcnstr).pexprScalar columns.withoutArrays =
        .ok e := by
      rw [pexprScalar]
      split_ifs
      · exact ⟨_,rfl⟩
      · exact exists_bind_pure.mpr ((exists_pexprScalars _).mpr fun p hp => (ih p hp).1)
    refine ⟨hwrite,?_⟩
    rw [pexprScalar]
    exact exists_bind_pure.mpr hwrite
  | @disjunction pdrgpcnstr _ ih =>
    have hwrite : ∃ e, (CConstraint.disjunction pdrgpcnstr).pexprScalar columns.withoutArrays =
        .ok e := by
      rw [pexprScalar]
      split_ifs
      · exact ⟨_,rfl⟩
      · exact exists_bind_pure.mpr ((exists_pexprScalars _).mpr fun p hp => (ih p hp).1)
    refine ⟨hwrite,?_⟩
    rw [pexprScalar]
    exact exists_bind_pure.mpr hwrite
  | negation _ ih =>
    refine ⟨ih.2,?_⟩
    rw [pexprScalar]
    exact ih.1

theorem satisfied_iff_eval {e : CTableExpr D}
    (he : pcnstr.pexprScalar columns.withoutArrays = .ok e) :
    pcnstr.Satisfied columns row ↔ eval columns row e = some true := by
  constructor
  · rintro ⟨e',he',htrue⟩
    cases he.symm.trans he'
    exact htrue
  · exact fun htrue => ⟨e,he,htrue⟩

theorem Normal.satisfied_iff {e : CTableExpr D} (h : Normal pcnstr)
    (he : pcnstr.pexprScalar columns = .ok e) :
    pcnstr.Satisfied columns row ↔ eval columns row e = some true := by
  obtain ⟨e',he',heval⟩ := h.agree.1 e he
  rw [satisfied_iff_eval he',heval]

theorem satisfied_interval {pci : CConstraintInterval (IDatum (D colref))} (hpci : pci.NormalForm) :
    (interval colref pci).Satisfied columns row ↔ pci.Contains (row colref) := by
  obtain ⟨⟨e,he⟩,-⟩ := (Normal.interval hpci).exists_pexprScalar columns
  rw [satisfied_iff_eval he,← eval_withoutArrays]
  exact hpci.eval_pexprConstructScalar_iff he

theorem not_satisfied_of_fContradiction (h : pcnstr.fContradiction columns) :
    ¬ pcnstr.Satisfied columns row := by
  rw [← fContradiction_withoutArrays] at h
  rw [satisfied_iff_eval (pexprScalar_of_fContradiction _ pcnstr h),eval]
  simp

theorem Normal.satisfied_iff_forall (h : Normal pcnstr) :
    pcnstr.Satisfied columns row ↔ ∀ e, pcnstr.pexprScalar columns.withoutArrays = .ok e →
      eval columns.withoutArrays row e = some true := by
  obtain ⟨⟨e,he⟩,-⟩ := h.exists_pexprScalar columns
  simp [satisfied_iff_eval he,he,eval_withoutArrays]

section

variable (h : ∀ pcnstr ∈ pdrgpcnstr, Normal pcnstr)

include h

theorem satisfied_conjunction : (conjunction pdrgpcnstr).Satisfied columns row ↔
    ∀ pcnstr ∈ pdrgpcnstr, pcnstr.Satisfied columns row := by
  by_cases hctr : anyContradiction columns pdrgpcnstr
  · obtain ⟨pcnstr,hmem,hp⟩ := (anyContradiction_iff columns).mp hctr
    refine iff_of_false (not_satisfied_of_fContradiction ?_) fun hall => ?_
    · rw [fContradiction,hctr]
    · exact not_satisfied_of_fContradiction hp (hall pcnstr hmem)
  · obtain ⟨⟨e,he⟩,-⟩ := (Normal.conjunction h).exists_pexprScalar columns
    rw [satisfied_iff_eval he,← eval_withoutArrays]
    rw [pexprScalar,anyContradiction_withoutArrays,if_neg hctr] at he
    refine (eval_pexprScalarConj he).trans (forall₂_congr fun pcnstr hmem => ?_)
    exact (h pcnstr hmem).satisfied_iff_forall.symm

theorem satisfied_disjunction : (disjunction pdrgpcnstr).Satisfied columns row ↔
    ∃ pcnstr ∈ pdrgpcnstr, pcnstr.Satisfied columns row := by
  by_cases hctr : allContradiction columns pdrgpcnstr
  · refine iff_of_false (not_satisfied_of_fContradiction ?_) ?_
    · rw [fContradiction,hctr]
    · rintro ⟨pcnstr,hmem,hrow⟩
      exact not_satisfied_of_fContradiction
        ((allContradiction_iff columns).mp hctr pcnstr hmem) hrow
  · obtain ⟨⟨e,he⟩,-⟩ := (Normal.disjunction h).exists_pexprScalar columns
    rw [satisfied_iff_eval he,← eval_withoutArrays]
    rw [pexprScalar,allContradiction_withoutArrays,if_neg hctr] at he
    refine (eval_pexprScalarDisj he).trans
      (exists_congr fun pcnstr => and_congr_right fun hmem => ?_)
    exact (h pcnstr hmem).satisfied_iff_forall.symm

end

/-- All constraints have the property, or one of them has it. -/
def Joined (fConj : Bool) (S : CConstraint D → Prop) (pdrgpcnstr : List (CConstraint D)) : Prop :=
  if fConj then ∀ pcnstr ∈ pdrgpcnstr, S pcnstr else ∃ pcnstr ∈ pdrgpcnstr, S pcnstr

variable {fConj : Bool}

theorem Normal.opened (h : Normal pcnstr) (fConj : Bool) : ∀ child ∈ pcnstr.opened fConj,
    Normal child := by
  intro child hch
  cases h with
  | conjunction hall =>
    cases fConj with
    | false => exact mem_singleton.mp hch ▸ .conjunction hall
    | true => exact hall child hch
  | disjunction hall =>
    cases fConj with
    | false => exact hall child hch
    | true => exact mem_singleton.mp hch ▸ .disjunction hall
  | interval h => cases fConj <;> exact mem_singleton.mp hch ▸ .interval h
  | negation h => cases fConj <;> exact mem_singleton.mp hch ▸ .negation h

theorem Normal.joined_opened (h : Normal pcnstr) (fConj : Bool) :
    Joined fConj (Satisfied columns row) (pcnstr.opened fConj) ↔ pcnstr.Satisfied columns row := by
  cases h with
  | conjunction hall =>
    cases fConj with
    | false => simp [Joined,CConstraint.opened]
    | true => exact (satisfied_conjunction hall).symm
  | disjunction hall =>
    cases fConj with
    | false => exact (satisfied_disjunction hall).symm
    | true => simp [Joined,CConstraint.opened]
  | interval | negation => cases fConj <;> simp [Joined,CConstraint.opened]

section

variable (h : ∀ pcnstr ∈ pdrgpcnstr, Normal pcnstr)

include h

theorem normal_opened (fConj : Bool) :
    ∀ child ∈ pdrgpcnstr.flatMap (CConstraint.opened fConj), Normal child := by
  intro child hch
  obtain ⟨pcnstr,hmem,hch⟩ := mem_flatMap.mp hch
  exact (h pcnstr hmem).opened fConj child hch

theorem joined_flatMap_opened :
    Joined fConj (Satisfied columns row) (pdrgpcnstr.flatMap (CConstraint.opened fConj)) ↔
      Joined fConj (Satisfied columns row) pdrgpcnstr := by
  have hop : ∀ pcnstr ∈ pdrgpcnstr, (Joined fConj (Satisfied columns row) (pcnstr.opened fConj) ↔
      pcnstr.Satisfied columns row) := fun pcnstr hmem => (h pcnstr hmem).joined_opened fConj
  cases fConj with
  | false =>
    simp only [Joined,Bool.false_eq_true,if_false] at hop ⊢
    simp only [mem_flatMap]
    grind
  | true =>
    simp only [Joined,if_true] at hop ⊢
    simp only [mem_flatMap]
    grind

/-- The combined predicate of the constraints on one column is converted without loss. -/
theorem exists_conversion {e : CTableExpr D}
    (he : pexprScalarConjDisj columns fConj (pdrgpcnstrOnColumn pdrgpcnstr colref) = .ok e) :
    ∃ pci, columns.pciIntervalFromScalarExpr colref e = .ok (some pci) ∧ pci.NormalForm ∧
      ∀ row, pci.Contains (row colref) ↔ eval columns row e = some true := by
  obtain ⟨es,hes,he⟩ := bind_eq_ok.mp he
  cases he
  apply Form.exists_interval
  refine Form.pexprConjDisj fun e he => ?_
  obtain ⟨pcnstr,hcol,heq⟩ := exists_of_mem_pexprScalars hes he
  obtain ⟨hmem,hused⟩ := mem_pdrgpcnstrOnColumn.mp hcol
  exact ((h pcnstr hmem).form (by simp [hused])).1 e heq

theorem combined_spec {merged : Option (CConstraint D)}
    (hcom : combined columns columns.pciIntervalFromScalarExpr fConj pdrgpcnstr colref =
      .ok merged) :
    ∃ pci, merged = some (interval colref pci) ∧ pci.NormalForm ∧
      ∀ row, (interval colref pci).Satisfied columns row ↔
        Joined fConj (Satisfied columns row) (pdrgpcnstrOnColumn pdrgpcnstr colref) := by
  obtain ⟨e,he,hcom⟩ := bind_eq_ok.mp hcom
  obtain ⟨pci,hpci,hnorm,hmem⟩ := exists_conversion h he
  rw [hpci] at hcom
  refine ⟨pci,(Except.ok.inj hcom).symm,hnorm,fun row => ?_⟩
  have hwritten := (exists_pexprScalarConjDisj columns fConj).mp ⟨e,he⟩
  have hsat (pcnstr : CConstraint D) (hcol : pcnstr ∈ pdrgpcnstrOnColumn pdrgpcnstr colref) :
      (∀ e, pcnstr.pexprScalar columns = .ok e → eval columns row e = some true) ↔
        pcnstr.Satisfied columns row := by
    obtain ⟨e,he⟩ := hwritten pcnstr hcol
    simp [(h pcnstr (mem_pdrgpcnstrOnColumn.mp hcol).1).satisfied_iff he,he]
  rw [satisfied_interval hnorm,hmem]
  cases fConj with
  | false =>
    refine (eval_pexprScalarDisj he).trans ?_
    exact exists_congr fun pcnstr => and_congr_right (hsat pcnstr)
  | true => exact (eval_pexprScalarConj he).trans (forall₂_congr hsat)

theorem pdrgpcnstrDeduplicate_spec {kept : List (CConstraint D)}
    (hkept : pdrgpcnstrDeduplicate columns columns.pciIntervalFromScalarExpr fConj pdrgpcnstr =
      .ok kept) :
    (∀ pcnstr ∈ kept, Normal pcnstr) ∧ ∀ row, Joined fConj (Satisfied columns row) kept ↔
      Joined fConj (Satisfied columns row) pdrgpcnstr := by
  refine ⟨fun pcnstr hpc => ?_,fun row => ?_⟩
  · rcases mem_or_combined hkept hpc with hmem | ⟨colref,merged,-,hmg,-,heq⟩
    · exact h pcnstr hmem
    · obtain ⟨pci,rfl,hnorm,-⟩ := combined_spec h hmg
      exact heq _ rfl ▸ .interval hnorm
  · cases fConj with
    | false =>
      refine exists_kept_iff hkept fun colref merged _ hmg => ?_
      obtain ⟨pci,rfl,-,hsat⟩ := combined_spec h hmg
      exact ⟨_,rfl,hsat row⟩
    | true =>
      refine forall_kept_iff hkept fun colref merged _ hmg => ?_
      obtain ⟨pci,rfl,-,hsat⟩ := combined_spec h hmg
      exact ⟨_,rfl,hsat row⟩

/-- The constructors of conjunctions and disjunctions neither lose nor add a row. -/
theorem pcnstrConjDisj_spec
    (hpc : pcnstrConjDisj columns columns.pciIntervalFromScalarExpr fConj pdrgpcnstr =
      .ok (some pcnstr)) :
    Normal pcnstr ∧ ∀ row, pcnstr.Satisfied columns row ↔
      Joined fConj (Satisfied columns row) pdrgpcnstr := by
  unfold pcnstrConjDisj at hpc
  split at hpc
  · cases hpc
  · cases hpc
    exact ⟨h _ mem_cons_self,fun row => by cases fConj <;> simp [Joined]⟩
  · obtain ⟨children,hchildren,hpc⟩ := bind_eq_ok.mp hpc
    obtain ⟨hnorm,hsat⟩ := pdrgpcnstrDeduplicate_spec (normal_opened h fConj) hchildren
    cases fConj with
    | false =>
      cases hpc
      refine ⟨.disjunction hnorm,fun row => (satisfied_disjunction hnorm).trans ?_⟩
      exact (hsat row).trans (joined_flatMap_opened h)
    | true =>
      cases hpc
      refine ⟨.conjunction hnorm,fun row => (satisfied_conjunction hnorm).trans ?_⟩
      exact (hsat row).trans (joined_flatMap_opened h)

theorem exists_pcnstrConjDisj :
    (∃ answer, pcnstrConjDisj columns columns.pciIntervalFromScalarExpr fConj pdrgpcnstr =
      .ok answer) ↔
      (1 < pdrgpcnstr.length →
        Renderable columns (pdrgpcnstr.flatMap (CConstraint.opened fConj))) := by
  have hrend := @exists_pdrgpcnstrDeduplicate _ _ columns _ columns.pciIntervalFromScalarExpr fConj
    fun colref e he => by
      obtain ⟨pci,hpci,-⟩ := exists_conversion (normal_opened h fConj) he
      exact ⟨some pci,hpci⟩
  rw [← hrend,pcnstrConjDisj.eq_def]
  rcases pdrgpcnstr with _ | ⟨first,_ | ⟨second,rest⟩⟩
  · simp
  · simp
  · rw [exists_bind_pure]
    simp [pdrgpcnstrFlatten]

end

end CConstraint

end PgOrca
