import PgOrca.Constraint.Algebra

/-!
# The scalar form of an interval

`PexprScalar` writes an interval as comparisons, as an IN array or as a NOT IN array.
-/

namespace PgOrca

open CTableExpr List
open CRange (hi cutRight pdatumRight lo cutLeft fPoint holds_iff pexprScalar)

section

variable {D : ℕ → Type*} [∀ colref, LinearOrder (D colref)] {colref : ℕ}
  (columns : CTableColumns D) (row : TableRow D)

theorem eval_pexprScalarCmp (datum : IDatum (D colref)) (cmpType : ECmpType) :
    eval columns row (pexprScalarCmp colref datum cmpType) =
      cmpType.compare (columns.otherOp colref) (row colref) datum := by
  simp [pexprScalarCmp,eval,CScalarExpr.eval,COperand.eval]

theorem eval_pexprIsNull : eval columns row (pexprIsNull colref) = some (row colref).isNone := by
  simp [pexprIsNull,eval,CScalarExpr.eval,COperand.eval]

/-! ### One range -/

namespace CRange

variable {r : CRange (IDatum (D colref))}

theorem eval_lowerEnd (a : D colref) (eri : ERangeInclusion) :
    eval columns row (pexprScalarCmp colref (a : IDatum (D colref))
        (if eri = .eriIncluded then .ecmptGEq else .ecmptG)) =
      (row colref).map fun v : D colref => decide
        (if eri = .eriIncluded then (a : IDatum (D colref)) ≤ v
          else (a : IDatum (D colref)) < v) := by
  rw [eval_pexprScalarCmp]
  change ECmpType.compare _ _ _ (some a) = _
  cases row colref <;> cases eri <;> simp [ECmpType.compare]

theorem eval_upperEnd (b : D colref) (eri : ERangeInclusion) :
    eval columns row (pexprScalarCmp colref (b : IDatum (D colref))
        (if eri = .eriIncluded then .ecmptLEq else .ecmptL)) =
      (row colref).map fun v : D colref => decide
        (if eri = .eriIncluded then (v : IDatum (D colref)) ≤ b
          else (v : IDatum (D colref)) < b) := by
  rw [eval_pexprScalarCmp]
  change ECmpType.compare _ _ _ (some b) = _
  cases row colref <;> cases eri <;> simp [ECmpType.compare]

theorem eval_equal (a : D colref) :
    eval columns row (pexprScalarCmp colref (a : IDatum (D colref)) .ecmptEq) =
      (row colref).map fun v : D colref => decide (v = a) := by
  rw [eval_pexprScalarCmp]
  change ECmpType.compare _ _ _ (some a) = _
  cases row colref <;> simp [ECmpType.compare]

/-- A range with an end is compared with at least one datum, so that its predicate is NULL of
NULL. -/
theorem eval_pexprScalar (hends : r.EndsIn (· ≠ ⊥)) (hbd : ¬ r.isConstraintUnbounded) :
    eval columns row (r.pexprScalar colref) =
      (row colref).map fun v : D colref => decide (r.Holds (v : IDatum (D colref))) := by
  obtain ⟨left,eriLeft,right,eriRight⟩ := r
  obtain ⟨hleft,hr⟩ := hends
  cases left with
  | none =>
    cases right with
    | none => simp [isConstraintUnbounded] at hbd
    | some b =>
      obtain ⟨b,rfl⟩ := WithBot.ne_bot_iff_exists.mp (hr b rfl)
      simp [pexprScalar,pexprEquality,pexprScalarCompEnd,eval_pexprConjunction,eval_upperEnd,Holds,
        Kleene.and_true,Kleene.all]
  | some a =>
    obtain ⟨a,rfl⟩ := WithBot.ne_bot_iff_exists.mp (hleft a rfl)
    cases right with
    | none =>
      simp [pexprScalar,pexprEquality,pexprScalarCompEnd,eval_pexprConjunction,eval_lowerEnd,Holds,
        Kleene.and_true,Kleene.all]
    | some b =>
      obtain ⟨b,rfl⟩ := WithBot.ne_bot_iff_exists.mp (hr b rfl)
      by_cases hpt : (a : IDatum (D colref)) = b ∧ eriLeft = .eriIncluded ∧ eriRight = .eriIncluded
      · obtain ⟨heq,rfl,rfl⟩ := hpt
        obtain rfl := WithBot.coe_injective heq
        rw [show pexprScalar colref _ = pexprScalarCmp colref (a : IDatum (D colref)) .ecmptEq by
          simp [pexprScalar,pexprEquality],eval_equal]
        refine congrArg (Option.map · _) (funext fun v => decide_eq_decide.mpr ?_)
        simp only [Holds,Option.mem_some_iff,forall_eq',if_true,WithBot.coe_le_coe]
        exact ⟨fun h => ⟨h.ge,h.le⟩,fun h => h.2.antisymm h.1⟩
      · have heql : pexprEquality colref ⟨some (a : IDatum (D colref)),eriLeft,
            some (b : IDatum (D colref)),eriRight⟩ = none := if_neg hpt
        simp only [pexprScalar,heql,pexprScalarCompEnd,Option.map_some,reduceOption_cons_of_some,
          reduceOption_nil,eval_pexprConjunction,map_cons,map_nil,Kleene.all_cons,eval_lowerEnd,
          eval_upperEnd,Holds,Option.mem_some_iff,forall_eq']
        cases row colref with
        | none => rfl
        | some v => simp [Kleene.and_true,Kleene.all,Kleene.some_and_some]

theorem pexprScalar_of_isConstraintUnbounded (h : r.isConstraintUnbounded) :
    r.pexprScalar colref = scalarConst (some true) := by
  obtain ⟨left,eriLeft,right,eriRight⟩ := r
  simp only [isConstraintUnbounded,Bool.and_eq_true,Option.isNone_iff_eq_none] at h
  obtain ⟨rfl,rfl⟩ := h
  simp [pexprScalar,pexprEquality,pexprScalarCompEnd,pexprConjDisj]

include columns in
theorem fScalarConstBool_pexprScalar (hends : r.EndsIn (· ≠ ⊥)) :
    fScalarConstBool true (r.pexprScalar colref) ↔ r.isConstraintUnbounded := by
  constructor
  · intro hcst
    by_contra hbd
    have heval := eval_of_fScalarConstBool columns (fun _ => none) hcst
    rw [eval_pexprScalar columns _ hends hbd] at heval
    cases heval
  · intro h
    simp [pexprScalar_of_isConstraintUnbounded h,fScalarConstBool]

end CRange

theorem Ordered.bounded {α : Type*} [LinearOrder α] {ranges : List (CRange α)} {r : CRange α}
    (hord : Ordered ranges) (hlen : 1 < ranges.length) (hr : r ∈ ranges) :
    ¬ r.isConstraintUnbounded := by
  intro h
  simp only [CRange.isConstraintUnbounded,Bool.and_eq_true,Option.isNone_iff_eq_none] at h
  have hlo : r.lo = ⊥ := by simp [lo,h.1,cutLeft]
  have hhi : r.hi = ⊤ := by simp [hi,h.2,cutRight]
  obtain ⟨before,after,rfl⟩ := append_of_mem hr
  have hpai := pairwise_append.mp hord.pairwise
  cases after with
  | cons s after =>
    have hle := (pairwise_cons.mp hpai.2.1).1 s mem_cons_self
    rw [hhi] at hle
    exact absurd (hle.trans_lt (CRange.cutLeft_lt_top _ _)) (lt_irrefl _)
  | nil =>
    cases before with
    | nil => simp at hlen
    | cons s before =>
      have hle := hpai.2.2 s mem_cons_self r mem_cons_self
      rw [hlo] at hle
      exact absurd ((CRange.bot_lt_cutRight _ _).trans_le hle) (lt_irrefl _)

/-! ### Arrays -/

namespace CConstraintInterval

variable {pci : CConstraintInterval (IDatum (D colref))}
  {ranges : List (CRange (IDatum (D colref)))} {r : CRange (IDatum (D colref))}
  {columns row} {pexpr : CTableExpr D}

theorem eval_pexprScalarArrayCmp {earrcmptype : EArrCmpType} {ecmptype : ECmpType}
    {data : List (Option (D colref))}
    (h : pexprScalarArrayCmp colref columns earrcmptype ecmptype data = some pexpr) :
    eval columns row pexpr =
      earrcmptype.eval (data.map (ecmptype.compare (columns.otherOp colref) (row colref))) := by
  unfold pexprScalarArrayCmp at h
  split_ifs at h
  match data, h with
  | [], rfl => rfl
  | [datum], rfl =>
    refine (eval_pexprScalarCmp columns row datum ecmptype).trans ?_
    cases earrcmptype with
    | earrcmpAny => exact (Kleene.or_false _).symm
    | earrcmpAll => exact (Kleene.and_true _).symm
  | first :: second :: rest, rfl => rfl

section

variable {data : List (Option (D colref))} (hne : data ≠ []) (hvs : none ∉ data)
  (value : Option (D colref))

include hne hvs

omit [∀ colref, LinearOrder (D colref)] in
theorem exists_map_some : ∃ ds : List (D colref), ds ≠ [] ∧ data = ds.map some := by
  have hdata : data = data.reduceOption.map some := by
    clear hne
    induction data with
    | nil => rfl
    | cons t data ih =>
      rw [mem_cons,not_or] at hvs
      obtain ⟨d,rfl⟩ := Option.ne_none_iff_exists'.mp (Ne.symm hvs.1)
      rw [reduceOption_cons_of_some,map_cons,← ih hvs.2]
  refine ⟨data.reduceOption,?_,hdata⟩
  rintro hnil
  rw [hnil] at hdata
  exact hne hdata

theorem eval_anyEq (otherOp : Option (D colref) → Option (D colref) → Option Bool)
    {p : D colref → Bool} (hp : ∀ v, p v = true ↔ some v ∈ data) :
    EArrCmpType.earrcmpAny.eval (data.map (ECmpType.ecmptEq.compare otherOp value)) =
      value.map p := by
  obtain ⟨ds,hds,rfl⟩ := exists_map_some hne hvs
  cases value with
  | none => exact Kleene.any_eq_none (by simpa using hds) (by simp [ECmpType.compare])
  | some v =>
    rw [EArrCmpType.eval,map_map,Option.map_some]
    refine (Kleene.any_map_some (fun d => decide (v = d)) ds).trans (congrArg some ?_)
    rw [Bool.eq_iff_iff,hp]
    simp

theorem eval_allNEq (otherOp : Option (D colref) → Option (D colref) → Option Bool)
    {p : D colref → Bool} (hp : ∀ v, p v = true ↔ some v ∉ data) :
    EArrCmpType.earrcmpAll.eval (data.map (ECmpType.ecmptNEq.compare otherOp value)) =
      value.map p := by
  obtain ⟨ds,hds,rfl⟩ := exists_map_some hne hvs
  cases value with
  | none => exact Kleene.all_eq_none (by simpa using hds) (by simp [ECmpType.compare])
  | some v =>
    rw [EArrCmpType.eval,map_map,Option.map_some]
    refine (Kleene.all_map_some (fun d => decide (v ≠ d)) ds).trans (congrArg some ?_)
    rw [Bool.eq_iff_iff,hp]
    simp only [all_eq_true,decide_eq_true_eq,mem_map,Option.some.injEq,exists_eq_right]
    exact ⟨fun h hv => h v hv rfl,fun h d hd heq => h (heq ▸ hd)⟩

end

theorem inRanges_of_points (hpoi : ∀ r ∈ ranges, r.fPoint) (v : IDatum (D colref)) :
    InRanges ranges v ↔ v ∈ (ranges.map pdatumRight).reduceOption := by
  rw [reduceOption_mem_iff,mem_map]
  constructor
  · rintro ⟨r,hr,hheld⟩
    obtain ⟨left,eriLeft,right,eriRight⟩ := r
    have hpt := hpoi _ hr
    simp only [fPoint,Bool.and_eq_true,decide_eq_true_eq] at hpt
    obtain ⟨⟨⟨rfl,rfl⟩,hsome⟩,rfl⟩ := hpt
    obtain ⟨a,rfl⟩ := Option.isSome_iff_exists.mp hsome
    simp only [CRange.Holds,Option.mem_some_iff,forall_eq',if_true] at hheld
    exact ⟨_,hr,congrArg some (hheld.1.antisymm hheld.2)⟩
  · rintro ⟨r,hr,hrt⟩
    refine ⟨r,hr,?_⟩
    obtain ⟨left,eriLeft,right,eriRight⟩ := r
    have hpt := hpoi _ hr
    simp only [fPoint,Bool.and_eq_true,decide_eq_true_eq] at hpt hrt
    obtain ⟨⟨⟨rfl,rfl⟩,-⟩,rfl⟩ := hpt
    simp [CRange.Holds,hrt]

theorem lt_of_mem_rights {b c : IDatum (D colref)} {s : CRange (IDatum (D colref))}
    {rest : List (CRange (IDatum (D colref)))} (hord : Ordered (s :: rest))
    (hlo : s.lo = Cut.above b)
    (hr : r ∈ s :: rest) (hc : r.pdatumRight = some c) : b < c := by
  have hlt : Cut.above b < r.hi := by
    rw [← hlo]
    exact (hord.startAfter r hr).trans_lt (hord.nonempty r hr)
  obtain ⟨left,eriLeft,right,eriRight⟩ := r
  simp only at hc
  subst hc
  cases eriRight <;> simpa [hi,cutRight] using hlt

theorem inRanges_of_fContiguous (hord : Ordered (r :: ranges)) (hcon : fContiguous (r :: ranges))
    (hlast : ((r :: ranges).getLast?.bind pdatumRight) = none) (v : IDatum (D colref)) :
    InRanges (r :: ranges) v ↔ r.lo.Passed v ∧
      v ∉ ((r :: ranges).dropLast.map pdatumRight).reduceOption := by
  induction ranges generalizing r with
  | nil =>
    obtain ⟨left,eriLeft,right,eriRight⟩ := r
    simp only [getLast?_singleton,Option.bind_some] at hlast
    subst hlast
    simp [holds_iff,Between,hi,cutRight]
  | cons s rest ih =>
    obtain ⟨hr,haft,hrest⟩ := ordered_cons.mp hord
    simp only [fContiguous,CRange.fUpperBoundEqualsLowerBound,Bool.and_eq_true,
      decide_eq_true_eq] at hcon
    obtain ⟨⟨⟨hrt,hleft⟩,hmeet⟩,htail⟩ := hcon
    have hrec := ih hrest htail (by simpa using hlast)
    have hle := haft s mem_cons_self
    cases hb : r.pdatumRight with
    | none =>
      -- a range without a right end is the last one
      have htop : r.hi = ⊤ := by simp [hi,hb,cutRight]
      rw [htop] at hle
      exact absurd (hle.trans_lt (CRange.cutLeft_lt_top _ _)) (lt_irrefl _)
    | some b =>
      have hhi : r.hi = Cut.below b := by simp [hi,hb,hrt,cutRight]
      have hlo : s.lo = Cut.above b := by simp [lo,← hmeet,hb,hleft,cutLeft]
      have hpa : b < v → r.lo.Passed v := fun hbv =>
        Cut.Passed.mono (hr.le.trans hhi.le) (Cut.passed_below.mpr hbv.le)
      have hbef : v < b → v ∉ ((s :: rest).dropLast.map pdatumRight).reduceOption := by
        intro hvb hmem
        obtain ⟨t,ht,hrt⟩ := mem_map.mp ((reduceOption_mem_iff).mp hmem)
        exact hvb.not_gt (lt_of_mem_rights hrest hlo (mem_of_mem_dropLast ht) hrt)
      rw [inRanges_cons,hrec,holds_iff,Between,hhi,hlo,Cut.passed_below,Cut.passed_above,not_le,
        dropLast_cons_cons,map_cons,hb,reduceOption_cons_of_some,mem_cons,not_or]
      constructor
      · rintro (⟨hlow,hvb⟩ | ⟨hbv,hnot⟩)
        · exact ⟨hlow,hvb.ne,hbef hvb⟩
        · exact ⟨hpa hbv,hbv.ne',hnot⟩
      · rintro ⟨hlow,hne,hnot⟩
        rcases lt_or_gt_of_ne hne with hvb | hbv
        · exact .inl ⟨hlow,hvb⟩
        · exact .inr ⟨hbv,hnot⟩

/-! ### The whole interval -/

/-- The truth value of the predicate of an interval with a bound: of NULL it is TRUE or NULL. -/
def truth (pci : CConstraintInterval (IDatum (D colref))) (value : Option (D colref)) :
    Option Bool :=
  if value = none ∧ pci.fIncludesNull then some true
  else value.map fun v : D colref => pci.pdrgprng.any fun r => decide (r.Holds v)

theorem any_holds_iff {v : IDatum (D colref)} :
    (ranges.any fun r => decide (r.Holds v)) = true ↔ InRanges ranges v := by
  simp [InRanges]

theorem truth_eq_true_iff {value : Option (D colref)} :
    pci.truth value = some true ↔ pci.Contains value := by
  cases value <;> simp [truth,Contains,InRanges]

theorem eval_withNull :
    eval columns row (pexprConjDisj false [pexpr, pexprIsNull colref]) =
      if row colref = none then some true else eval columns row pexpr := by
  rw [eval_pexprDisjunction]
  simp only [map_cons,map_nil,Kleene.any_cons,eval_pexprIsNull]
  cases row colref with
  | none => simp [Kleene.or_eq_true_iff]
  | some v => exact Kleene.or_false _

theorem eval_pexprConstructArray {fIn : Bool}
    (hdata : ∀ e, pexprArrayOfRanges colref columns fIn pci = some e → eval columns row e =
      (row colref).map fun v : D colref => pci.pdrgprng.any fun r => decide (r.Holds v))
    (h : pexprConstructArray colref columns fIn pci = .ok (some pexpr)) :
    eval columns row pexpr = pci.truth (row colref) := by
  unfold pexprConstructArray at h
  split at h
  · next hnull =>
    rw [hdata pexpr (by simpa using h),truth,hnull]
    simp
  · next e he hnull =>
    cases h
    rw [eval_withNull,hdata e he,truth,hnull]
    simp
  · cases h

theorem NormalForm.bot_notMem_rights (hpci : pci.NormalForm) (hsub : ranges ⊆ pci.pdrgprng) :
    ⊥ ∉ (ranges.map pdatumRight).reduceOption := by
  intro hmem
  obtain ⟨r,hr,hbot⟩ := mem_map.mp (reduceOption_mem_iff.mp hmem)
  exact (hpci.ends r (hsub hr)).2 ⊥ hbot rfl

theorem rights_ne_nil (hin : pci.fConvertsToIn) :
    (pci.pdrgprng.map pdatumRight).reduceOption ≠ [] := by
  simp only [fConvertsToIn,Bool.and_eq_true,all_eq_true,decide_eq_true_eq] at hin
  obtain ⟨r,hr⟩ := exists_mem_of_ne_nil _ (ne_nil_of_length_pos (Nat.zero_lt_of_lt hin.1))
  have hpt := hin.2 r hr
  simp only [fPoint,Bool.and_eq_true,decide_eq_true_eq] at hpt
  obtain ⟨a,ha⟩ := Option.isSome_iff_exists.mp hpt.1.2
  exact ne_nil_of_mem (reduceOption_mem_iff.mpr (mem_map.mpr ⟨r,hr,ha⟩))

/-- The first range of a NOT IN ends at a gap. -/
theorem NormalForm.gaps_ne_nil (hpci : pci.NormalForm) (hnotIn : pci.fConvertsToNotIn) :
    (pci.pdrgprng.dropLast.map pdatumRight).reduceOption ≠ [] := by
  simp only [fConvertsToNotIn,Bool.and_eq_true,decide_eq_true_eq,
    Option.isNone_iff_eq_none] at hnotIn
  obtain ⟨⟨⟨hlen,hfst⟩,-⟩,-⟩ := hnotIn
  obtain ⟨hord,-⟩ := hpci
  obtain ⟨ranges,fIncludesNull⟩ := pci
  rcases ranges with _ | ⟨r,_ | ⟨s,rest⟩⟩
  · simp at hlen
  · simp at hlen
  · have hbd := hord.bounded hlen mem_cons_self
    simp only [head?_cons,Option.bind_some] at hfst
    cases hr : r.pdatumRight with
    | none => simp [CRange.isConstraintUnbounded,hfst,hr] at hbd
    | some b => simp [hr]

theorem NormalForm.eval_pexprConstructArray_in (hpci : pci.NormalForm) (hin : pci.fConvertsToIn)
    (h : pexprConstructArray colref columns true pci = .ok (some pexpr)) :
    eval columns row pexpr = pci.truth (row colref) := by
  refine eval_pexprConstructArray (fun e he => ?_) h
  refine (eval_pexprScalarArrayCmp he).trans
    (eval_anyEq (rights_ne_nil hin) (hpci.bot_notMem_rights (Subset.refl _)) _ _ fun v => ?_)
  simp only [fConvertsToIn,Bool.and_eq_true,all_eq_true] at hin
  exact any_holds_iff.trans (inRanges_of_points hin.2 (v : IDatum (D colref)))

theorem NormalForm.eval_pexprConstructArray_notIn (hpci : pci.NormalForm)
    (hnotIn : pci.fConvertsToNotIn)
    (h : pexprConstructArray colref columns false pci = .ok (some pexpr)) :
    eval columns row pexpr = pci.truth (row colref) := by
  refine eval_pexprConstructArray (fun e he => ?_) h
  refine (eval_pexprScalarArrayCmp he).trans (eval_allNEq (hpci.gaps_ne_nil hnotIn)
    (hpci.bot_notMem_rights (dropLast_subset _)) _ _ fun v => ?_)
  simp only [fConvertsToNotIn,Bool.and_eq_true,decide_eq_true_eq,
    Option.isNone_iff_eq_none] at hnotIn
  obtain ⟨⟨⟨hlen,hfst⟩,hlast⟩,hcon⟩ := hnotIn
  obtain ⟨hord,-⟩ := hpci
  obtain ⟨ranges,fIncludesNull⟩ := pci
  cases ranges with
  | nil => simp at hlen
  | cons r rest =>
    have hlo : r.lo = ⊥ := by simp [lo,show r.pdatumLeft = none from hfst,cutLeft]
    have hmem := inRanges_of_fContiguous hord hcon hlast (v : IDatum (D colref))
    rw [hlo,and_iff_right Cut.passed_bot] at hmem
    exact any_holds_iff.trans hmem

theorem NormalForm.bounded (hpci : pci.NormalForm)
    (hone : ¬ ∃ r, pci.pdrgprng = [r] ∧ r.isConstraintUnbounded) :
    ∀ r ∈ pci.pdrgprng, ¬ r.isConstraintUnbounded := by
  obtain ⟨ranges,fIncludesNull⟩ := pci
  rcases ranges with _ | ⟨r,_ | ⟨s,rest⟩⟩
  · simp
  · simpa using hone
  · exact fun t ht => hpci.wellFormed.bounded (by simp) ht

/-- The disjunction of the ranges, unless there is one range only and it holds everything. -/
theorem NormalForm.eval_pexprConstructDisjunctionScalar (hpci : pci.NormalForm)
    (hne : pci.pdrgprng ≠ []) (hone : ¬ ∃ r, pci.pdrgprng = [r] ∧ r.isConstraintUnbounded) :
    eval columns row (pexprConstructDisjunctionScalar colref pci) = pci.truth (row colref) := by
  have hbd := hpci.bounded hone
  have hcst : ¬ ((pci.pdrgprng.map (pexprScalar colref)).length = 1 ∧
      (pci.pdrgprng.map (pexprScalar colref)).all (fScalarConstBool true)) := by
    rintro ⟨hlen,hall⟩
    rw [length_map,length_eq_one_iff] at hlen
    obtain ⟨r,hr⟩ := hlen
    rw [hr] at hall hbd
    simp only [map_cons,map_nil,List.all_cons,all_nil,Bool.and_true] at hall
    exact hbd r mem_cons_self ((CRange.fScalarConstBool_pexprScalar columns
      (hpci.ends r (by simp [hr]))).mp hall)
  have hrs : pci.pdrgprng.map (eval columns row ∘ pexprScalar colref) = pci.pdrgprng.map fun r =>
      (row colref).map fun v : D colref => decide (r.Holds v) :=
    map_congr_left fun r hr => r.eval_pexprScalar columns row (hpci.ends r hr) (hbd r hr)
  have hany : Kleene.any (pci.pdrgprng.map fun r => (row colref).map fun v : D colref =>
      decide (r.Holds (v : IDatum (D colref)))) =
      (row colref).map fun v : D colref => pci.pdrgprng.any fun r => decide (r.Holds v) := by
    cases row colref with
    | none => exact Kleene.any_eq_none (by simpa using hne) (by simp)
    | some v => exact Kleene.any_map_some _ _
  rw [pexprConstructDisjunctionScalar,if_neg hcst,eval_pexprDisjunction,map_append,map_map,hrs,
    Kleene.any_append,hany,truth]
  cases pci.fIncludesNull with
  | false => exact (Kleene.or_false _).trans (if_neg (by simp)).symm
  | true =>
    have hnull := @eval_pexprIsNull _ _ colref columns row
    cases hrow : row colref with
    | none => simp [hnull,hrow,Kleene.any,Kleene.or_eq_true_iff]
    | some v => simp [hnull,hrow,Kleene.any,Kleene.or_false]

/-- Of an interval without a bounded range. -/
theorem eval_pexprConstructDisjunctionScalar_iff (hpci : pci.NormalForm) :
    eval columns row (pexprConstructDisjunctionScalar colref pci) = some true ↔
      pci.Contains (row colref) := by
  by_cases hone : ∃ r, pci.pdrgprng = [r] ∧ r.isConstraintUnbounded
  · obtain ⟨ranges,fIncludesNull⟩ := pci
    obtain ⟨r,rfl,hunb⟩ := hone
    have hheld (v : IDatum (D colref)) : r.Holds v := by
      simp only [CRange.isConstraintUnbounded,Bool.and_eq_true,Option.isNone_iff_eq_none] at hunb
      simp [CRange.Holds,hunb]
    cases fIncludesNull <;> cases hrow : row colref <;>
      simp [pexprConstructDisjunctionScalar,CRange.pexprScalar_of_isConstraintUnbounded hunb,
        fScalarConstBool,eval,eval_pexprIsNull,Contains,hheld,hrow,Kleene.not]
  · by_cases hne : pci.pdrgprng = []
    · obtain ⟨ranges,fIncludesNull⟩ := pci
      obtain rfl : ranges = [] := hne
      cases fIncludesNull <;> cases hrow : row colref <;>
        simp [pexprConstructDisjunctionScalar,eval_pexprDisjunction,eval_pexprIsNull,Contains,hrow,
          Kleene.any,Kleene.or_false]
    · rw [hpci.eval_pexprConstructDisjunctionScalar hne hone,truth_eq_true_iff]

theorem eval_pexprConstructArrayScalar (hpci : pci.NormalForm)
    (h : pexprConstructArrayScalar colref columns pci = .ok (some pexpr)) :
    1 < pci.pdrgprng.length ∧ ∀ row, eval columns row pexpr = pci.truth (row colref) := by
  unfold pexprConstructArrayScalar at h
  split_ifs at h with hin hnotIn
  · exact ⟨by simpa using (Bool.and_eq_true_iff.mp hin).1,
      fun row => hpci.eval_pexprConstructArray_in hin h⟩
  · refine ⟨?_,fun row => hpci.eval_pexprConstructArray_notIn hnotIn h⟩
    simp only [fConvertsToNotIn,Bool.and_eq_true,decide_eq_true_eq] at hnotIn
    exact hnotIn.1.1.1
  · cases h

variable (columns) in
/-- The interval would be written as an IN or a NOT IN with IS NULL, and its type has no array
type. -/
def Unwritable (pci : CConstraintInterval (IDatum (D colref))) : Prop :=
  (columns.settings colref).fArrayConstraints = true ∧ columns.fArrayType colref = false ∧
    pci.fIncludesNull = true ∧ (pci.fConvertsToIn = true ∨ pci.fConvertsToNotIn = true)

theorem exists_pexprConstructArray (fIn : Bool) :
    (∃ pexpr, pexprConstructArray colref columns fIn pci = .ok pexpr) ↔
      ¬ (columns.fArrayType colref = false ∧ pci.fIncludesNull = true) := by
  have harray : pexprArrayOfRanges colref columns fIn pci = none ↔
      columns.fArrayType colref = false := by
    cases fIn <;> simp only [pexprArrayOfRanges,pexprScalarArrayCmp] <;> split_ifs <;>
      first | (split <;> simp_all) | simp_all
  unfold pexprConstructArray
  split
  · next hnull => simp [hnull]
  · next e he hnull => 
    have : columns.fArrayType colref ≠ false := fun h => by simp [harray.mpr h] at he
    simp [this]
  · next he hnull => simp [harray.mp he,hnull]

theorem exists_pexprConstructScalar :
    (∃ pexpr, pexprConstructScalar colref columns pci = .ok pexpr) ↔ ¬ Unwritable columns pci := by
  unfold pexprConstructScalar Unwritable
  by_cases hctr : pci.fContradiction colref (columns.md colref)
  · have hnull : pci.fIncludesNull = false := by
      simpa using (Bool.and_eq_true_iff.mp hctr).1
    simp [hctr,hnull]
  · rw [if_neg hctr]
    by_cases harray : (columns.settings colref).fArrayConstraints
    · rw [if_pos harray,exists_bind_pure,pexprConstructArrayScalar]
      by_cases hin : pci.fConvertsToIn
      · rw [if_pos hin,exists_pexprConstructArray]
        simp [harray,hin]
      · rw [if_neg hin]
        by_cases hnotIn : pci.fConvertsToNotIn
        · rw [if_pos hnotIn,exists_pexprConstructArray]
          simp [harray,hnotIn]
        · simp [hin,hnotIn]
    · simp [harray]

/-- The predicate of an interval, and the one without arrays. -/
theorem NormalForm.eval_pexprConstructScalar (hpci : pci.NormalForm)
    (h : pexprConstructScalar colref columns pci = .ok pexpr) :
    ∃ e, pexprConstructScalar colref columns.withoutArrays pci = .ok e ∧
      ∀ row, eval columns row pexpr = eval columns row e := by
  unfold pexprConstructScalar at h ⊢
  by_cases hctr : pci.fContradiction colref (columns.md colref)
  · rw [if_pos hctr] at h
    cases h
    exact ⟨_,if_pos hctr,fun _ => rfl⟩
  · rw [if_neg hctr] at h
    refine ⟨_,(if_neg hctr).trans (if_neg Bool.false_ne_true),fun row => ?_⟩
    split_ifs at h
    · obtain ⟨array,harray,h⟩ := bind_eq_ok.mp h
      cases h
      cases array with
      | none => rfl
      | some pexpr =>
        obtain ⟨hlen,heval⟩ := eval_pexprConstructArrayScalar hpci harray
        rw [Option.getD_some,heval,hpci.eval_pexprConstructDisjunctionScalar]
        · exact ne_nil_of_length_pos (Nat.zero_lt_of_lt hlen)
        · rintro ⟨r,hr,-⟩
          simp [hr] at hlen
    · cases h
      rfl

theorem NormalForm.eval_pexprConstructScalar_iff (hpci : pci.NormalForm)
    (h : pexprConstructScalar colref columns pci = .ok pexpr) :
    eval columns row pexpr = some true ↔ pci.Contains (row colref) := by
  obtain ⟨e,he,heval⟩ := hpci.eval_pexprConstructScalar h
  rw [heval]
  unfold pexprConstructScalar at he
  split_ifs at he with hctr harray
  · cases he
    exact iff_of_false (by simp [eval])
      (hpci.not_contains_of_fContradiction columns hctr (row colref))
  · cases harray
  · cases he
    exact eval_pexprConstructDisjunctionScalar_iff hpci

variable (columns) in
/-- The expression of an interval in normal form is there and TRUE at a value exactly if the value
is a member, unless the array comparison is a null pointer. -/
theorem pexprConstructScalar_exact_iff (colref : ℕ) (pci : CConstraintInterval (IDatum (D colref)))
    (hpci : pci.NormalForm) :
    (∃ pexpr, pci.pexprConstructScalar colref columns = .ok pexpr ∧
      ∀ row, eval columns row pexpr = some true ↔ pci.Contains (row colref)) ↔
      ¬ ((columns.settings colref).fArrayConstraints = true ∧ columns.fArrayType colref = false ∧
        pci.fIncludesNull = true ∧ (pci.fConvertsToIn = true ∨ pci.fConvertsToNotIn = true)) := by
  rw [← Unwritable,← exists_pexprConstructScalar]
  constructor
  · rintro ⟨pexpr,hpexpr,-⟩
    exact ⟨pexpr,hpexpr⟩
  · rintro ⟨pexpr,hpexpr⟩
    exact ⟨pexpr,hpexpr,fun row => hpci.eval_pexprConstructScalar_iff hpexpr⟩

end CConstraintInterval

end

/-! ### Points and their complement -/

namespace AllButPoints

open CConstraintInterval

abbrev Integer : ℕ → Type := fun _ => ℤ

def columns : CTableColumns Integer := plainColumns Integer true true

def datum (v : Integer 0) : IDatum (Integer 0) := v

def pci : CConstraintInterval (IDatum (Integer 0)) :=
  ⟨[⟨none, .eriExcluded, some (datum 1), .eriExcluded⟩,
    ⟨some (datum 1), .eriExcluded, some (datum 2), .eriExcluded⟩,
    ⟨some (datum 2), .eriExcluded, none, .eriExcluded⟩], false⟩

theorem normalForm_pci : pci.NormalForm where
  wellFormed := by
    simp [WellFormed,pci,ordered_cons,lo,hi,cutLeft,cutRight,StartAfter,datum]
  ends := by simp [EndsIn,CRange.EndsIn,pci,datum]

theorem exact_allButPoints :
    ∃ pexpr, pci.pexprConstructScalar 0 columns = .ok pexpr ∧
      ∀ row, eval columns row pexpr = some true ↔ pci.Contains (row 0) :=
  (pexprConstructScalar_exact_iff columns 0 pci normalForm_pci).mpr (by decide)

end AllButPoints

namespace ArrayPoints

open CConstraintInterval

/-- Arrays of integers in their lexicographic order; there are no arrays of arrays. -/
abbrev Arrays : ℕ → Type := fun _ => List ℤ

def columns : CTableColumns Arrays := plainColumns Arrays true false

def datum (v : Arrays 0) : IDatum (Arrays 0) := v

def pci : CConstraintInterval (IDatum (Arrays 0)) :=
  ⟨[⟨some (datum [1]), .eriIncluded, some (datum [1]), .eriIncluded⟩,
    ⟨some (datum [2]), .eriIncluded, some (datum [2]), .eriIncluded⟩], true⟩

theorem normalForm_pci : pci.NormalForm where
  wellFormed := by
    simp [WellFormed,pci,ordered_cons,lo,hi,cutLeft,cutRight,StartAfter,datum]
    decide
  ends := by simp [EndsIn,CRange.EndsIn,pci,datum]

/-- `{1}`, `{2}` and NULL: IS NULL is to be added to a comparison that was not built. -/
theorem pexprConstructScalar_pci :
    pci.NormalForm ∧ pci.pexprConstructScalar 0 columns = .error .nullDereference :=
  ⟨normalForm_pci,rfl⟩

end ArrayPoints

end PgOrca
