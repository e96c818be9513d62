import PgOrca.Constraint.Combination

/-!
# The algebra of intervals

The set operations return intervals in normal form with exactly the members of the operation.
Containment is decided by a difference, which is exact in a dense order without endpoints.
-/

namespace PgOrca

open List
open WithBot (ne_bot_iff_exists coe_lt_coe coe_le_coe)
open CRange (lo hi cutLeft cutRight cutLeft_inverse prngExtend)

section

variable {α : Type*} [LinearOrder α] {P : α → Prop}

namespace CRange

/-- The ends of the range, as far as it has any, are of the given kind. -/
def EndsIn (P : α → Prop) (r : CRange α) : Prop :=
  (∀ a ∈ r.pdatumLeft, P a) ∧ ∀ b ∈ r.pdatumRight, P b

variable {r s t : CRange α}

theorem EndsIn.prngIntersect (hr : r.EndsIn P) (hs : s.EndsIn P)
    (h : r.prngIntersect s = some t) : t.EndsIn P := by
  unfold CRange.prngIntersect at h
  split_ifs at h <;> cases h
  · exact hs
  · exact hr
  · exact ⟨hs.1,hr.2⟩
  · exact ⟨hr.1,hs.2⟩

theorem EndsIn.prngDifferenceLeft (hr : r.EndsIn P) (hs : s.EndsIn P)
    (h : r.prngDifferenceLeft s = some t) : t.EndsIn P := by
  unfold CRange.prngDifferenceLeft at h
  split_ifs at h <;> cases h
  · exact hr
  · exact ⟨hr.1,hs.1⟩

theorem EndsIn.prngDifferenceRight (hr : r.EndsIn P) (hs : s.EndsIn P)
    (h : r.prngDifferenceRight s = some t) : t.EndsIn P := by
  unfold CRange.prngDifferenceRight at h
  split_ifs at h <;> cases h
  · exact hr
  · exact ⟨hs.2,hr.2⟩

end CRange

namespace CConstraintInterval

def EndsIn (P : α → Prop) (ranges : List (CRange α)) : Prop := ∀ r ∈ ranges, r.EndsIn P

variable {ranges fst snd new : List (CRange α)} {r : CRange α}

theorem EndsIn.appendOrExtend (hrs : EndsIn P ranges) {prange : Option (CRange α)}
    (hpra : ∀ r ∈ prange, r.EndsIn P) : EndsIn P (appendOrExtend ranges prange) := by
  cases prange with
  | none => exact hrs
  | some r =>
    have hr : r.EndsIn P := hpra r rfl
    have hap : EndsIn P (ranges ++ [r]) := by
      intro s hs
      rcases mem_append.mp hs with hs | hs
      · exact hrs s hs
      · exact mem_singleton.mp hs ▸ hr
    simp only [CConstraintInterval.appendOrExtend]
    split
    · exact hap
    · next last hlast =>
      have hlast : last.EndsIn P := hrs last (List.mem_of_getLast? hlast)
      split
      · exact hap
      · next extended hex =>
        intro s hs
        rcases mem_append.mp hs with hs | hs
        · exact hrs s (mem_of_mem_dropLast hs)
        · rw [mem_singleton.mp hs]
          unfold prngExtend at hex
          split at hex
          · split_ifs at hex
            cases hex
            exact ⟨hlast.1,hr.2⟩
          · cases hex

theorem EndsIn.addRemainingRanges (hsrc : EndsIn P ranges) :
    ∀ dest : List (CRange α), EndsIn P dest → EndsIn P (addRemainingRanges ranges dest) := by
  induction ranges with
  | nil => intro dest hdest; exact hdest
  | cons r rest ih =>
    intro dest hdest
    apply ih fun s hs => hsrc s (mem_cons_of_mem _ hs)
    apply hdest.appendOrExtend
    intro s hs
    cases hs
    exact hsrc r mem_cons_self

theorem EndsIn.intersectRanges (fst snd : List (CRange α)) (hfst : EndsIn P fst)
    (hsnd : EndsIn P snd) : EndsIn P (intersectRanges fst snd) := by
  fun_induction CConstraintInterval.intersectRanges fst snd with
  | case1 this fst other snd hends ih =>
    simp only [EndsIn,forall_mem_cons] at hfst
    intro r hr
    rcases mem_append.mp hr with hr | hr
    · exact hfst.1.prngIntersect (hsnd other mem_cons_self) (Option.mem_toList.mp hr)
    · exact ih hfst.2 hsnd r hr
  | case2 this fst other snd hends ih =>
    simp only [EndsIn,forall_mem_cons] at hsnd
    intro r hr
    rcases mem_append.mp hr with hr | hr
    · exact hsnd.1.prngIntersect (hfst this mem_cons_self) (Option.mem_toList.mp hr)
    · exact ih hfst hsnd.2 r hr
  | case3 fst snd hnot => simp [EndsIn]

theorem EndsIn.unionRanges (fst snd new : List (CRange α)) (hfst : EndsIn P fst)
    (hsnd : EndsIn P snd) (hnew : EndsIn P new) : EndsIn P (unionRanges fst snd new) := by
  fun_induction CConstraintInterval.unionRanges fst snd new with
  | case1 this fst other snd new hends ih =>
    simp only [EndsIn,forall_mem_cons] at hfst
    apply ih hfst.2 hsnd
    apply hnew.appendOrExtend
    intro r hr
    exact hfst.1.prngDifferenceLeft (hsnd other mem_cons_self) hr
  | case2 this fst other snd new hends ih =>
    simp only [EndsIn,forall_mem_cons] at hsnd
    apply ih hfst hsnd.2
    apply hnew.appendOrExtend
    intro r hr
    exact hsnd.1.prngDifferenceLeft (hfst this mem_cons_self) hr
  | case3 fst snd new hnot => exact hsnd.addRemainingRanges _ (hfst.addRemainingRanges _ hnew)

theorem EndsIn.prangeDiffWithRightResidual {s : CRange α} (hr : r.EndsIn P) (hs : s.EndsIn P) :
    (∀ t ∈ (prangeDiffWithRightResidual r s).1, t.EndsIn P) ∧
      ∀ t ∈ (prangeDiffWithRightResidual r s).2, t.EndsIn P := by
  unfold CConstraintInterval.prangeDiffWithRightResidual
  split_ifs
  · simp
  · exact ⟨fun t ht => hr.prngDifferenceLeft hs ht,fun t ht => hr.prngDifferenceRight hs ht⟩
  · exact ⟨by simp,fun t ht => hr.prngDifferenceRight hs ht⟩

theorem EndsIn.differenceRanges (residual : Option (CRange α)) (fst snd new : List (CRange α))
    (hres : ∀ r ∈ residual, r.EndsIn P) (hfst : EndsIn P fst) (hsnd : EndsIn P snd)
    (hnew : EndsIn P new) : EndsIn P (differenceRanges residual fst snd new) := by
  fun_induction CConstraintInterval.differenceRanges residual fst snd new with
  | case1 residual this fst other snd new prangeThis hends ih =>
    simp only [EndsIn,forall_mem_cons] at hfst
    have hthis : prangeThis.EndsIn P := by
      cases residual with
      | none => exact hfst.1
      | some r => exact hres r rfl
    apply ih (by simp) hfst.2 hsnd
    apply hnew.appendOrExtend
    intro r hr
    exact hthis.prngDifferenceLeft (hsnd other mem_cons_self) hr
  | case2 residual this fst other snd new prangeThis hends split ih =>
    have hthis : prangeThis.EndsIn P := by
      cases residual with
      | none => exact hfst this mem_cons_self
      | some r => exact hres r rfl
    simp only [EndsIn,forall_mem_cons] at hsnd
    have hsp := EndsIn.prangeDiffWithRightResidual hthis hsnd.1
    exact ih hsp.2 hfst hsnd.2 (hnew.appendOrExtend hsp.1)
  | case3 fst snd new hnot => exact hfst.addRemainingRanges _ hnew
  | case4 fst snd new hnot residual =>
    have hrest : EndsIn P (fst.drop 1) := fun r hr => hfst r (mem_of_mem_drop hr)
    exact hrest.addRemainingRanges _ (hnew.appendOrExtend hres)

end CConstraintInterval

end

/-! ### Normal form -/

variable {D : ℕ → Type*} [∀ colref, LinearOrder (D colref)] {colref : ℕ}

namespace CRange

theorem exists_holds [DenselyOrdered (D colref)] [NoMinOrder (D colref)] [NoMaxOrder (D colref)]
    [Nonempty (D colref)] {r : CRange (IDatum (D colref))} (hr : r.lo < r.hi)
    (hends : r.EndsIn (· ≠ ⊥)) : ∃ v : D colref, r.Holds (v : IDatum (D colref)) := by
  obtain ⟨left,eriLeft,right,eriRight⟩ := r
  obtain ⟨hleft,hrt⟩ := hends
  cases left with
  | none =>
    cases right with
    | none => exact ⟨Classical.arbitrary _,by simp [Holds]⟩
    | some b =>
      obtain ⟨b,rfl⟩ := ne_bot_iff_exists.mp (hrt b rfl)
      obtain ⟨v,hv⟩ := exists_lt b
      exact ⟨v,by cases eriRight <;> simp [Holds,hv,hv.le]⟩
  | some a =>
    obtain ⟨a,rfl⟩ := ne_bot_iff_exists.mp (hleft a rfl)
    cases right with
    | none =>
      obtain ⟨v,hv⟩ := exists_gt a
      exact ⟨v,by cases eriLeft <;> simp [Holds,hv,hv.le]⟩
    | some b =>
      obtain ⟨b,rfl⟩ := ne_bot_iff_exists.mp (hrt b rfl)
      rcases lt_trichotomy a b with hlt | rfl | hgt
      · obtain ⟨v,hav,hvb⟩ := exists_between hlt
        exact ⟨v,by cases eriLeft <;> cases eriRight <;> simp [Holds,hav,hvb,hav.le,hvb.le]⟩
      · -- only the point [a, a] is not empty
        cases eriLeft <;> cases eriRight <;> simp [lo,hi,cutLeft,cutRight] at hr
        exact ⟨a,by simp [Holds]⟩
      · have hge : ¬ a ≤ b := not_le.mpr hgt
        cases eriLeft <;> cases eriRight <;>
          simp [lo,hi,cutLeft,cutRight,hge,hgt.not_gt] at hr

end CRange

namespace CConstraintInterval

/-- Non-empty ranges in ascending order between values of the column's type. -/
structure NormalForm (pci : CConstraintInterval (IDatum (D colref))) : Prop where
  wellFormed : pci.WellFormed
  ends : EndsIn (· ≠ ⊥) pci.pdrgprng

/-- The interval is in normal form, and its members are those with the property. -/
structure Exactly (pci : CConstraintInterval (IDatum (D colref)))
    (member : Option (D colref) → Prop) : Prop where
  normalForm : pci.NormalForm
  contains_iff : ∀ value, pci.Contains value ↔ member value

variable {this pci : CConstraintInterval (IDatum (D colref))}

section

variable (hthis : this.NormalForm) (hpci : pci.NormalForm)

include hthis hpci

theorem NormalForm.pciIntersect :
    (this.pciIntersect pci).Exactly fun value => this.Contains value ∧ pci.Contains value where
  normalForm := ⟨hthis.wellFormed.pciIntersect hpci.wellFormed,
    EndsIn.intersectRanges _ _ hthis.ends hpci.ends⟩
  contains_iff value := by
    cases value with
    | none => simp [Contains,CConstraintInterval.pciIntersect]
    | some v => exact inRanges_pciIntersect hthis.wellFormed hpci.wellFormed _

theorem NormalForm.pciUnion :
    (this.pciUnion pci).Exactly fun value => this.Contains value ∨ pci.Contains value where
  normalForm := ⟨hthis.wellFormed.pciUnion hpci.wellFormed,
    EndsIn.unionRanges _ _ _ hthis.ends hpci.ends (by simp [EndsIn])⟩
  contains_iff value := by
    cases value with
    | none => simp [Contains,CConstraintInterval.pciUnion]
    | some v => exact inRanges_pciUnion hthis.wellFormed hpci.wellFormed _

theorem NormalForm.pciDifference :
    (this.pciDifference pci).Exactly fun value => this.Contains value ∧ ¬ pci.Contains value where
  normalForm := ⟨(pciDifference_spec hthis.wellFormed hpci.wellFormed).1,
    EndsIn.differenceRanges _ _ _ _ (by simp) hthis.ends hpci.ends (by simp [EndsIn])⟩
  contains_iff value := by
    cases value with
    | none => simp [Contains,CConstraintInterval.pciDifference]
    | some v => exact (pciDifference_spec hthis.wellFormed hpci.wellFormed).2 _

end

variable (columns : CTableColumns D)

theorem pciUnbounded_normalForm
    (h : pciUnbounded (columns.md colref) true = some pci) : pci.NormalForm where
  wellFormed := (pciUnbounded_spec h).1
  ends := by
    unfold pciUnbounded at h
    split_ifs at h
    split at h <;> cases h <;> simp [EndsIn,CRange.EndsIn]

theorem contains_pciUnbounded (h : pciUnbounded (columns.md colref) true = some pci)
    (value : Option (D colref)) : pci.Contains value := by
  obtain ⟨-,hnull,hall⟩ := pciUnbounded_spec h
  cases value with
  | none => exact hnull
  | some v => exact hall v

theorem NormalForm.pciComplement (hthis : this.NormalForm) :
    ∃ pci, CConstraintInterval.pciComplement (columns.md colref) this = .ok pci ∧
      pci.Exactly fun value => ¬ this.Contains value := by
  obtain ⟨universal,huniv⟩ := CConstraint.exists_pciUnbounded columns colref true
  have hdiff := (pciUnbounded_normalForm columns huniv).pciDifference hthis
  refine ⟨_,by rw [CConstraintInterval.pciComplement,huniv],hdiff.normalForm,fun value => ?_⟩
  exact (hdiff.contains_iff value).trans (and_iff_right (contains_pciUnbounded columns huniv value))

/-! ### Containment -/

def fContainsInterval (this pci : CConstraintInterval (IDatum (D colref))) : Bool :=
  if this.isConstraintUnbounded then true
  else if pci.isConstraintUnbounded || (!this.fIncludesNull && pci.fIncludesNull) then false
  else (pci.pciDifference this).fContradiction colref (columns.md colref)

def Unmerged (pci : CConstraintInterval (IDatum (D colref))) : Prop :=
  pci.pdrgprng.IsChain fun r s => r.prngExtend s = none

omit [∀ colref, LinearOrder (D colref)] columns in
theorem isConstraintUnbounded_iff :
    this.isConstraintUnbounded ↔
      this.fIncludesNull ∧ ∃ r, this.pdrgprng = [r] ∧ r.pdatumLeft = none ∧ r.pdatumRight = none := by
  obtain ⟨ranges,fIncludesNull⟩ := this
  match ranges with
  | [] => simp [isConstraintUnbounded]
  | [r] => simp [isConstraintUnbounded,CRange.isConstraintUnbounded]
  | r :: s :: rest => simp [isConstraintUnbounded]

theorem contains_of_isConstraintUnbounded (h : this.isConstraintUnbounded)
    (value : Option (D colref)) : this.Contains value := by
  obtain ⟨hnull,r,hrs,hleft,hr⟩ := isConstraintUnbounded_iff.mp h
  cases value with
  | none => exact hnull
  | some v => simp [Contains,hrs,CRange.Holds,hleft,hr]

/-- An interval in normal form that is a contradiction has no member; of a Boolean column, no value
lies strictly between two others. -/
theorem NormalForm.not_contains_of_fContradiction (hpci : pci.NormalForm)
    (h : pci.fContradiction colref (columns.md colref)) (value : Option (D colref)) :
    ¬ pci.Contains value := by
  obtain ⟨ranges,fIncludesNull⟩ := pci
  have hnull : fIncludesNull = false := by
    simp only [fContradiction,Bool.and_eq_true,Bool.not_eq_true'] at h
    exact h.1
  subst hnull
  cases value with
  | none => simp [Contains]
  | some v =>
    match ranges with
    | [] => simp [Contains]
    | [⟨left,eriLeft,right,eriRight⟩] =>
      simp only [fContradiction,Bool.not_false,Bool.true_and,Bool.and_eq_true,
        decide_eq_true_eq] at h
      obtain ⟨⟨⟨⟨hbool,rfl⟩,rfl⟩,hleft⟩,hr⟩ := h
      obtain ⟨iso,-⟩ := Option.isSome_iff_exists.mp hbool
      obtain ⟨a,rfl⟩ := Option.isSome_iff_exists.mp hleft
      obtain ⟨b,rfl⟩ := Option.isSome_iff_exists.mp hr
      obtain ⟨ha,hb⟩ := hpci.ends _ mem_cons_self
      obtain ⟨a,rfl⟩ := ne_bot_iff_exists.mp (ha a rfl)
      obtain ⟨b,rfl⟩ := ne_bot_iff_exists.mp (hb b rfl)
      simp only [Contains,inRanges_cons,inRanges_nil,or_false,CRange.Holds,
        Option.mem_some_iff,forall_eq',reduceCtorEq,if_false,coe_lt_coe,not_and]
      intro hav hvb
      have hav : iso a < iso v := iso.lt_iff_lt.mpr hav
      have hvb : iso v < iso b := iso.lt_iff_lt.mpr hvb
      revert hav hvb
      cases iso a <;> cases iso v <;> cases iso b <;> decide
    | r :: s :: rest => simp [fContradiction] at h

theorem NormalForm.contains_of_fContainsInterval (hthis : this.NormalForm) (hpci : pci.NormalForm)
    (h : fContainsInterval columns this pci) (value : Option (D colref))
    (hv : pci.Contains value) : this.Contains value := by
  unfold fContainsInterval at h
  split_ifs at h with hunb hea
  · exact contains_of_isConstraintUnbounded hunb value
  · by_contra hnot
    have hdiff := hpci.pciDifference hthis
    apply hdiff.normalForm.not_contains_of_fContradiction columns h value
    exact (hdiff.contains_iff value).mpr ⟨hv,hnot⟩

section

variable [DenselyOrdered (D colref)] [NoMinOrder (D colref)] [NoMaxOrder (D colref)]
  [Nonempty (D colref)]

theorem prngExtend_of_covered {r s : CRange (IDatum (D colref))} (hr : r.EndsIn (· ≠ ⊥))
    (hs : s.EndsIn (· ≠ ⊥)) (hle : r.hi ≤ s.lo)
    (hcv : ∀ v : D colref, ¬ Between r.hi s.lo (v : IDatum (D colref))) :
    r.prngExtend s ≠ none := by
  obtain ⟨left,eriLeft,right,eriRight⟩ := r
  obtain ⟨left',eriLeft',right',eriRight'⟩ := s
  simp only [hi,lo] at hle hcv
  cases right with
  | none =>
    have htop := CRange.cutLeft_lt_top left' eriLeft'
    exact absurd (hle.trans_lt htop) (by simp [cutRight])
  | some a =>
    cases left' with
    | none =>
      have hbot := CRange.bot_lt_cutRight (some a) eriRight
      exact absurd (hbot.trans_le hle) (by simp [cutLeft])
    | some b =>
      rcases hle.lt_or_eq with hlt | heq
      · -- the gap between the two ranges is a range itself
        obtain ⟨v,hv⟩ := CRange.exists_holds
          (r := ⟨some a,eriInverseInclusion eriRight,some b,eriInverseInclusion eriLeft'⟩)
          (by simpa [lo,hi,cutLeft_inverse,CRange.cutRight_inverse] using hlt)
          ⟨hr.2,hs.1⟩
        rw [CRange.holds_iff] at hv
        simp only [lo,hi,cutLeft_inverse,CRange.cutRight_inverse] at hv
        exact absurd hv (hcv v)
      · rw [← cutLeft_inverse] at heq
        obtain ⟨rfl,rfl⟩ := CRange.cutLeft_injective heq
        cases eriRight <;> simp [prngExtend,eriInverseInclusion]

theorem NormalForm.isConstraintUnbounded (hthis : this.NormalForm) (hunm : this.Unmerged)
    (hall : ∀ value, this.Contains value) : this.isConstraintUnbounded := by
  have hvs (v : D colref) : InRanges this.pdrgprng (v : IDatum (D colref)) := hall (some v)
  obtain ⟨ranges,fIncludesNull⟩ := this
  obtain ⟨hord,hends⟩ := hthis
  simp only [WellFormed,Unmerged] at hord hends hunm hvs
  cases ranges with
  | nil => exact absurd (hvs (Classical.arbitrary _)) inRanges_nil
  | cons r rest =>
    obtain ⟨hr,haft,hrest⟩ := ordered_cons.mp hord
    have hrends := hends r mem_cons_self
    cases rest with
    | nil =>
      simp only [inRanges_cons,inRanges_nil,or_false] at hvs
      apply isConstraintUnbounded_iff.mpr
      refine ⟨hall none,r,rfl,?_,?_⟩
      · apply Option.eq_none_iff_forall_ne_some.mpr
        intro a ha
        obtain ⟨a,rfl⟩ := ne_bot_iff_exists.mp (hrends.1 a ha)
        obtain ⟨v,hv⟩ := exists_lt a
        have hge := (hvs v).1 _ ha
        split_ifs at hge
        · exact absurd (coe_le_coe.mp hge) hv.not_ge
        · exact absurd (coe_lt_coe.mp hge) hv.not_gt
      · apply Option.eq_none_iff_forall_ne_some.mpr
        intro b hb
        obtain ⟨b,rfl⟩ := ne_bot_iff_exists.mp (hrends.2 b hb)
        obtain ⟨v,hv⟩ := exists_gt b
        have hle := (hvs v).2 _ hb
        split_ifs at hle
        · exact absurd (coe_le_coe.mp hle) hv.not_ge
        · exact absurd (coe_lt_coe.mp hle) hv.not_gt
    | cons s rest =>
      have hnone := (isChain_cons_cons.mp hunm).1
      refine absurd hnone (prngExtend_of_covered hrends (hends s (mem_cons_of_mem _ mem_cons_self))
        (haft s mem_cons_self) fun v hv => ?_)
      rcases inRanges_cons.mp (hvs v) with hheld | hheld
      · exact ((r.holds_iff _).mp hheld).2 hv.1
      · exact hv.2 (hrest.startAfter.passed hheld)

theorem NormalForm.fContainsInterval_of_contains (hthis : this.NormalForm) (hpci : pci.NormalForm)
    (hunm : this.Unmerged ∨ ¬ pci.isConstraintUnbounded)
    (h : ∀ value, pci.Contains value → this.Contains value) :
    fContainsInterval columns this pci := by
  unfold fContainsInterval
  split_ifs with hunb hea
  · rfl
  · simp only [Bool.or_eq_true,Bool.and_eq_true,Bool.not_eq_true'] at hea
    rcases hea with hall | hnull
    · have hmg := hunm.resolve_right (not_not.mpr hall)
      exact absurd (hthis.isConstraintUnbounded hmg fun value =>
        h value (contains_of_isConstraintUnbounded hall value)) hunb
    · have := h none hnull.2
      rw [Contains,hnull.1] at this
      exact absurd this Bool.false_ne_true
  · have hdiff := hpci.pciDifference hthis
    have hnone (value : Option (D colref)) : ¬ (pci.pciDifference this).Contains value := by
      rw [hdiff.contains_iff value]
      exact fun hboth => hboth.2 (h value hboth.1)
    have hrs : (pci.pciDifference this).pdrgprng = [] := by
      apply eq_nil_iff_forall_not_mem.mpr
      intro r hr
      obtain ⟨v,hv⟩ := CRange.exists_holds (hdiff.normalForm.wellFormed.nonempty r hr)
        (hdiff.normalForm.ends r hr)
      exact hnone (some v) ⟨r,hr,hv⟩
    have hnull : (pci.pciDifference this).fIncludesNull = false :=
      Bool.eq_false_iff.mpr (hnone none)
    simp [fContradiction,hrs,hnull]

end

/-- The four set operations are exact, and so is the test for containment in a dense order without
endpoints, unless everything is asked of ranges that together hold everything but were not
joined. -/
theorem interval_algebra (colref : ℕ) (this pci : CConstraintInterval (IDatum (D colref)))
    (hthis : this.NormalForm) (hpci : pci.NormalForm) :
    (this.pciIntersect pci).Exactly (fun value => this.Contains value ∧ pci.Contains value) ∧
    (this.pciUnion pci).Exactly (fun value => this.Contains value ∨ pci.Contains value) ∧
    (this.pciDifference pci).Exactly (fun value => this.Contains value ∧ ¬ pci.Contains value) ∧
    (∃ complement, pciComplement (columns.md colref) this = .ok complement ∧
      complement.Exactly fun value => ¬ this.Contains value) ∧
    (fContainsInterval columns this pci → ∀ value, pci.Contains value → this.Contains value) ∧
    (DenselyOrdered (D colref) → NoMinOrder (D colref) → NoMaxOrder (D colref) →
      Nonempty (D colref) → this.Unmerged ∨ ¬ pci.isConstraintUnbounded →
      (∀ value, pci.Contains value → this.Contains value) → fContainsInterval columns this pci) := by
  refine ⟨hthis.pciIntersect hpci,hthis.pciUnion hpci,hthis.pciDifference hpci,
    hthis.pciComplement columns,hthis.contains_of_fContainsInterval columns hpci,?_⟩
  intro _ _ _ _ hunm h
  exact hthis.fContainsInterval_of_contains columns hpci hunm h

end CConstraintInterval

namespace UnmergedRanges

open CConstraintInterval

abbrev Rational : ℕ → Type := fun _ => ℚ

def columns : CTableColumns Rational := plainColumns Rational true true

def datum (v : Rational 0) : IDatum (Rational 0) := v

def halves : CConstraintInterval (IDatum (Rational 0)) :=
  ⟨[⟨none, .eriExcluded, some (datum 5), .eriIncluded⟩,
    ⟨some (datum 5), .eriExcluded, none, .eriExcluded⟩], true⟩

def everything : CConstraintInterval (IDatum (Rational 0)) :=
  ⟨[⟨none, .eriExcluded, none, .eriExcluded⟩], true⟩

def positive : CConstraintInterval (IDatum (Rational 0)) :=
  ⟨[⟨some (datum 0), .eriExcluded, none, .eriExcluded⟩], false⟩

theorem normalForm_halves : NormalForm halves where
  wellFormed := by
    simp [WellFormed,halves,ordered_cons,lo,hi,cutLeft,cutRight,StartAfter]
  ends := by simp [EndsIn,CRange.EndsIn,halves,datum]

theorem normalForm_positive : NormalForm positive where
  wellFormed := by
    simp [WellFormed,positive,ordered_cons,lo,hi,cutLeft,cutRight,StartAfter]
  ends := by simp [EndsIn,CRange.EndsIn,positive,datum]

/-- The rationals are dense and without endpoints, every member of one interval is a member of the
other, and the test says no. -/
theorem halves_not_fContainsInterval :
    NormalForm halves ∧
      NormalForm everything ∧
      (∀ value, everything.Contains value → halves.Contains value) ∧
      fContainsInterval columns halves everything = false := by
  refine ⟨normalForm_halves,pciUnbounded_normalForm columns rfl,?_,by decide +kernel⟩
  intro value _
  cases value with
  | none => simp [Contains,halves]
  | some v => simpa [Contains,halves,CRange.Holds] using le_or_gt (v : IDatum (Rational 0)) (datum 5)

theorem halves_fContainsInterval_positive :
    (halves.pciIntersect positive).Exactly
        (fun value => halves.Contains value ∧ positive.Contains value) ∧
      fContainsInterval columns halves positive = true := by
  have h := interval_algebra columns 0 halves positive normalForm_halves normalForm_positive
  refine ⟨h.1,h.2.2.2.2.2 inferInstance inferInstance inferInstance inferInstance
    (.inr (by decide +kernel)) ?_⟩
  intro value hv
  cases value with
  | none => simp [Contains,positive] at hv
  | some v => simpa [Contains,halves,CRange.Holds] using le_or_gt (v : IDatum (Rational 0)) (datum 5)

end UnmergedRanges

end PgOrca
