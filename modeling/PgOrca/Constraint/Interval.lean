import PgOrca.Constraint.Range

/-!
# Interval constraints

The set operations walk two arrays of ranges at once, always past the range that ends first.
-/

namespace PgOrca

open List CRange

variable {α : Type*} [LinearOrder α]

structure CConstraintInterval (α : Type*) where
  pdrgprng : List (CRange α)
  fIncludesNull : Bool
  deriving DecidableEq, Repr

namespace CConstraintInterval

/-- Extend the last range of the array, or append a new one. -/
def appendOrExtend (pdrgprng : List (CRange α)) : Option (CRange α) → List (CRange α)
  | none => pdrgprng
  | some prange =>
    match pdrgprng.getLast? with
    | none => pdrgprng ++ [prange]
    | some prangeLast =>
      match prangeLast.prngExtend prange with
      | none => pdrgprng ++ [prange]
      | some prangeNew => pdrgprng.dropLast ++ [prangeNew]

def addRemainingRanges (src dest : List (CRange α)) : List (CRange α) :=
  src.foldl (fun dest prange => appendOrExtend dest (some prange)) dest

def intersectRanges : List (CRange α) → List (CRange α) → List (CRange α)
  | this :: fst, other :: snd =>
    if other.fEndsAfter this then
      (this.prngIntersect other).toList ++ intersectRanges fst (other :: snd)
    else
      (other.prngIntersect this).toList ++ intersectRanges (this :: fst) snd
  | _, _ => []
termination_by fst snd => fst.length + snd.length

def unionRanges : List (CRange α) → List (CRange α) → List (CRange α) → List (CRange α)
  | this :: fst, other :: snd, new =>
    if other.fEndsAfter this then
      unionRanges fst (other :: snd) (appendOrExtend new (this.prngDifferenceLeft other))
    else
      unionRanges (this :: fst) snd (appendOrExtend new (other.prngDifferenceLeft this))
  | fst, snd, new => addRemainingRanges snd (addRemainingRanges fst new)
termination_by fst snd => fst.length + snd.length

/-- The part of the first range to the left of the second, and what remains of
it to the right. -/
def prangeDiffWithRightResidual (prangeFirst prangeSecond : CRange α) :
    Option (CRange α) × Option (CRange α) :=
  if prangeSecond.fDisjointLeft prangeFirst then (none, none)
  else
    (if prangeFirst.contains prangeSecond then prangeFirst.prngDifferenceLeft prangeSecond
      else none,
      prangeFirst.prngDifferenceRight prangeSecond)

def differenceRanges (residual : Option (CRange α)) :
    List (CRange α) → List (CRange α) → List (CRange α) → List (CRange α)
  | this :: fst, other :: snd, new =>
    let prangeThis := residual.getD this
    if other.fEndsWithOrAfter prangeThis then
      differenceRanges none fst (other :: snd)
        (appendOrExtend new (prangeThis.prngDifferenceLeft other))
    else
      let split := prangeDiffWithRightResidual prangeThis other
      differenceRanges split.2 (this :: fst) snd (appendOrExtend new split.1)
  | fst, _, new =>
    match residual with
    | none => addRemainingRanges fst new
    | some prangeResidual => addRemainingRanges (fst.drop 1) (appendOrExtend new prangeResidual)
termination_by fst snd => fst.length + snd.length

variable (this pci : CConstraintInterval α)

def pciIntersect : CConstraintInterval α :=
  ⟨intersectRanges this.pdrgprng pci.pdrgprng, this.fIncludesNull && pci.fIncludesNull⟩

def pciUnion : CConstraintInterval α :=
  ⟨unionRanges this.pdrgprng pci.pdrgprng [], this.fIncludesNull || pci.fIncludesNull⟩

def pciDifference : CConstraintInterval α :=
  ⟨differenceRanges none this.pdrgprng pci.pdrgprng [], this.fIncludesNull && !pci.fIncludesNull⟩

end CConstraintInterval

/-! ### Arrays of ranges in order -/

/-- No range is empty, and each one ends before the next one starts. -/
structure Ordered (ranges : List (CRange α)) : Prop where
  nonempty : ∀ r ∈ ranges, r.lo < r.hi
  pairwise : ranges.Pairwise fun r s => r.hi ≤ s.lo

def EndBefore (ranges : List (CRange α)) (c : Cut α) : Prop := ∀ r ∈ ranges, r.hi ≤ c

def StartAfter (c : Cut α) (ranges : List (CRange α)) : Prop := ∀ r ∈ ranges, c ≤ r.lo

def InRanges (ranges : List (CRange α)) (v : α) : Prop := ∃ r ∈ ranges, r.Holds v

variable {ranges rest : List (CRange α)} {r s : CRange α} {c : Cut α} {v : α}

@[simp] theorem ordered_nil : Ordered ([] : List (CRange α)) := ⟨by simp,List.Pairwise.nil⟩

theorem ordered_cons : Ordered (r :: rest) ↔ r.lo < r.hi ∧ StartAfter r.hi rest ∧ Ordered rest := by
  constructor
  · rintro ⟨hne,hpair⟩
    rw [pairwise_cons] at hpair
    exact ⟨hne r (by simp),hpair.1,fun s hs => hne s (by simp [hs]),hpair.2⟩
  · rintro ⟨hr,haft,hrest⟩
    refine ⟨?_,pairwise_cons.mpr ⟨haft,hrest.pairwise⟩⟩
    intro s hs
    rcases mem_cons.mp hs with rfl | hs
    · exact hr
    · exact hrest.nonempty s hs

theorem ordered_concat :
    Ordered (ranges ++ [r]) ↔ Ordered ranges ∧ EndBefore ranges r.lo ∧ r.lo < r.hi := by
  constructor
  · rintro ⟨hne,hpair⟩
    rw [pairwise_append] at hpair
    exact ⟨⟨fun s hs => hne s (by simp [hs]),hpair.1⟩,
      fun s hs => hpair.2.2 s hs r (by simp),hne r (by simp)⟩
  · rintro ⟨hord,hend,hr⟩
    refine ⟨?_,pairwise_append.mpr ⟨hord.pairwise,by simp,?_⟩⟩
    · intro s hs
      rcases mem_append.mp hs with hs | hs
      · exact hord.nonempty s hs
      · rw [mem_singleton.mp hs]
        exact hr
    · intro s hs t ht
      rw [mem_singleton.mp ht]
      exact hend s hs

theorem StartAfter.mono {d : Cut α} (h : StartAfter d ranges) (hcd : c ≤ d) : StartAfter c ranges :=
  fun r hr => hcd.trans (h r hr)

theorem EndBefore.mono {d : Cut α} (h : EndBefore ranges c) (hcd : c ≤ d) : EndBefore ranges d :=
  fun r hr => (h r hr).trans hcd

@[simp] theorem inRanges_nil : ¬ InRanges ([] : List (CRange α)) v := by simp [InRanges]

@[simp] theorem inRanges_cons : InRanges (r :: rest) v ↔ r.Holds v ∨ InRanges rest v := by
  simp [InRanges]

@[simp] theorem inRanges_append :
    InRanges (ranges ++ rest) v ↔ InRanges ranges v ∨ InRanges rest v := by
  simp [InRanges,or_and_right,exists_or]

theorem StartAfter.passed (h : StartAfter c ranges) (hv : InRanges ranges v) : c.Passed v := by
  obtain ⟨r,hr,hh⟩ := hv
  exact ((r.holds_iff v).mp hh).1.mono (h r hr)

theorem Ordered.startAfter (h : Ordered (r :: rest)) : StartAfter r.lo (r :: rest) := by
  obtain ⟨hr,haft,-⟩ := ordered_cons.mp h
  intro s hs
  rcases mem_cons.mp hs with rfl | hs
  · exact le_rfl
  · exact hr.le.trans (haft s hs)

variable (residual : Option (CRange α))

namespace CConstraintInterval

variable {new fst snd common : List (CRange α)}

theorem appendOrExtend_spec (hord : Ordered ranges) (hr : r.lo < r.hi)
    (hend : EndBefore ranges r.lo) :
    Ordered (appendOrExtend ranges r) ∧ EndBefore (appendOrExtend ranges r) r.hi ∧
      ∀ v, InRanges (appendOrExtend ranges r) v ↔ InRanges ranges v ∨ r.Holds v := by
  have hap : Ordered (ranges ++ [r]) ∧ EndBefore (ranges ++ [r]) r.hi ∧
      ∀ v, InRanges (ranges ++ [r]) v ↔ InRanges ranges v ∨ r.Holds v := by
    refine ⟨ordered_concat.mpr ⟨hord,hend,hr⟩,?_,fun v => by simp⟩
    intro s hs
    rcases mem_append.mp hs with hs | hs
    · exact (hend s hs).trans hr.le
    · rw [mem_singleton.mp hs]
  unfold appendOrExtend
  cases hlast : ranges.getLast? with
  | none => exact hap
  | some last =>
    obtain ⟨init,rfl⟩ := getLast?_eq_some_iff.mp hlast
    obtain ⟨hinit,hbef,hne⟩ := ordered_concat.mp hord
    simp only [dropLast_concat]
    cases hext : last.prngExtend r with
    | none => exact hap
    | some new =>
      obtain ⟨hmeet,hlo,hhi⟩ := prngExtend_some (hend last (by simp)) hext
      refine ⟨ordered_concat.mpr ⟨hinit,hlo ▸ hbef,?_⟩,?_,?_⟩
      · rw [hlo,hhi]
        exact hne.trans (hmeet ▸ hr)
      · intro s hs
        rcases mem_append.mp hs with hs | hs
        · exact (hend s (by simp [hs])).trans hr.le
        · rw [mem_singleton.mp hs,hhi]
      · intro v
        -- the two ranges share a cut, so together they hold what the extended one holds
        have hsp : new.Holds v ↔ last.Holds v ∨ r.Holds v := by
          simp only [holds_iff,Between,hlo,hhi,hmeet]
          constructor
          · rintro ⟨hin,hout⟩
            by_cases hmid : r.lo.Passed v
            · exact .inr ⟨hmid,hout⟩
            · exact .inl ⟨hin,hmid⟩
          · rintro (⟨hin,hout⟩ | ⟨hin,hout⟩)
            · exact ⟨hin,fun h => hout (h.mono hr.le)⟩
            · exact ⟨hin.mono (hne.le.trans hmeet.le),hout⟩
        simp only [inRanges_append,inRanges_cons,inRanges_nil,or_false,hsp,or_assoc]

theorem addRemainingRanges_spec (src : List (CRange α)) :
    ∀ dest : List (CRange α), Ordered src → Ordered dest →
      (∀ r ∈ dest, StartAfter r.hi src) →
      Ordered (addRemainingRanges src dest) ∧
        ∀ v, InRanges (addRemainingRanges src dest) v ↔ InRanges dest v ∨ InRanges src v := by
  induction src with
  | nil => intro dest _ hdest _; simpa [addRemainingRanges] using hdest
  | cons r rest ih =>
    intro dest hsrc hdest haft
    obtain ⟨hr,hrest,hord⟩ := ordered_cons.mp hsrc
    obtain ⟨hnew,hend,hmem⟩ :=
      appendOrExtend_spec hdest hr fun s hs => haft s hs r (by simp)
    obtain ⟨hall,hallM⟩ := ih (appendOrExtend dest r) hord hnew fun s hs => hrest.mono (hend s hs)
    refine ⟨hall,fun v => (hallM v).trans ?_⟩
    rw [hmem,inRanges_cons,or_assoc]

theorem appendOrExtend_differenceLeft (hord : Ordered new) (hr : r.lo < r.hi)
    (hend : EndBefore new r.lo) (hendO : EndBefore new s.lo) :
    Ordered (appendOrExtend new (r.prngDifferenceLeft s)) ∧
      EndBefore (appendOrExtend new (r.prngDifferenceLeft s)) (min r.hi s.lo) ∧
      ∀ v, InRanges (appendOrExtend new (r.prngDifferenceLeft s)) v ↔
        InRanges new v ∨ r.Holds v ∧ ¬ s.lo.Passed v := by
  cases hdiff : r.prngDifferenceLeft s with
  | none =>
    have hle := prngDifferenceLeft_none hdiff
    refine ⟨hord,fun t ht => le_min ((hend t ht).trans hr.le) (hendO t ht),fun v => ?_⟩
    simp only [appendOrExtend,iff_self_or]
    rintro ⟨hh,hnot⟩
    exact absurd (((r.holds_iff v).mp hh).1.mono hle) hnot
  | some t =>
    obtain ⟨hlo,hhi,hlt⟩ := prngDifferenceLeft_some hr hdiff
    have ht : t.lo < t.hi := by
      rw [hlo,hhi]
      exact lt_min hr hlt
    obtain ⟨hnew,hnewE,hmem⟩ := appendOrExtend_spec hord ht (hlo ▸ hend)
    refine ⟨hnew,hhi ▸ hnewE,fun v => (hmem v).trans ?_⟩
    have : t.Holds v ↔ r.Holds v ∧ ¬ s.lo.Passed v := by
      simp only [holds_iff,Between,hlo,hhi]
      constructor
      · rintro ⟨hin,hout⟩
        exact ⟨⟨hin,fun h => hout (h.mono (min_le_left _ _))⟩,
          fun h => hout (h.mono (min_le_right _ _))⟩
      · rintro ⟨⟨hin,hout⟩,hnot⟩
        refine ⟨hin,fun h => ?_⟩
        rcases min_choice r.hi s.lo with heq | heq <;> rw [heq] at h
        · exact hout h
        · exact hnot h
    rw [this]

theorem prngIntersect_spec (hr : r.lo < r.hi) (hs : s.lo < s.hi) :
    (∀ t ∈ r.prngIntersect s, t.lo < t.hi ∧ max r.lo s.lo ≤ t.lo ∧ t.hi ≤ min r.hi s.hi) ∧
      ∀ v, InRanges (r.prngIntersect s).toList v ↔ r.Holds v ∧ s.Holds v := by
  have hboth (v : α) : r.Holds v ∧ s.Holds v ↔ Between (max r.lo s.lo) (min r.hi s.hi) v := by
    simp only [holds_iff,Between,Cut.Passed,max_le_iff,min_le_iff,not_or]
    grind
  cases hcom : r.prngIntersect s with
  | none =>
    refine ⟨by simp,fun v => ?_⟩
    rw [hboth]
    simp only [Option.toList_none,inRanges_nil,false_iff]
    rintro ⟨hin,hout⟩
    exact hout (hin.mono (prngIntersect_none hcom))
  | some t =>
    obtain ⟨hlo,hhi,hne⟩ := prngIntersect_some hr hs hcom
    refine ⟨?_,fun v => ?_⟩
    · intro u hu
      cases hu
      exact ⟨hne,hlo.ge,hhi.le⟩
    · rw [hboth,← hlo,← hhi,← holds_iff]
      simp

theorem hi_le_of_fEndsAfter (h : s.fEndsAfter r) : r.hi ≤ s.hi := by
  rcases fEndsAfter_iff.mp h with hlt | htop
  · exact hlt.le
  · exact htop.1 ▸ le_top

theorem hi_le_of_not_fEndsAfter (h : ¬ s.fEndsAfter r) : s.hi ≤ r.hi :=
  not_lt.mp fun hlt => h (fEndsAfter_iff.mpr (.inl hlt))

/-- The array holds what both given arrays hold, and starts no earlier than
either of them. -/
structure IsCommon (fst snd common : List (CRange α)) : Prop where
  ordered : Ordered common
  afterFst : ∀ c, StartAfter c fst → StartAfter c common
  afterSnd : ∀ c, StartAfter c snd → StartAfter c common
  holds : ∀ v, InRanges common v ↔ InRanges fst v ∧ InRanges snd v

theorem IsCommon.symm (h : IsCommon fst snd common) : IsCommon snd fst common :=
  ⟨h.ordered,h.afterSnd,h.afterFst,fun v => (h.holds v).trans and_comm⟩

theorem IsCommon.step (hfst : Ordered (r :: fst)) (hsnd : Ordered (s :: snd)) (hends : r.hi ≤ s.hi)
    (h : IsCommon fst (s :: snd) common) :
    IsCommon (r :: fst) (s :: snd) ((r.prngIntersect s).toList ++ common) := by
  obtain ⟨hr,hfa,-⟩ := ordered_cons.mp hfst
  obtain ⟨hs,hsa,-⟩ := ordered_cons.mp hsnd
  obtain ⟨hpart,hpar⟩ := prngIntersect_spec hr hs
  refine ⟨?_,?_,?_,?_⟩
  · cases hrs : r.prngIntersect s with
    | none => simpa using h.ordered
    | some t =>
      obtain ⟨ht,-,hend⟩ := hpart t hrs
      have haft := h.afterFst _ (hfa.mono (hend.trans (min_le_left _ _)))
      simpa using ordered_cons.mpr ⟨ht,haft,h.ordered⟩
  · intro c hc t ht
    rcases mem_append.mp ht with ht | ht
    · obtain ⟨-,hlo,-⟩ := hpart t (Option.mem_toList.mp ht)
      exact (hc r (by simp)).trans ((le_max_left _ _).trans hlo)
    · exact h.afterFst c (fun u hu => hc u (by simp [hu])) t ht
  · intro c hc t ht
    rcases mem_append.mp ht with ht | ht
    · obtain ⟨-,hlo,-⟩ := hpart t (Option.mem_toList.mp ht)
      exact (hc s (by simp)).trans ((le_max_right _ _).trans hlo)
    · exact h.afterSnd c hc t ht
  · intro v
    rw [inRanges_append,hpar,h.holds,inRanges_cons,inRanges_cons]
    have hdj : r.Holds v → ¬ InRanges snd v := by
      intro hh hin
      exact ((r.holds_iff v).mp hh).2 ((hsa.mono hends).passed hin)
    grind

theorem intersectRanges_isCommon (fst snd : List (CRange α)) (hfst : Ordered fst)
    (hsnd : Ordered snd) : IsCommon fst snd (intersectRanges fst snd) := by
  fun_induction intersectRanges fst snd with
  | case1 this fst other snd hends ih =>
    exact (ih (ordered_cons.mp hfst).2.2 hsnd).step hfst hsnd (hi_le_of_fEndsAfter hends)
  | case2 this fst other snd hends ih =>
    have hrest := (ih hfst (ordered_cons.mp hsnd).2.2).symm
    exact (hrest.step hsnd hfst (hi_le_of_not_fEndsAfter hends)).symm
  | case3 fst snd hnot =>
    refine ⟨ordered_nil,by simp [StartAfter],by simp [StartAfter],fun v => ?_⟩
    cases fst with
    | nil => simp
    | cons this fst =>
      cases snd with
      | nil => simp
      | cons other snd => exact absurd rfl (hnot this fst other snd rfl)

/-- The walk has written `new` and still has `fst` and `snd` before it. -/
structure Writing (fst snd new : List (CRange α)) : Prop where
  ordered : Ordered new
  beforeFst : ∀ r ∈ new, StartAfter r.hi fst
  beforeSnd : ∀ r ∈ new, StartAfter r.hi snd

theorem Writing.symm (h : Writing fst snd new) : Writing snd fst new :=
  ⟨h.ordered,h.beforeSnd,h.beforeFst⟩

theorem Writing.step (hfst : Ordered (r :: fst)) (hsnd : Ordered (s :: snd)) (hends : r.hi ≤ s.hi)
    (h : Writing (r :: fst) (s :: snd) new) :
    Writing fst (s :: snd) (appendOrExtend new (r.prngDifferenceLeft s)) ∧
      ∀ v, InRanges (appendOrExtend new (r.prngDifferenceLeft s)) v ∨ InRanges fst v ∨
          InRanges (s :: snd) v ↔
        InRanges new v ∨ InRanges (r :: fst) v ∨ InRanges (s :: snd) v := by
  obtain ⟨hr,hfa,-⟩ := ordered_cons.mp hfst
  obtain ⟨hord,hend,hh⟩ := appendOrExtend_differenceLeft h.ordered hr
    (fun t ht => h.beforeFst t ht r (by simp)) fun t ht => h.beforeSnd t ht s (by simp)
  refine ⟨⟨hord,?_,?_⟩,?_⟩
  · exact fun t ht => hfa.mono ((hend t ht).trans (min_le_left _ _))
  · exact fun t ht => hsnd.startAfter.mono ((hend t ht).trans (min_le_right _ _))
  · intro v
    rw [hh,inRanges_cons,inRanges_cons]
    have hcv : r.Holds v → s.lo.Passed v → s.Holds v := by
      intro hrv hpa
      refine (s.holds_iff v).mpr ⟨hpa,fun hout => ?_⟩
      exact ((r.holds_iff v).mp hrv).2 (hout.mono hends)
    grind

theorem unionRanges_spec (fst snd new : List (CRange α)) (hfst : Ordered fst) (hsnd : Ordered snd)
    (hnew : Writing fst snd new) :
    Ordered (unionRanges fst snd new) ∧
      ∀ v, InRanges (unionRanges fst snd new) v ↔
        InRanges new v ∨ InRanges fst v ∨ InRanges snd v := by
  fun_induction unionRanges fst snd new with
  | case1 new this fst other snd hends ih =>
    obtain ⟨hwr,hh⟩ := hnew.step hfst hsnd (hi_le_of_fEndsAfter hends)
    obtain ⟨hord,hmem⟩ := ih (ordered_cons.mp hfst).2.2 hsnd hwr
    exact ⟨hord,fun v => (hmem v).trans (hh v)⟩
  | case2 new this fst other snd hends ih =>
    obtain ⟨hwr,hh⟩ := hnew.symm.step hsnd hfst (hi_le_of_not_fEndsAfter hends)
    obtain ⟨hord,hmem⟩ := ih hfst (ordered_cons.mp hsnd).2.2 hwr.symm
    refine ⟨hord,fun v => (hmem v).trans ?_⟩
    have := hh v
    grind
  | case3 fst snd new hnot =>
    obtain ⟨hord,hmem⟩ := addRemainingRanges_spec fst new hfst hnew.ordered hnew.beforeFst
    cases snd with
    | nil => exact ⟨hord,fun v => by simpa [addRemainingRanges] using hmem v⟩
    | cons other snd =>
      cases fst with
      | nil =>
        obtain ⟨hord',hmem'⟩ :=
          addRemainingRanges_spec (other :: snd) new hsnd hnew.ordered hnew.beforeSnd
        exact ⟨hord',fun v => by simpa [addRemainingRanges] using hmem' v⟩
      | cons this fst => exact absurd rfl (hnot this fst other snd rfl)

/-- What the difference still has to walk: the residual of the first range
stands for the range itself. -/
def pending : List (CRange α) → List (CRange α)
  | this :: fst => residual.getD this :: fst
  | [] => []

omit [LinearOrder α] in
theorem pending_none (ranges : List (CRange α)) : pending none ranges = ranges := by
  cases ranges <;> rfl

def Remains (fst snd new : List (CRange α)) (v : α) : Prop :=
  InRanges new v ∨ InRanges fst v ∧ ¬ InRanges snd v

section

variable (hfst : Ordered (r :: fst))

include hfst

theorem remains_differenceLeft (hsnd : Ordered (s :: snd)) (hends : r.hi ≤ s.hi)
    (h : Writing (r :: fst) (s :: snd) new) :
    Remains fst (s :: snd) (appendOrExtend new (r.prngDifferenceLeft s)) v ↔
      Remains (r :: fst) (s :: snd) new v := by
  obtain ⟨hr,-,-⟩ := ordered_cons.mp hfst
  obtain ⟨-,hsa,-⟩ := ordered_cons.mp hsnd
  have hh := (appendOrExtend_differenceLeft h.ordered hr
    (fun t ht => h.beforeFst t ht r (by simp)) fun t ht => h.beforeSnd t ht s (by simp)).2.2 v
  have hins : r.Holds v → (¬ s.lo.Passed v ↔ ¬ InRanges (s :: snd) v) := by
    intro hrv
    have hout := ((r.holds_iff v).mp hrv).2
    refine ⟨fun hnot hin => hnot (hsnd.startAfter.passed hin),fun hnot hpa => hnot ?_⟩
    exact inRanges_cons.mpr (.inl ((s.holds_iff v).mpr ⟨hpa,fun h => hout (h.mono hends)⟩))
  simp only [Remains,hh,inRanges_cons (r := r),or_and_right,or_assoc,and_congr_right hins]

theorem remains_drop (hleft : s.hi ≤ r.lo) :
    Remains (r :: fst) snd new v ↔ Remains (r :: fst) (s :: snd) new v := by
  have hdj : InRanges (r :: fst) v → ¬ s.Holds v := fun hin hh =>
    ((s.holds_iff v).mp hh).2 ((hfst.startAfter.mono hleft).passed hin)
  simp only [Remains,inRanges_cons (r := s),not_or]
  constructor
  · exact Or.imp_right fun h => ⟨h.1,hdj h.1,h.2⟩
  · exact Or.imp_right fun h => ⟨h.1,h.2.2⟩

/-- `r` reaches beyond `s`: the part before `s` is written, the part after `s`
is the residual. It starts where `s` ends, so no range still to be taken away
lies to the left of it. -/
theorem prangeDiffWithRightResidual_spec (hsnd : Ordered (s :: snd)) (hends : s.hi < r.hi)
    (hmeet : r.lo < s.hi) (h : Writing (r :: fst) (s :: snd) new) :
    ∃ t, (prangeDiffWithRightResidual r s).2 = some t ∧ Ordered (t :: fst) ∧
      StartAfter t.lo snd ∧
      Writing (t :: fst) snd (appendOrExtend new (prangeDiffWithRightResidual r s).1) ∧
      ∀ v, Remains (t :: fst) snd (appendOrExtend new (prangeDiffWithRightResidual r s).1) v ↔
        Remains (r :: fst) (s :: snd) new v := by
  obtain ⟨hr,hfa,hfst'⟩ := ordered_cons.mp hfst
  obtain ⟨hs,hsa,-⟩ := ordered_cons.mp hsnd
  obtain ⟨t,ht,hlo,hhi⟩ := prngDifferenceRight_of_lt hmeet hends
  have hleft : ¬ s.fDisjointLeft r := fun h => absurd (fDisjointLeft_iff.mp h) hmeet.not_ge
  have htfst : Ordered (t :: fst) := by
    refine ordered_cons.mpr ⟨?_,hhi ▸ hfa,hfst'⟩
    rw [hlo,hhi]
    exact hends
  have htsnd : StartAfter t.lo snd := hlo ▸ hsa
  have hbef : EndBefore new r.lo := fun u hu => h.beforeFst u hu r (by simp)
  -- the part written is what `r` holds before `s` starts
  obtain ⟨hord,hend,hwr⟩ :
      Ordered (appendOrExtend new (prangeDiffWithRightResidual r s).1) ∧
        EndBefore (appendOrExtend new (prangeDiffWithRightResidual r s).1) t.lo ∧
        ∀ v, InRanges (appendOrExtend new (prangeDiffWithRightResidual r s).1) v ↔
          InRanges new v ∨ r.Holds v ∧ ¬ s.lo.Passed v := by
    rw [prangeDiffWithRightResidual,if_neg hleft,hlo]
    by_cases hcon : r.contains s
    · simp only [if_pos hcon]
      have hst := (CRange.contains_iff.mp hcon).1
      obtain ⟨hord,hend,hh⟩ := appendOrExtend_differenceLeft h.ordered hr hbef (hbef.mono hst)
      exact ⟨hord,hend.mono ((min_le_right _ _).trans hs.le),hh⟩
    · simp only [if_neg hcon,appendOrExtend]
      have hst : s.lo < r.lo := by
        rw [CRange.contains_iff,not_and_or,not_le,not_le] at hcon
        exact hcon.resolve_right hends.not_gt
      refine ⟨h.ordered,hbef.mono hmeet.le,fun v => (or_iff_left ?_).symm⟩
      rintro ⟨hrv,hnot⟩
      exact hnot (((r.holds_iff v).mp hrv).1.mono hst.le)
  refine ⟨t,by rw [prangeDiffWithRightResidual,if_neg hleft]; exact ht,htfst,htsnd,
    ⟨hord,fun u hu => htfst.startAfter.mono (hend u hu),fun u hu => htsnd.mono (hend u hu)⟩,
    fun v => ?_⟩
  have hpart : r.Holds v ∧ ¬ s.Holds v ↔ r.Holds v ∧ ¬ s.lo.Passed v ∨ t.Holds v := by
    simp only [holds_iff,Between,hlo,hhi]
    have hpa : s.hi.Passed v → r.lo.Passed v := fun h => h.mono hmeet.le
    grind
  have hea : ¬ s.lo.Passed v → ¬ InRanges snd v := fun hnot hin =>
    hnot ((hsa.mono hs.le).passed hin)
  have hbey : InRanges fst v → ¬ s.Holds v := fun hin hh =>
    ((s.holds_iff v).mp hh).2 ((hfa.mono hends.le).passed hin)
  simp only [Remains,hwr,inRanges_cons,not_or,or_and_right,← and_assoc,hpart]
  grind

end

theorem differenceRanges_spec (fst snd new : List (CRange α))
    (hfst : Ordered (pending residual fst)) (hsnd : Ordered snd)
    (hnew : Writing (pending residual fst) snd new)
    (hresi : ∀ r ∈ residual, StartAfter r.lo snd ∧ fst ≠ []) :
    Ordered (differenceRanges residual fst snd new) ∧
      ∀ v, InRanges (differenceRanges residual fst snd new) v ↔
        Remains (pending residual fst) snd new v := by
  fun_induction differenceRanges residual fst snd new with
  | case1 residual this fst other snd new prangeThis hends ih =>
    have hhi := fEndsWithOrAfter_iff.mp hends
    rw [pending_none] at ih
    obtain ⟨hord,hmem⟩ := ih (ordered_cons.mp hfst).2.2 hsnd (hnew.step hfst hsnd hhi).1 (by simp)
    exact ⟨hord,fun v => (hmem v).trans (remains_differenceLeft hfst hsnd hhi hnew)⟩
  | case2 residual this fst other snd new prangeThis hends split ih =>
    have hhi : other.hi < prangeThis.hi :=
      not_le.mp fun h => hends (fEndsWithOrAfter_iff.mpr h)
    obtain ⟨hoth,-,hsnd'⟩ := ordered_cons.mp hsnd
    by_cases hleft : other.hi ≤ prangeThis.lo
    · have hsp : split = (none, none) := by
        simp only [split,prangeDiffWithRightResidual]
        rw [if_pos (fDisjointLeft_iff.mpr hleft)]
      have hres : residual = none := by
        cases hres : residual with
        | none => rfl
        | some t =>
          have hlo : prangeThis.lo ≤ other.lo := by
            simpa [prangeThis,hres] using (hresi t hres).1 other (by simp)
          exact absurd (hleft.trans hlo) hoth.not_ge
      rw [hsp] at ih ⊢
      subst hres
      obtain ⟨hord,hmem⟩ := ih hfst hsnd'
        ⟨hnew.ordered,hnew.beforeFst,fun t ht u hu => hnew.beforeSnd t ht u (by simp [hu])⟩
        (by simp)
      exact ⟨hord,fun v => (hmem v).trans (remains_drop hfst hleft)⟩
    · obtain ⟨t,hres,hord,haft,hwr,hre⟩ :=
        prangeDiffWithRightResidual_spec hfst hsnd hhi (not_le.mp hleft) hnew
      have hpen : pending split.2 (this :: fst) = t :: fst := by
        simp only [split,pending,hres,prangeThis,Option.getD_some]
      rw [hpen] at ih
      obtain ⟨hord',hmem⟩ := ih hord hsnd' hwr fun u hu => by
        rw [show split.2 = some t from hres,Option.mem_some_iff] at hu
        exact ⟨hu ▸ haft,by simp⟩
      exact ⟨hord',fun v => (hmem v).trans (hre v)⟩
  | case3 fst snd new hnot =>
    rw [pending_none] at hfst hnew ⊢
    obtain ⟨hord,hmem⟩ := addRemainingRanges_spec fst new hfst hnew.ordered hnew.beforeFst
    refine ⟨hord,fun v => (hmem v).trans ?_⟩
    cases fst with
    | nil => simp [Remains]
    | cons this fst =>
      cases snd with
      | nil => simp [Remains]
      | cons other snd => exact absurd rfl (hnot this fst other snd rfl)
  | case4 fst snd new hnot residual =>
    obtain ⟨-,hne⟩ := hresi residual rfl
    obtain ⟨this,fst,rfl⟩ := exists_cons_of_ne_nil hne
    simp only [pending,Option.getD_some] at hfst hnew ⊢
    obtain ⟨hr,haft,hfst'⟩ := ordered_cons.mp hfst
    obtain ⟨hord,hend,hh⟩ := appendOrExtend_spec hnew.ordered hr
      fun t ht => hnew.beforeFst t ht residual (by simp)
    obtain ⟨hord',hmem⟩ := addRemainingRanges_spec fst _ hfst' hord
      fun t ht => haft.mono (hend t ht)
    refine ⟨hord',fun v => (hmem v).trans ?_⟩
    cases snd with
    | nil => simp [Remains,hh,or_assoc]
    | cons other snd => exact absurd rfl (hnot this fst other snd rfl)

def WellFormed (pci : CConstraintInterval α) : Prop := Ordered pci.pdrgprng

variable {this pci : CConstraintInterval α}

theorem WellFormed.pciIntersect (hthis : this.WellFormed) (hpci : pci.WellFormed) :
    (this.pciIntersect pci).WellFormed :=
  (intersectRanges_isCommon _ _ hthis hpci).ordered

theorem inRanges_pciIntersect (hthis : this.WellFormed) (hpci : pci.WellFormed) (v : α) :
    InRanges (this.pciIntersect pci).pdrgprng v ↔
      InRanges this.pdrgprng v ∧ InRanges pci.pdrgprng v :=
  (intersectRanges_isCommon _ _ hthis hpci).holds v

theorem writing_nil (fst snd : List (CRange α)) : Writing fst snd [] :=
  ⟨ordered_nil,by simp,by simp⟩

section

variable (hthis : this.WellFormed) (hpci : pci.WellFormed)

include hthis hpci

theorem WellFormed.pciUnion : (this.pciUnion pci).WellFormed :=
  (unionRanges_spec _ _ [] hthis hpci (writing_nil _ _)).1

theorem inRanges_pciUnion (v : α) :
    InRanges (this.pciUnion pci).pdrgprng v ↔
      InRanges this.pdrgprng v ∨ InRanges pci.pdrgprng v := by
  simpa [CConstraintInterval.pciUnion] using (unionRanges_spec _ _ [] hthis hpci (writing_nil _ _)).2 v

theorem pciDifference_spec : (this.pciDifference pci).WellFormed ∧
      ∀ v, InRanges (this.pciDifference pci).pdrgprng v ↔
        InRanges this.pdrgprng v ∧ ¬ InRanges pci.pdrgprng v := by
  have hwalk := differenceRanges_spec none this.pdrgprng pci.pdrgprng []
    (by rw [pending_none]; exact hthis) hpci (writing_nil _ _) (by simp)
  rw [pending_none] at hwalk
  exact ⟨hwalk.1,fun v => by simpa [pciDifference,Remains] using hwalk.2 v⟩

end

end CConstraintInterval

end PgOrca
