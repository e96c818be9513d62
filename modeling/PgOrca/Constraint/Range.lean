import PgOrca.Library.Cut

/-!
# Ranges of datums

The comparisons between ranges are stated on the cuts at their ends.
-/

namespace PgOrca

variable {α : Type*} [LinearOrder α]

inductive ERangeInclusion where
  | eriIncluded
  | eriExcluded
  deriving DecidableEq, Repr

open ERangeInclusion

def eriInverseInclusion : ERangeInclusion → ERangeInclusion
  | eriIncluded => eriExcluded
  | eriExcluded => eriIncluded

structure CRange (α : Type*) where
  pdatumLeft : Option α
  eriLeft : ERangeInclusion
  pdatumRight : Option α
  eriRight : ERangeInclusion
  deriving DecidableEq, Repr

namespace CRange

def Holds (r : CRange α) (v : α) : Prop :=
  (∀ a ∈ r.pdatumLeft, if r.eriLeft = eriIncluded then a ≤ v else a < v) ∧
    ∀ b ∈ r.pdatumRight, if r.eriRight = eriIncluded then v ≤ b else v < b

instance (r : CRange α) (v : α) : Decidable (r.Holds v) := by
  unfold Holds
  cases r.pdatumLeft <;> cases r.pdatumRight <;> simp only [Option.mem_def] <;> infer_instance

variable (this prange : CRange α)

def fDisjointLeft : Bool :=
  match this.pdatumRight, prange.pdatumLeft with
  | some right, some left =>
    if right < left then true
    else if right = left then
      this.eriRight = eriExcluded || prange.eriLeft = eriExcluded
    else false
  | _, _ => false

def fStartsBefore : Bool :=
  match prange.pdatumLeft, this.pdatumLeft with
  | none, left => left.isNone
  | some _, none => true
  | some theirs, some ours =>
    if ours < theirs then true
    else if theirs < ours then false
    else this.eriLeft = eriIncluded && prange.eriLeft = eriExcluded

def fEndsAfter : Bool :=
  match prange.pdatumRight, this.pdatumRight with
  | none, right => right.isNone
  | some _, none => true
  | some theirs, some ours =>
    if theirs < ours then true
    else if ours < theirs then false
    else this.eriRight = eriIncluded && prange.eriRight = eriExcluded

def fStartsWithOrBefore : Bool :=
  if this.fStartsBefore prange then true
  else
    match prange.pdatumLeft, this.pdatumLeft with
    | none, none => true
    | some theirs, some ours => ours = theirs && this.eriLeft = prange.eriLeft
    | _, _ => false

def fEndsWithOrAfter : Bool :=
  if this.fEndsAfter prange then true
  else
    match prange.pdatumRight, this.pdatumRight with
    | none, none => true
    | some theirs, some ours => ours = theirs && this.eriRight = prange.eriRight
    | _, _ => false

def contains : Bool :=
  this.fStartsWithOrBefore prange && this.fEndsWithOrAfter prange

def fOverlapsLeft : Bool :=
  this.fStartsBefore prange && !this.fEndsAfter prange && !this.fDisjointLeft prange

def fOverlapsRight : Bool :=
  this.fEndsAfter prange && !this.fStartsBefore prange && !prange.fDisjointLeft this

def prngIntersect : Option (CRange α) :=
  if this.contains prange then some prange
  else if prange.contains this then some this
  else if this.fOverlapsLeft prange then
    some ⟨prange.pdatumLeft, prange.eriLeft, this.pdatumRight, this.eriRight⟩
  else if this.fOverlapsRight prange then
    some ⟨this.pdatumLeft, this.eriLeft, prange.pdatumRight, prange.eriRight⟩
  else none

def prngDifferenceLeft : Option (CRange α) :=
  if this.fDisjointLeft prange then some this
  else if prange.pdatumLeft.isSome && this.fStartsBefore prange then
    some ⟨this.pdatumLeft, this.eriLeft, prange.pdatumLeft, eriInverseInclusion prange.eriLeft⟩
  else none

def prngDifferenceRight : Option (CRange α) :=
  if prange.fDisjointLeft this then some this
  else if prange.pdatumRight.isSome && this.fEndsAfter prange then
    some ⟨prange.pdatumRight, eriInverseInclusion prange.eriRight, this.pdatumRight, this.eriRight⟩
  else none

/-- The comparator is only reached with two datums: the given range starts
after this one, so neither of the two ends that meet is unbounded. -/
def prngExtend : Option (CRange α) :=
  match prange.pdatumLeft, this.pdatumRight with
  | some left, some right =>
    if (prange.eriLeft = eriIncluded ∨ this.eriRight = eriIncluded) ∧ left = right then
      some ⟨this.pdatumLeft, this.eriLeft, prange.pdatumRight, prange.eriRight⟩
    else none
  | _, _ => none

/-! ### The ends of a range as cuts -/

def cutLeft : Option α → ERangeInclusion → Cut α
  | none, _ => ⊥
  | some a, eriIncluded => Cut.below a
  | some a, eriExcluded => Cut.above a

def cutRight : Option α → ERangeInclusion → Cut α
  | none, _ => ⊤
  | some a, eriIncluded => Cut.above a
  | some a, eriExcluded => Cut.below a

def lo (r : CRange α) : Cut α := cutLeft r.pdatumLeft r.eriLeft

def hi (r : CRange α) : Cut α := cutRight r.pdatumRight r.eriRight

theorem holds_iff (r : CRange α) (v : α) : r.Holds v ↔ Between r.lo r.hi v := by
  obtain ⟨left,eriLeft,right,eriRight⟩ := r
  unfold Holds Between lo hi
  cases left <;> cases right <;> cases eriLeft <;> cases eriRight <;>
    simp [cutLeft,cutRight]

theorem cutLeft_lt_top (left : Option α) (eri : ERangeInclusion) : cutLeft left eri < ⊤ := by
  cases left <;> cases eri <;> simp [cutLeft]

theorem bot_lt_cutRight (right : Option α) (eri : ERangeInclusion) : ⊥ < cutRight right eri := by
  cases right <;> cases eri <;> simp [cutRight]

omit [LinearOrder α] in
theorem cutRight_inverse (a : α) (eri : ERangeInclusion) :
    cutRight (some a) (eriInverseInclusion eri) = cutLeft (some a) eri := by
  cases eri <;> rfl

omit [LinearOrder α] in
theorem cutLeft_inverse (a : α) (eri : ERangeInclusion) :
    cutLeft (some a) (eriInverseInclusion eri) = cutRight (some a) eri := by
  cases eri <;> rfl

variable {r s t : CRange α}

theorem fDisjointLeft_iff : r.fDisjointLeft s ↔ r.hi ≤ s.lo := by
  obtain ⟨_,_,right,eriRight⟩ := r
  obtain ⟨left,eriLeft,_,_⟩ := s
  cases right with
  | none => simp [fDisjointLeft,lo,hi,cutRight,(cutLeft_lt_top _ _).ne]
  | some b =>
    cases left with
    | none => cases eriRight <;> simp [fDisjointLeft,lo,hi,cutRight,cutLeft]
    | some a =>
      rcases lt_trichotomy b a with h | rfl | h <;> cases eriRight <;> cases eriLeft <;>
        simp [fDisjointLeft,lo,hi,cutRight,cutLeft, *,le_of_lt,not_lt_of_gt,ne_of_gt]

theorem fStartsBefore_iff : r.fStartsBefore s ↔ r.lo < s.lo ∨ r.lo = ⊥ ∧ s.lo = ⊥ := by
  obtain ⟨ours,oursEri,_,_⟩ := r
  obtain ⟨theirs,theirsEri,_,_⟩ := s
  cases theirs with
  | none =>
    cases ours with
    | none => simp [fStartsBefore,lo,cutLeft]
    | some a => cases oursEri <;> simp [fStartsBefore,lo,cutLeft]
  | some b =>
    cases ours with
    | none => cases theirsEri <;> simp [fStartsBefore,lo,cutLeft]
    | some a =>
      rcases lt_trichotomy a b with h | rfl | h <;> cases oursEri <;> cases theirsEri <;>
        simp [fStartsBefore,lo,cutLeft, *,le_of_lt,not_lt_of_gt]

theorem fEndsAfter_iff : r.fEndsAfter s ↔ s.hi < r.hi ∨ r.hi = ⊤ ∧ s.hi = ⊤ := by
  obtain ⟨_,_,ours,oursEri⟩ := r
  obtain ⟨_,_,theirs,theirsEri⟩ := s
  cases theirs with
  | none =>
    cases ours with
    | none => simp [fEndsAfter,hi,cutRight]
    | some a => cases oursEri <;> simp [fEndsAfter,hi,cutRight,ne_of_lt]
  | some b =>
    cases ours with
    | none => cases theirsEri <;> simp [fEndsAfter,hi,cutRight]
    | some a =>
      rcases lt_trichotomy a b with h | rfl | h <;> cases oursEri <;> cases theirsEri <;>
        simp [fEndsAfter,hi,cutRight, *,le_of_lt,not_lt_of_gt,ne_of_lt]

variable {e f : ERangeInclusion}

theorem cutLeft_injective {a b : α}
    (h : cutLeft (some a) e = cutLeft (some b) f) : a = b ∧ e = f := by
  have hle := h.le
  have hge := h.ge
  cases e <;> cases f <;> simp only [cutLeft,Cut.below_le_below,Cut.above_le_above,
    Cut.below_le_above,Cut.above_le_below] at hle hge
  · exact ⟨hle.antisymm hge,rfl⟩
  · exact absurd hge hle.not_gt
  · exact absurd hle hge.not_gt
  · exact ⟨hle.antisymm hge,rfl⟩

theorem fStartsWithOrBefore_iff : r.fStartsWithOrBefore s ↔ r.lo ≤ s.lo := by
  unfold fStartsWithOrBefore
  by_cases hbef : r.fStartsBefore s
  · rw [if_pos hbef]
    rcases fStartsBefore_iff.mp hbef with h | h
    · simp [h.le]
    · simp [h.1]
  · rw [if_neg hbef]
    have hge : s.lo ≤ r.lo := not_lt.mp fun h => hbef (fStartsBefore_iff.mpr (.inl h))
    obtain ⟨ours,oursEri,_,_⟩ := r
    obtain ⟨theirs,theirsEri,_,_⟩ := s
    cases theirs <;> cases ours
    · simp [lo,cutLeft]
    · cases oursEri <;> simp [lo,cutLeft]
    · simp [fStartsBefore] at hbef
    · simp only [lo] at hge ⊢
      constructor
      · intro h
        simp only [Bool.and_eq_true,decide_eq_true_eq] at h
        rw [h.1,h.2]
      · intro h
        obtain ⟨rfl,rfl⟩ := cutLeft_injective (h.antisymm hge)
        simp

theorem cutRight_injective {a b : α}
    (h : cutRight (some a) e = cutRight (some b) f) : a = b ∧ e = f := by
  rw [← cutLeft_inverse,← cutLeft_inverse] at h
  obtain ⟨hab,hef⟩ := cutLeft_injective h
  refine ⟨hab,?_⟩
  cases e <;> cases f <;> simp_all [eriInverseInclusion]

theorem fEndsWithOrAfter_iff : r.fEndsWithOrAfter s ↔ s.hi ≤ r.hi := by
  unfold fEndsWithOrAfter
  by_cases haft : r.fEndsAfter s
  · rw [if_pos haft]
    rcases fEndsAfter_iff.mp haft with h | h
    · simp [h.le]
    · simp [h.1]
  · rw [if_neg haft]
    have hge : r.hi ≤ s.hi := not_lt.mp fun h => haft (fEndsAfter_iff.mpr (.inl h))
    obtain ⟨_,_,ours,oursEri⟩ := r
    obtain ⟨_,_,theirs,theirsEri⟩ := s
    cases theirs <;> cases ours
    · simp [hi,cutRight]
    · cases oursEri <;> simp [hi,cutRight,ne_of_lt]
    · simp [fEndsAfter] at haft
    · simp only [hi] at hge ⊢
      constructor
      · intro h
        simp only [Bool.and_eq_true,decide_eq_true_eq] at h
        rw [h.1,h.2]
      · intro h
        obtain ⟨rfl,rfl⟩ := cutRight_injective (hge.antisymm h)
        simp

theorem contains_iff : r.contains s ↔ r.lo ≤ s.lo ∧ s.hi ≤ r.hi := by
  rw [contains,Bool.and_eq_true,fStartsWithOrBefore_iff,fEndsWithOrAfter_iff]

theorem fOverlapsLeft_iff (h : ¬ r.contains s) (h' : ¬ s.contains r) :
    r.fOverlapsLeft s ↔ r.lo < s.lo ∧ r.hi < s.hi ∧ s.lo < r.hi := by
  simp only [contains_iff,not_and_or,not_le] at h h'
  simp only [fOverlapsLeft,Bool.and_eq_true,Bool.not_eq_true',← Bool.not_eq_true,
    fStartsBefore_iff,fEndsAfter_iff,fDisjointLeft_iff,not_or,not_lt,not_and,not_le]
  constructor
  · rintro ⟨⟨hlo | hlo,hhi,-⟩,hmeet⟩
    · exact ⟨hlo,h.resolve_left hlo.not_gt,hmeet⟩
    · rw [hlo.1,hlo.2] at h h'
      exact absurd (h.resolve_left (lt_irrefl _)) (h'.resolve_left (lt_irrefl _)).not_gt
  · rintro ⟨hlo,hhi,hmeet⟩
    exact ⟨⟨.inl hlo,hhi.le,fun htop => absurd (htop ▸ hhi) not_top_lt⟩,hmeet⟩

theorem fOverlapsRight_iff (h : ¬ r.contains s) (h' : ¬ s.contains r) :
    r.fOverlapsRight s ↔ s.lo < r.lo ∧ s.hi < r.hi ∧ r.lo < s.hi := by
  simp only [contains_iff,not_and_or,not_le] at h h'
  simp only [fOverlapsRight,Bool.and_eq_true,Bool.not_eq_true',← Bool.not_eq_true,
    fStartsBefore_iff,fEndsAfter_iff,fDisjointLeft_iff,not_or,not_lt,not_and,not_le]
  constructor
  · rintro ⟨⟨hhi | hhi,hlo,-⟩,hmeet⟩
    · exact ⟨h.resolve_right hhi.not_gt,hhi,hmeet⟩
    · rw [hhi.1,hhi.2] at h h'
      exact absurd (h.resolve_right (lt_irrefl _)) (h'.resolve_right (lt_irrefl _)).not_gt
  · rintro ⟨hlo,hhi,hmeet⟩
    exact ⟨⟨.inl hhi,hlo.le,fun hbot => absurd (hbot ▸ hlo) not_lt_bot⟩,hmeet⟩

theorem prngIntersect_some (hr : r.lo < r.hi) (hs : s.lo < s.hi) (h : r.prngIntersect s = some t) :
    t.lo = max r.lo s.lo ∧ t.hi = min r.hi s.hi ∧ t.lo < t.hi := by
  unfold prngIntersect at h
  split_ifs at h with hrs hsr hleft hrt
  · obtain ⟨hlo,hhi⟩ := contains_iff.mp hrs
    cases h
    exact ⟨(max_eq_right hlo).symm,(min_eq_right hhi).symm,hs⟩
  · obtain ⟨hlo,hhi⟩ := contains_iff.mp hsr
    cases h
    exact ⟨(max_eq_left hlo).symm,(min_eq_left hhi).symm,hr⟩
  · obtain ⟨hlo,hhi,hmeet⟩ := (fOverlapsLeft_iff hrs hsr).mp hleft
    cases h
    exact ⟨(max_eq_right hlo.le).symm,(min_eq_left hhi.le).symm,hmeet⟩
  · obtain ⟨hlo,hhi,hmeet⟩ := (fOverlapsRight_iff hrs hsr).mp hrt
    cases h
    exact ⟨(max_eq_left hlo.le).symm,(min_eq_right hhi.le).symm,hmeet⟩

theorem prngIntersect_none (h : r.prngIntersect s = none) : min r.hi s.hi ≤ max r.lo s.lo := by
  unfold prngIntersect at h
  split_ifs at h with hrs hsr hleft hr
  rw [fOverlapsLeft_iff hrs hsr] at hleft
  rw [fOverlapsRight_iff hrs hsr] at hr
  simp only [contains_iff,not_and_or,not_le] at hrs hsr hleft hr
  rw [min_le_iff,le_max_iff,le_max_iff]
  rcases lt_trichotomy r.lo s.lo with hlo | hlo | hlo
  · have hhi := hrs.resolve_left hlo.not_gt
    have hmeet := (hleft.resolve_left (not_not.mpr hlo)).resolve_left (not_not.mpr hhi)
    exact .inl (.inr (not_lt.mp hmeet))
  · rw [hlo] at hrs hsr
    exact absurd (hrs.resolve_left (lt_irrefl _)) (hsr.resolve_left (lt_irrefl _)).not_gt
  · have hhi := hsr.resolve_left hlo.not_gt
    have hmeet := (hr.resolve_left (not_not.mpr hlo)).resolve_left (not_not.mpr hhi)
    exact .inr (.inl (not_lt.mp hmeet))

theorem prngDifferenceLeft_some (hr : r.lo < r.hi) (h : r.prngDifferenceLeft s = some t) :
    t.lo = r.lo ∧ t.hi = min r.hi s.lo ∧ r.lo < s.lo := by
  unfold prngDifferenceLeft at h
  split_ifs at h with hleft hst
  · have hle := fDisjointLeft_iff.mp hleft
    cases h
    exact ⟨rfl,(min_eq_left hle).symm,hr.trans_le hle⟩
  · rw [fDisjointLeft_iff,not_le] at hleft
    rw [Bool.and_eq_true,fStartsBefore_iff] at hst
    obtain ⟨hsome,hbef⟩ := hst
    obtain ⟨a,ha⟩ := Option.isSome_iff_exists.mp hsome
    have hcut : t.hi = s.lo := by
      cases h
      simp only [hi,lo,ha]
      exact cutRight_inverse a s.eriLeft
    have hbot : s.lo ≠ ⊥ := by
      simp only [lo,ha]
      cases s.eriLeft <;> simp [cutLeft]
    refine ⟨?_,?_,hbef.resolve_right fun hboth => hbot hboth.2⟩
    · cases h
      rfl
    · rw [hcut,min_eq_right hleft.le]

theorem prngDifferenceLeft_none (h : r.prngDifferenceLeft s = none) : s.lo ≤ r.lo := by
  unfold prngDifferenceLeft at h
  split_ifs at h with hleft hst
  rw [Bool.and_eq_true,fStartsBefore_iff,not_and_or] at hst
  rcases hst with hnone | hbef
  · have : s.lo = ⊥ := by
      simp only [lo]
      rw [Option.not_isSome_iff_eq_none.mp hnone]
      rfl
    exact this ▸ bot_le
  · exact not_lt.mp fun hlt => hbef (.inl hlt)

theorem prngDifferenceRight_of_lt (hmeet : r.lo < s.hi) (hhi : s.hi < r.hi) :
    ∃ t, r.prngDifferenceRight s = some t ∧ t.lo = s.hi ∧ t.hi = r.hi := by
  have hleft : ¬ s.fDisjointLeft r := fun h => absurd (fDisjointLeft_iff.mp h) hmeet.not_ge
  obtain ⟨b,hb⟩ : ∃ b, s.pdatumRight = some b := by
    cases hr : s.pdatumRight with
    | none =>
      have htop : s.hi = ⊤ := by simp only [hi,hr,cutRight]
      exact absurd (htop ▸ hhi) not_top_lt
    | some b => exact ⟨b,rfl⟩
  have hend : (s.pdatumRight.isSome && r.fEndsAfter s) = true := by
    rw [hb,Option.isSome_some,Bool.true_and]
    exact fEndsAfter_iff.mpr (.inl hhi)
  refine ⟨⟨s.pdatumRight,eriInverseInclusion s.eriRight,r.pdatumRight,r.eriRight⟩,?_,?_,rfl⟩
  · rw [prngDifferenceRight,if_neg hleft,if_pos hend]
  simp only [lo,hi,hb]
  exact cutLeft_inverse b s.eriRight

theorem prngExtend_some (hrs : r.hi ≤ s.lo) (h : r.prngExtend s = some t) :
    r.hi = s.lo ∧ t.lo = r.lo ∧ t.hi = s.hi := by
  unfold prngExtend at h
  split at h
  · rename_i left right hleft hrt
    split_ifs at h with hmeet
    obtain ⟨hinc,rfl⟩ := hmeet
    cases h
    refine ⟨?_,rfl,rfl⟩
    simp only [hi,lo,hleft,hrt] at hrs ⊢
    cases hr : r.eriRight <;> cases hs : s.eriLeft <;>
      simp [cutLeft,cutRight,hr,hs] at hrs hinc ⊢
  · cases h

end CRange

end PgOrca
