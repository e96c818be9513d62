import PgOrca.JoinRegion.Semantics

/-!
# The reordering tables

The tables are sound except for a full join below a left outer join: `FLeftAsscom` asks whether the
outer predicate rejects NULLs on its right input, where the law needs this of its left input.
-/

namespace PgOrca

open CJoinRegionSpec
open JoinType (kind isMatch)

variable {P ν : Type*} [ScalarPredicate P] {meaning : PredicateMeaning P ν} {outer : Row ℕ ν}
  {atoms : List CAtom} {c e : CEdge P}

/-- The outer references carry no value for a column of the region. -/
def OuterTo (atoms : List CAtom) (outer : Row ℕ ν) : Prop :=
  ∀ node, ∀ col ∈ outputColumns atoms node, outer col = none

def CEdge.joinOp (meaning : PredicateMeaning P ν) (outer : Row ℕ ν) (atoms : List CAtom)
    (edge : CEdge P) : JoinOp ℕ ν :=
  ⟨edge.joinType.kind,meaning.condition outer edge.joinType [edge.predicate],
    pcrsNodes atoms edge.left,pcrsNodes atoms edge.right⟩

variable {joinType : JoinType}

theorem condition_eq_true_iff (hty : joinType ≠ .leftAntiSemiNotIn) {p : P} {r : Row ℕ ν} :
    meaning.condition outer joinType [p] r = true ↔ meaning.eval p (r.merge outer) = some true := by
  rw [PredicateMeaning.condition,PredicateMeaning.evalConjunction_singleton,isMatch,
    if_neg hty,decide_eq_true_iff]

theorem rejects_of_not_true {nodes : Finset ℕ} (houter : OuterTo atoms outer)
    (hty : e.joinType ≠ .leftAntiSemiNotIn)
    (h : ∀ r, (∀ col ∈ pcrsNodes atoms nodes, r col = none) →
      meaning.eval e.predicate r ≠ some true) :
    (e.joinOp meaning outer atoms).Rejects (pcrsNodes atoms nodes) := by
  intro r hr
  rw [← Bool.not_eq_true]
  intro htrue
  apply h (r.merge outer) _ ((condition_eq_true_iff hty).mp htrue)
  intro col hcol
  obtain ⟨node,_,hout⟩ := Finset.mem_biUnion.mp hcol
  simp only [Row.merge,hr col hcol,houter node col hout,Option.or_none]

theorem rejects_of_fNullRejecting {nodes : Finset ℕ} (hout : OuterTo atoms outer)
    (hsound : meaning.NullRejectingSound e.predicate) (hty : e.joinType ≠ .leftAntiSemiNotIn)
    (h : fNullRejecting atoms e nodes = true) :
    (e.joinOp meaning outer atoms).Rejects (pcrsNodes atoms nodes) :=
  rejects_of_not_true hout hty (hsound _ h)

theorem rows_joinOp (h : fCDCSupportedJoin e.joinType = true) (X Y : Multiset (Row ℕ ν)) :
    (e.joinOp meaning outer atoms).rows X Y =
      e.joinType.rows (meaning.condition outer e.joinType [e.predicate]) X Y := by
  unfold JoinOp.rows CEdge.joinOp
  cases hty : e.joinType with
  | rightOuter =>
    rw [hty] at h
    cases h
  | _ => rfl

private theorem kind_joinOp (e : CEdge P) :
    (e.joinOp meaning outer atoms).kind = e.joinType.kind := rfl

private theorem exists_kind_left (h : fCDCSupportedJoin joinType = true)
    (hfull : joinType ≠ .fullOuter) : ∃ k, joinType.kind = .left k := by
  cases joinType with
  | fullOuter => exact absurd rfl hfull
  | rightOuter => cases h
  | inner | leftOuter | leftSemi | leftAntiSemi | leftAntiSemiNotIn => exact ⟨_,rfl⟩

section

variable (hout : OuterTo atoms outer) (hsc : meaning.NullRejectingSound c.predicate)
  (hse : meaning.NullRejectingSound e.predicate)

include hout hsc hse

theorem assoc_of_fAssociative
    (he : fCDCSupportedJoin e.joinType = true) (h : fAssociative atoms c e = true) :
    (c.joinOp meaning outer atoms).Assoc (e.joinOp meaning outer atoms) := by
  unfold fAssociative at h
  split at h
  case isTrue hty =>
    have hrej : (e.joinOp meaning outer atoms).RejectsLeft :=
      rejects_of_fNullRejecting hout hse (by rw [hty.2]; decide) h
    rcases hty with ⟨hc | hc,hel⟩
    all_goals
      unfold JoinOp.Assoc
      simp only [kind_joinOp,hc,hel,kind]
      exact hrej
  case isFalse =>
    split at h
    case isTrue hty =>
      rw [Bool.and_eq_true] at h
      unfold JoinOp.Assoc
      simp only [kind_joinOp,hty.1,hty.2,kind]
      exact ⟨rejects_of_fNullRejecting hout hsc (by rw [hty.1]; decide) h.1,
        rejects_of_fNullRejecting hout hse (by rw [hty.2]; decide) h.2⟩
    case isFalse =>
      rw [Bool.and_eq_true,fInnerJoin,decide_eq_true_iff,decide_eq_true_iff] at h
      obtain ⟨k,hk⟩ := exists_kind_left he h.2
      have hc : c.joinType.kind = .left .inner := by rw [h.1]; rfl
      unfold JoinOp.Assoc
      simp only [kind_joinOp,hc,hk]

theorem rightAsscom_of_fRightAsscom
    (h : fRightAsscom atoms e c = true) :
    (e.joinOp meaning outer atoms).RightAsscom (c.joinOp meaning outer atoms) := by
  unfold fRightAsscom at h
  unfold JoinOp.RightAsscom
  split at h
  case isTrue hty =>
    rw [Bool.and_eq_true] at h
    simp only [kind_joinOp,hty.1,hty.2,kind]
    exact ⟨rejects_of_fNullRejecting hout hse (by rw [hty.1]; decide) h.1,
      rejects_of_fNullRejecting hout hsc (by rw [hty.2]; decide) h.2⟩
  case isFalse =>
    rw [Bool.and_eq_true,fInnerJoin,fInnerJoin,decide_eq_true_iff,decide_eq_true_iff] at h
    simp only [kind_joinOp,h.1,h.2,kind]

/-- The table is sound except where a full join lies below a left outer join; there the
outer predicate has to reject NULLs on its left input. -/
theorem leftAsscom_of_fLeftAsscom
    (hc : fCDCSupportedJoin c.joinType = true) (he : fCDCSupportedJoin e.joinType = true)
    (hsafe : c.joinType = .fullOuter → e.joinType = .leftOuter →
      fNullRejecting atoms e e.right = true → (e.joinOp meaning outer atoms).RejectsLeft)
    (h : fLeftAsscom atoms c e = true) :
    (c.joinOp meaning outer atoms).LeftAsscom (e.joinOp meaning outer atoms) := by
  unfold JoinOp.LeftAsscom
  by_cases hcf : c.joinType = .fullOuter
  · by_cases hel : e.joinType = .leftOuter
    · simp only [fLeftAsscom,hcf,hel,reduceCtorEq,if_false,if_true] at h
      simp only [kind_joinOp,hcf,hel,kind]
      exact hsafe hcf hel h
    · by_cases hef : e.joinType = .fullOuter
      · simp only [fLeftAsscom,hcf,hef,reduceCtorEq,if_false,if_true,Bool.and_eq_true] at h
        simp only [kind_joinOp,hcf,hef,kind]
        exact ⟨rejects_of_fNullRejecting hout hsc (by rw [hcf]; decide) h.1,
          rejects_of_fNullRejecting hout hse (by rw [hef]; decide) h.2⟩
      · simp only [fLeftAsscom,hcf,hel,hef,reduceCtorEq,if_false,if_true] at h
  · obtain ⟨kc,hkc⟩ := exists_kind_left hc hcf
    by_cases hef : e.joinType = .fullOuter
    · -- next to a full join only a left outer join can move
      have hcl : c.joinType = .leftOuter := by
        by_contra hne
        simp only [fLeftAsscom,hne,hcf,hef,if_false,ne_eq,not_true_eq_false,decide_false] at h
        cases h
      simp only [fLeftAsscom,hcl,hef,if_true,ne_eq,not_true_eq_false,decide_false,
        Bool.false_or] at h
      simp only [kind_joinOp,hcl,hef,kind]
      exact rejects_of_fNullRejecting hout hsc (by rw [hcl]; decide) h
    · obtain ⟨ke,hke⟩ := exists_kind_left he hef
      simp only [kind_joinOp,hkc,hke]

end

end PgOrca
