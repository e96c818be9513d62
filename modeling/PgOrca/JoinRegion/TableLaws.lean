import PgOrca.JoinRegion.Preservation
import PgOrca.Scalar.NullRejecting

/-!
# The reordering tables as laws of joins

For which predicates the exchanges that the tables accept keep the rows of all inputs. Next to outer
joins the predicates must not be TRUE on NULLs of the common input. `FNullRejecting` is asked about
this, but wrong about comparisons with arrays, and `FLeftAsscom` asks it about the wrong side of a
left outer join above a full join.
-/

namespace PgOrca

open CJoinRegionSpec Finset
open Row (null)

section

variable {P ν : Type*} [ScalarPredicate P] {meaning : PredicateMeaning P ν} {outer : Row ℕ ν}
  {atoms : List CAtom} {a b e : CEdge P} {n₁ n₂ n₃ : Finset ℕ} {X Y : Multiset (Row ℕ ν)}

/-- Three sets of inputs with columns of their own. -/
structure ThreeInputs (atoms : List CAtom) (n₁ n₂ n₃ : Finset ℕ) : Prop where
  disjoint₁₂ : Disjoint (pcrsNodes atoms n₁) (pcrsNodes atoms n₂)
  disjoint₁₃ : Disjoint (pcrsNodes atoms n₁) (pcrsNodes atoms n₃)
  disjoint₂₃ : Disjoint (pcrsNodes atoms n₂) (pcrsNodes atoms n₃)

namespace CEdge

def ReadsNone (atoms : List CAtom) (e : CEdge P) (nodes : Finset ℕ) : Prop :=
  Disjoint (ScalarPredicate.usedColumns e.predicate) (pcrsNodes atoms nodes)

instance (e : CEdge P) (nodes : Finset ℕ) : Decidable (e.ReadsNone atoms nodes) :=
  inferInstanceAs (Decidable (Disjoint _ _))

/-- The match condition of the join -/
def condition (meaning : PredicateMeaning P ν) (outer : Row ℕ ν) (e : CEdge P) : Row ℕ ν → Bool :=
  meaning.condition outer e.joinType [e.predicate]

def rows (meaning : PredicateMeaning P ν) (outer : Row ℕ ν) (e : CEdge P)
    (X Y : Multiset (Row ℕ ν)) : Multiset (Row ℕ ν) :=
  e.joinType.rows (e.condition meaning outer) X Y

/-- The predicate is TRUE for no row of `nodes` that stands beside NULLs. -/
def NotTrueBesideNull (meaning : PredicateMeaning P ν) (outer : Row ℕ ν) (atoms : List CAtom)
    (e : CEdge P) (nodes : Finset ℕ) : Prop :=
  ∀ r : Row ℕ ν, r.SupportedOn (pcrsNodes atoms nodes) →
    meaning.eval e.predicate (r.merge outer) ≠ some true

/-- Whether the predicates are TRUE depends on the columns of `center` alone, and both are TRUE
for the same values of them. -/
def TrueTogether (meaning : PredicateMeaning P ν) (outer : Row ℕ ν) (atoms : List CAtom)
    (a b : CEdge P) (center na nb : Finset ℕ) : Prop :=
  ∀ r ra rb : Row ℕ ν, r.SupportedOn (pcrsNodes atoms center) →
    ra.SupportedOn (pcrsNodes atoms na) → rb.SupportedOn (pcrsNodes atoms nb) →
    (meaning.eval a.predicate ((r.merge ra).merge outer) = some true ↔
      meaning.eval b.predicate ((r.merge rb).merge outer) = some true)

/-- What full joins of `center` with `na` and with `nb` need in order to change places. -/
def FullsExchangeable (meaning : PredicateMeaning P ν) (outer : Row ℕ ν) (atoms : List CAtom)
    (a b : CEdge P) (center na nb : Finset ℕ) : Prop :=
  b.NotTrueBesideNull meaning outer atoms nb ∧ a.NotTrueBesideNull meaning outer atoms na ∨
    TrueTogether meaning outer atoms a b center na nb

variable (meaning outer) in
theorem ReadsNone.ignores {nodes : Finset ℕ} (h : e.ReadsNone atoms nodes) :
    Ignores (e.condition meaning outer) (pcrsNodes atoms nodes) := by
  apply condition_ignores
  intro col hcol
  exact disjoint_left.mp h hcol

theorem rows_full (h : e.joinType = .fullOuter) : e.rows meaning outer X Y =
    fullJoin (e.condition meaning outer) X Y := by
  rw [rows,condition,h]
  rfl

theorem exists_rows_left (meaning : PredicateMeaning P ν) (outer : Row ℕ ν)
    (h : fCDCSupportedJoin e.joinType = true) (hfull : e.joinType ≠ .fullOuter) :
    ∃ k, ∀ X Y, e.rows meaning outer X Y =
      leftJoin k (e.condition meaning outer) X Y := by
  unfold rows condition
  cases hty : e.joinType with
  | fullOuter => exact absurd hty hfull
  | rightOuter =>
    rw [hty] at h
    cases h
  | inner | leftOuter | leftSemi | leftAntiSemi | leftAntiSemiNotIn => exact ⟨_,fun _ _ => rfl⟩

theorem rows_outer (h : e.joinType = .leftOuter) : e.rows meaning outer X Y =
    leftJoin .outer (e.condition meaning outer) X Y := by
  rw [rows,condition,h]
  rfl

theorem rows_inner (h : e.joinType = .inner) : e.rows meaning outer X Y =
    leftJoin .inner (e.condition meaning outer) X Y := by
  rw [rows,condition,h]
  rfl

theorem failsOn_iff (hty : e.joinType ≠ .leftAntiSemiNotIn) (nodes : Finset ℕ) :
    FailsOn (e.condition meaning outer) (pcrsNodes atoms nodes) ↔
      e.NotTrueBesideNull meaning outer atoms nodes :=
  forall₂_congr fun r _ => by rw [← Bool.not_eq_true,condition,condition_eq_true_iff hty]

/-- Where `FNullRejecting` is right about the predicate, its answer is what the laws need. -/
theorem notTrueBesideNull_of_fNullRejecting (e : CEdge P) {nodes side : Finset ℕ}
    (hout : OuterTo atoms outer)
    (hsound : meaning.NullRejectingSound e.predicate) (h : fNullRejecting atoms e side = true)
    (hd : Disjoint (pcrsNodes atoms nodes) (pcrsNodes atoms side)) :
    e.NotTrueBesideNull meaning outer atoms nodes := by
  intro r hr
  apply hsound _ h
  intro col hcol
  obtain ⟨node,_,hmem⟩ := mem_biUnion.mp hcol
  simp only [Row.merge,hr col (disjoint_right.mp hd hcol),hout node col hmem,Option.or_none]

theorem fullsExchange_condition_iff (h : ThreeInputs atoms n₁ n₂ n₃) (ha : a.joinType = .fullOuter)
    (hb : b.joinType = .fullOuter) (hra : a.ReadsNone atoms n₃) (hrb : b.ReadsNone atoms n₂) :
    FullsExchange (a.condition meaning outer)
        (b.condition meaning outer) (pcrsNodes atoms n₁)
        (pcrsNodes atoms n₂) (pcrsNodes atoms n₃) ↔
      FullsExchangeable meaning outer atoms a b n₁ n₂ n₃ := by
  have hna : a.joinType ≠ .leftAntiSemiNotIn := by rw [ha]; decide
  have hnb : b.joinType ≠ .leftAntiSemiNotIn := by rw [hb]; decide
  rw [fullsExchange_iff (disjoint_coe.mpr h.disjoint₁₂) (disjoint_coe.mpr h.disjoint₁₃)
    (disjoint_coe.mpr h.disjoint₂₃) (hrb.ignores meaning outer) (hra.ignores meaning outer),
    failsOn_iff hna,failsOn_iff hnb]
  refine or_congr_right (forall₅_congr fun r ra rb _ _ => forall_congr' fun _ => ?_)
  rw [Bool.eq_iff_iff,condition,condition,condition_eq_true_iff hna,condition_eq_true_iff hnb]

end CEdge

open CEdge

/-- When `(e₁ a e₂) b e₃` and `(e₁ b e₃) a e₂` are the same bag for all inputs, for a pair of joins
that `FLeftAsscom` accepts. -/
theorem fLeftAsscom_exchange_iff (h : ThreeInputs atoms n₁ n₂ n₃)
    (ha : fCDCSupportedJoin a.joinType = true) (hb : fCDCSupportedJoin b.joinType = true)
    (hra : a.ReadsNone atoms n₃) (hrb : b.ReadsNone atoms n₂)
    (htable : fLeftAsscom atoms a b = true) :
    (∀ E₁ E₂ E₃ : Multiset (Row ℕ ν), Over E₁ (pcrsNodes atoms n₁) → Over E₂ (pcrsNodes atoms n₂) →
        Over E₃ (pcrsNodes atoms n₃) →
        b.rows meaning outer (a.rows meaning outer E₁ E₂) E₃ =
          a.rows meaning outer (b.rows meaning outer E₁ E₃) E₂) ↔
      (a.joinType = .leftOuter → b.joinType = .fullOuter →
        a.NotTrueBesideNull meaning outer atoms n₂) ∧
      (a.joinType = .fullOuter → b.joinType = .leftOuter →
        b.NotTrueBesideNull meaning outer atoms n₃) ∧
      (a.joinType = .fullOuter → b.joinType = .fullOuter →
        FullsExchangeable meaning outer atoms a b n₁ n₂ n₃) := by
  have hd := disjoint_coe.mpr h.disjoint₂₃
  have hia := hra.ignores meaning outer
  have hib := hrb.ignores meaning outer
  by_cases haf : a.joinType = .fullOuter
  · by_cases hbf : b.joinType = .fullOuter
    · simp only [rows_full haf,rows_full hbf]
      simp only [haf,hbf,reduceCtorEq,false_imp_iff,true_imp_iff,true_and,imp_true_iff]
      exact fullsExchange_condition_iff h haf hbf hra hrb
    · have hbl : b.joinType = .leftOuter := by
        by_contra hne
        simp only [fLeftAsscom,haf,hbf,hne,reduceCtorEq,if_false,if_true] at htable
      simp only [rows_full haf,rows_outer hbl]
      rw [fullJoin_leftJoin_comm_iff hib hia hd,failsOn_iff (by rw [hbl]; decide)]
      simp only [haf,hbl,reduceCtorEq,false_imp_iff,true_imp_iff,true_and,and_true,imp_true_iff]
  · obtain ⟨k,hak⟩ := exists_rows_left meaning outer ha haf
    by_cases hbf : b.joinType = .fullOuter
    · have hal : a.joinType = .leftOuter := by
        by_contra hne
        simp only [fLeftAsscom,hne,haf,hbf,if_false,ne_eq,not_true_eq_false,decide_false] at htable
        cases htable
      simp only [rows_full hbf,rows_outer hal]
      simp only [hal,hbf,reduceCtorEq,false_imp_iff,true_imp_iff,and_true]
      rw [← failsOn_iff (by rw [hal]; decide),← fullJoin_leftJoin_comm_iff hia hib hd.symm]
      exact ⟨fun hall X Z Y hX hZ hY => (hall X Y Z hX hY hZ).symm,
        fun hall X Y Z hX hY hZ => (hall X Z Y hX hZ hY).symm⟩
    · obtain ⟨l,hbl⟩ := exists_rows_left meaning outer hb hbf
      simp only [hak,hbl]
      simp only [haf,hbf,false_imp_iff,imp_true_iff,and_true,iff_true]
      exact fun E₁ E₂ E₃ _ h₂ h₃ => leftJoin_comm h₂ h₃ hd hib hia

section

variable (h : ThreeInputs atoms n₁ n₂ n₃) (hb : fCDCSupportedJoin b.joinType = true)

include h

theorem ThreeInputs.swap₁₂ : ThreeInputs atoms n₂ n₁ n₃ :=
  ⟨h.disjoint₁₂.symm,h.disjoint₂₃,h.disjoint₁₃⟩

theorem ThreeInputs.rotate : ThreeInputs atoms n₃ n₁ n₂ :=
  ⟨h.disjoint₁₃.symm,h.disjoint₂₃.symm,h.disjoint₁₂⟩

theorem ThreeInputs.full_assoc_iff (haf : a.joinType = .fullOuter) (hbf : b.joinType = .fullOuter)
    (hra : a.ReadsNone atoms n₃) (hrb : b.ReadsNone atoms n₁) :
    (∀ E₁ E₂ E₃ : Multiset (Row ℕ ν), Over E₁ (pcrsNodes atoms n₁) →
        Over E₂ (pcrsNodes atoms n₂) → Over E₃ (pcrsNodes atoms n₃) →
        b.rows meaning outer (a.rows meaning outer E₁ E₂) E₃ =
          a.rows meaning outer E₁ (b.rows meaning outer E₂ E₃)) ↔
      FullsExchangeable meaning outer atoms a b n₂ n₁ n₃ := by
  simp only [rows_full haf,rows_full hbf]
  rw [← fullsExchange_condition_iff h.swap₁₂ haf hbf hra hrb]
  have hsw (X Y Z : Multiset (Row ℕ ν)) (hX : Over X (pcrsNodes atoms n₁))
      (hY : Over Y (pcrsNodes atoms n₂)) (hZ : Over Z (pcrsNodes atoms n₃)) :
      fullJoin (a.condition meaning outer) Y X = fullJoin (a.condition meaning outer) X Y ∧
        fullJoin (a.condition meaning outer) (fullJoin (b.condition meaning outer) Y Z) X =
          fullJoin (a.condition meaning outer) X (fullJoin (b.condition meaning outer) Y Z) :=
    ⟨fullJoin_swap hY hX (disjoint_coe.mpr h.disjoint₁₂.symm),
      fullJoin_swap (hY.fullJoin hZ) hX (Set.disjoint_union_left.mpr
        ⟨disjoint_coe.mpr h.disjoint₁₂.symm,disjoint_coe.mpr h.disjoint₁₃.symm⟩)⟩
  constructor
  · intro hall Y X Z hY hX hZ
    rw [(hsw X Y Z hX hY hZ).1,(hsw X Y Z hX hY hZ).2,hall X Y Z hX hY hZ]
  · intro hall X Y Z hX hY hZ
    rw [← (hsw X Y Z hX hY hZ).1,← (hsw X Y Z hX hY hZ).2,hall Y X Z hY hX hZ]

include hb

theorem ThreeInputs.assoc_exchange_iff (hra : a.ReadsNone atoms n₃) (hrb : b.ReadsNone atoms n₁)
    (htable : fAssociative atoms a b = true) :
    (∀ E₁ E₂ E₃ : Multiset (Row ℕ ν), Over E₁ (pcrsNodes atoms n₁) →
        Over E₂ (pcrsNodes atoms n₂) → Over E₃ (pcrsNodes atoms n₃) →
        b.rows meaning outer (a.rows meaning outer E₁ E₂) E₃ =
          a.rows meaning outer E₁ (b.rows meaning outer E₂ E₃)) ↔
      (a.joinType ≠ .inner → b.joinType = .leftOuter →
        b.NotTrueBesideNull meaning outer atoms n₃) ∧
      (a.joinType = .fullOuter → b.joinType = .fullOuter →
        FullsExchangeable meaning outer atoms a b n₂ n₁ n₃) := by
  have hia := hra.ignores meaning outer
  have hib := hrb.ignores meaning outer
  unfold fAssociative at htable
  split at htable
  case isTrue hty =>
    obtain ⟨hal | haf,hbl⟩ := hty
    · simp only [rows_outer hal,rows_outer hbl]
      simp only [hal,hbl,ne_eq,reduceCtorEq,not_false_eq_true,false_imp_iff,true_imp_iff,and_true]
      rw [← failsOn_iff (by rw [hbl]; decide),← leftJoin_outer_assoc_iff hib hia]
      exact ⟨fun hall X Y Z hX hY hZ => hall Y X Z hY hX hZ,
        fun hall X Y Z hX hY hZ => hall Y X Z hY hX hZ⟩
    · simp only [rows_full haf,rows_outer hbl]
      simp only [haf,hbl,ne_eq,reduceCtorEq,not_false_eq_true,false_imp_iff,true_imp_iff,and_true,
        imp_true_iff]
      rw [← failsOn_iff (by rw [hbl]; decide),
        ← fullJoin_outer_assoc_iff hib hia (disjoint_coe.mpr h.disjoint₁₃)]
      exact ⟨fun hall X Y Z hX hY hZ => hall Y X Z hY hX hZ,
        fun hall X Y Z hX hY hZ => hall Y X Z hY hX hZ⟩
  case isFalse =>
    split at htable
    case isTrue hty =>
      obtain ⟨haf,hbf⟩ := hty
      rw [h.full_assoc_iff haf hbf hra hrb]
      simp only [haf,hbf,ne_eq,reduceCtorEq,not_false_eq_true,false_imp_iff,true_imp_iff,true_and]
    case isFalse =>
      rw [Bool.and_eq_true,fInnerJoin,decide_eq_true_iff,decide_eq_true_iff] at htable
      obtain ⟨hai,hbf⟩ := htable
      obtain ⟨k,hbk⟩ := exists_rows_left meaning outer hb hbf
      simp only [rows_inner hai,hbk]
      simp only [hai,ne_eq,not_true_eq_false,reduceCtorEq,false_imp_iff,and_true,iff_true]
      exact fun E₁ E₂ E₃ h₁ _ h₃ => leftJoin_inner_assoc h₁ h₃ hib hia

omit hb in
theorem ThreeInputs.rightAsscom_exchange_iff (hra : a.ReadsNone atoms n₂)
    (hrb : b.ReadsNone atoms n₁) (htable : fRightAsscom atoms a b = true) :
    (∀ E₁ E₂ E₃ : Multiset (Row ℕ ν), Over E₁ (pcrsNodes atoms n₁) →
        Over E₂ (pcrsNodes atoms n₂) → Over E₃ (pcrsNodes atoms n₃) →
        a.rows meaning outer E₁ (b.rows meaning outer E₂ E₃) =
          b.rows meaning outer E₂ (a.rows meaning outer E₁ E₃)) ↔
      (a.joinType = .fullOuter → FullsExchangeable meaning outer atoms a b n₃ n₁ n₂) := by
  have hd₁₂ := disjoint_coe.mpr h.disjoint₁₂
  have hd₃₁ := disjoint_coe.mpr h.disjoint₁₃.symm
  have hd₃₂ := disjoint_coe.mpr h.disjoint₂₃.symm
  unfold fRightAsscom at htable
  split at htable
  case isTrue hty =>
    obtain ⟨haf,hbf⟩ := hty
    simp only [rows_full haf,rows_full hbf]
    simp only [haf,true_imp_iff]
    rw [← fullsExchange_condition_iff h.rotate haf hbf hra hrb]
    constructor
    · intro hall Z X Y hZ hX hY
      rw [← fullJoin_swap_nested hZ hX hY hd₃₁ hd₃₂ hd₁₂,
        ← fullJoin_swap_nested hZ hY hX hd₃₂ hd₃₁ hd₁₂.symm,hall X Y Z hX hY hZ]
    · intro hall X Y Z hX hY hZ
      rw [fullJoin_swap_nested hZ hX hY hd₃₁ hd₃₂ hd₁₂,
        fullJoin_swap_nested hZ hY hX hd₃₂ hd₃₁ hd₁₂.symm,hall Z X Y hZ hX hY]
  case isFalse =>
    rw [Bool.and_eq_true,fInnerJoin,fInnerJoin,decide_eq_true_iff,decide_eq_true_iff] at htable
    obtain ⟨hai,hbi⟩ := htable
    simp only [rows_inner hai,rows_inner hbi]
    simp only [hai,reduceCtorEq,false_imp_iff,iff_true]
    intro X Y Z hX hY hZ
    rw [leftJoin_inner_swap_nested hZ hY hX hd₃₂ hd₃₁ hd₁₂.symm,
      leftJoin_comm hY hX hd₁₂.symm (hra.ignores meaning outer) (hrb.ignores meaning outer),
      leftJoin_inner_swap_nested hZ hX hY hd₃₁ hd₃₂ hd₁₂]

end

/-- When `(e₁ a e₂) b e₃` and `e₁ a (e₂ b e₃)` are the same bag for all inputs, for a pair of joins
that `FAssociative` accepts, and `e₁ a (e₂ b e₃)` and `e₂ b (e₁ a e₃)` for one that `FRightAsscom`
accepts. -/
theorem fAssociative_fRightAsscom_exchange_iff (h : ThreeInputs atoms n₁ n₂ n₃)
    (hb : fCDCSupportedJoin b.joinType = true) :
    (fAssociative atoms a b = true → a.ReadsNone atoms n₃ → b.ReadsNone atoms n₁ →
      ((∀ E₁ E₂ E₃ : Multiset (Row ℕ ν), Over E₁ (pcrsNodes atoms n₁) →
          Over E₂ (pcrsNodes atoms n₂) → Over E₃ (pcrsNodes atoms n₃) →
          b.rows meaning outer (a.rows meaning outer E₁ E₂) E₃ =
            a.rows meaning outer E₁ (b.rows meaning outer E₂ E₃)) ↔
        (a.joinType ≠ .inner → b.joinType = .leftOuter →
          b.NotTrueBesideNull meaning outer atoms n₃) ∧
        (a.joinType = .fullOuter → b.joinType = .fullOuter →
          FullsExchangeable meaning outer atoms a b n₂ n₁ n₃))) ∧
    (fRightAsscom atoms a b = true → a.ReadsNone atoms n₂ → b.ReadsNone atoms n₁ →
      ((∀ E₁ E₂ E₃ : Multiset (Row ℕ ν), Over E₁ (pcrsNodes atoms n₁) →
          Over E₂ (pcrsNodes atoms n₂) → Over E₃ (pcrsNodes atoms n₃) →
          a.rows meaning outer E₁ (b.rows meaning outer E₂ E₃) =
            b.rows meaning outer E₂ (a.rows meaning outer E₁ E₃)) ↔
        (a.joinType = .fullOuter → FullsExchangeable meaning outer atoms a b n₃ n₁ n₂))) := by
  constructor
  · intro htable hra hrb
    exact h.assoc_exchange_iff hb hra hrb htable
  · intro htable hra hrb
    exact h.rightAsscom_exchange_iff hra hrb htable

end

namespace FullOuterChain

def fullEdge : CEdge OuterPredicate := ⟨.fullOuter, {0}, {1}, none, none, .equal 0 1, none, []⟩

def leftEdge (p : OuterPredicate) : CEdge OuterPredicate :=
  ⟨.leftOuter, {0, 1}, {2}, none, none, p, none, []⟩

def upperEdge : CEdge OuterPredicate := ⟨.fullOuter, {1}, {2}, none, none, .equal 1 2, none, []⟩

def outerEdge : CEdge OuterPredicate := ⟨.fullOuter, {0}, {2}, none, none, .equal 0 2, none, []⟩

theorem threeInputs : ThreeInputs atoms {0} {1} {2} := ⟨by decide,by decide,by decide⟩

theorem over_rows (node : ℕ) : Over (rows node) (pcrsNodes atoms {node}) := by
  rw [pcrsNodes,singleton_biUnion]
  exact (database rfl).within node

theorem notTrueBesideNull (e : CEdge OuterPredicate) (nodes side : Finset ℕ)
    (h : fNullRejecting atoms e side = true)
    (hd : Disjoint (pcrsNodes atoms nodes) (pcrsNodes atoms side)) :
    e.NotTrueBesideNull OuterPredicate.meaning null atoms nodes :=
  e.notTrueBesideNull_of_fNullRejecting (outerTo_null _) e.predicate.nullRejectingSound h hd

/-- With `p` over NULLs of `a` the exchange loses the partners of the unmatched row of `b`. -/
theorem nullAndEquals_not_exchanged :
    ThreeInputs atoms {0} {1} {2} ∧ (∀ node, Over (rows node) (pcrsNodes atoms {node})) ∧
      fCDCSupportedJoin fullEdge.joinType = true ∧
      fCDCSupportedJoin (leftEdge (.nullAndEquals 0 2 1)).joinType = true ∧
      fullEdge.left = {0} ∧ fullEdge.right = {1} ∧
      (leftEdge (.nullAndEquals 0 2 1)).left = {0} ∪ {1} ∧
      (leftEdge (.nullAndEquals 0 2 1)).right = {2} ∧
      fullEdge.ReadsNone atoms {2} ∧ (leftEdge (.nullAndEquals 0 2 1)).ReadsNone atoms {1} ∧
      fLeftAsscom atoms fullEdge (leftEdge (.nullAndEquals 0 2 1)) = true ∧
      (leftEdge (.nullAndEquals 0 2 1)).rows OuterPredicate.meaning null
          (fullEdge.rows OuterPredicate.meaning null (rows 0) (rows 1)) (rows 2) ≠
        fullEdge.rows OuterPredicate.meaning null
          ((leftEdge (.nullAndEquals 0 2 1)).rows OuterPredicate.meaning null (rows 0) (rows 2))
          (rows 1) := by
  refine ⟨threeInputs,over_rows,rfl,rfl,rfl,rfl,rfl,rfl,by decide,by decide,by decide,?_⟩
  intro heq
  have hcard := congrArg Multiset.card heq
  revert hcard
  decide +kernel

theorem equal_exchanged :
    (leftEdge (.equal 0 2)).rows OuterPredicate.meaning null
        (fullEdge.rows OuterPredicate.meaning null (rows 0) (rows 1)) (rows 2) =
      fullEdge.rows OuterPredicate.meaning null
        ((leftEdge (.equal 0 2)).rows OuterPredicate.meaning null (rows 0) (rows 2))
        (rows 1) := by
  refine (fLeftAsscom_exchange_iff threeInputs rfl rfl (by decide) (by decide) (by decide)).mpr
    ⟨?_,?_,?_⟩ _ _ _ (over_rows 0) (over_rows 1) (over_rows 2)
  · rintro ⟨⟩
  · rintro - -
    exact notTrueBesideNull _ {2} {0} (by decide) (by decide)
  · rintro - ⟨⟩

theorem full_joins_regrouped :
    upperEdge.rows OuterPredicate.meaning null
        (fullEdge.rows OuterPredicate.meaning null (rows 0) (rows 1)) (rows 2) =
      fullEdge.rows OuterPredicate.meaning null (rows 0)
        (upperEdge.rows OuterPredicate.meaning null (rows 1) (rows 2)) ∧
    outerEdge.rows OuterPredicate.meaning null (rows 0)
        (upperEdge.rows OuterPredicate.meaning null (rows 1) (rows 2)) =
      upperEdge.rows OuterPredicate.meaning null (rows 1)
        (outerEdge.rows OuterPredicate.meaning null (rows 0) (rows 2)) := by
  constructor
  · refine ((fAssociative_fRightAsscom_exchange_iff threeInputs rfl).1 (by decide) (by decide)
      (by decide)).mpr ⟨?_,?_⟩ _ _ _ (over_rows 0) (over_rows 1) (over_rows 2)
    · rintro - ⟨⟩
    · rintro - -
      exact .inl ⟨notTrueBesideNull _ {2} {1} (by decide) (by decide),
        notTrueBesideNull _ {0} {1} (by decide) (by decide)⟩
  · refine ((fAssociative_fRightAsscom_exchange_iff threeInputs rfl).2 (by decide) (by decide)
      (by decide)).mpr ?_ _ _ _ (over_rows 0) (over_rows 1) (over_rows 2)
    rintro -
    exact .inl ⟨notTrueBesideNull _ {1} {2} (by decide) (by decide),
      notTrueBesideNull _ {0} {2} (by decide) (by decide)⟩

end FullOuterChain

/-- `column <> ALL (array)`, which `FNullRejecting` takes to reject NULLs of the array as of the
column -/
structure NotInArray where
  column : ℕ
  array : ℕ

namespace NotInArray

open Unnesting (CDatum)
open Scalar.NotInEmptyArray (elements notEqual)

def pexpr (p : NotInArray) : Scalar.CExpression (List (Option ℤ)) :=
  .node (.scalarArrayCmp .earrcmpAll notEqual)
    [.node (.scalarIdent p.column) [], .node (.scalarIdent p.array) []]

instance : ScalarPredicate NotInArray where
  usedColumns p := {p.column, p.array}
  fNullRejecting p columns := Scalar.CPredicateUtils.fNullRejecting p.pexpr columns

def meaning : PredicateMeaning NotInArray (CDatum (List (Option ℤ))) where
  eval p row := CDatum.toBool (p.pexpr.value elements ⟨row, none⟩)
  eval_congr := by
    intro p r s h
    have hcolumn : r p.column = s p.column := h _ (mem_insert_self _ _)
    have harray : r p.array = s p.array := h _ (mem_insert_of_mem (mem_singleton_self _))
    simp only [pexpr,Scalar.CExpression.value,Scalar.CExpression.values,Scalar.CScalarOp.value,
      hcolumn,harray]

/-- `e₁ (x)`, `e₂ (y, ys)` and `e₃ (zs)` -/
def atoms : List CAtom := [⟨{0}, ∅⟩, ⟨{1, 2}, ∅⟩, ⟨{3}, ∅⟩]

def lower : CEdge NotInArray := ⟨.leftOuter, {0}, {1}, none, none, ⟨0, 2⟩, none, []⟩

def upper : CEdge NotInArray := ⟨.leftOuter, {0, 1}, {2}, none, none, ⟨1, 3⟩, none, []⟩

def value (column : ℕ) (datum : CDatum (List (Option ℤ))) : Row ℕ (CDatum (List (Option ℤ))) :=
  fun col => if col = column then some datum else none

theorem over_value {column : ℕ} {datum : CDatum (List (Option ℤ))} {nodes : Finset ℕ}
    (h : column ∈ pcrsNodes atoms nodes) :
    Over {value column datum} (pcrsNodes atoms nodes) := by
  refine over_singleton fun col hcol => if_neg ?_
  rintro rfl
  exact hcol h

/-- The unmatched row of `e₁` is joined with the empty array of `e₃` where `y` is NULL. -/
theorem emptyArray_not_associative :
    ThreeInputs atoms {0} {1} {2} ∧ Over {value 0 (.int 5)} (pcrsNodes atoms {0}) ∧
      Over (0 : Multiset (Row ℕ (CDatum (List (Option ℤ))))) (pcrsNodes atoms {1}) ∧
      Over {value 3 (.other [])} (pcrsNodes atoms {2}) ∧
      fCDCSupportedJoin lower.joinType = true ∧ fCDCSupportedJoin upper.joinType = true ∧
      lower.ReadsNone atoms {2} ∧ upper.ReadsNone atoms {0} ∧
      fAssociative atoms lower upper = true ∧
      upper.rows meaning null (lower.rows meaning null {value 0 (.int 5)} 0)
          {value 3 (.other [])} ≠
        lower.rows meaning null {value 0 (.int 5)}
          (upper.rows meaning null 0 {value 3 (.other [])}) := by
  refine ⟨⟨by decide,by decide,by decide⟩,over_value (by decide),nofun,over_value (by decide),rfl,
    rfl,by decide,by decide,by decide,?_⟩
  rw [CEdge.rows_outer rfl,CEdge.rows_outer rfl,CEdge.rows_outer rfl,CEdge.rows_outer rfl,
    leftJoin_outer_zero,leftJoin_outer_eq_zero.mpr rfl,leftJoin_outer_zero]
  have htrue : upper.condition meaning null
      ((value 0 (.int 5)).merge (value 3 (.other []))) = true := by decide
  simp only [leftJoin,partners,LeftKind.extensions,Multiset.singleton_bind,
    Multiset.filter_singleton,htrue,if_true,Multiset.card_singleton,one_ne_zero,if_false,
    Multiset.map_singleton,ne_eq,Multiset.singleton_inj]
  intro heq
  cases congrFun heq 3

end NotInArray

end PgOrca
