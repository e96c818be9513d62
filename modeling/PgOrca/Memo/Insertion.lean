import PgOrca.Memo.Reachable

/-!
# Insertion of alternatives

The guard follows the expressions of duplicate masters. A group that is only linked keeps its
expressions until groups are merged, and a path through them is not found.
-/

namespace PgOrca.Search

namespace CExpression

variable {α : Type*}

mutual

def BoundBelow (n : ℕ) : CExpression α → Prop
  | bound pgroup => pgroup < n
  | node _ children => AllBoundBelow n children

def AllBoundBelow (n : ℕ) : List (CExpression α) → Prop
  | [] => True
  | child :: children => child.BoundBelow n ∧ AllBoundBelow n children

end

mutual

theorem BoundBelow.mono {m n : ℕ} (hmn : m ≤ n) :
    ∀ {t : CExpression α}, t.BoundBelow m → t.BoundBelow n
  | bound _, h => Nat.lt_of_lt_of_le h hmn
  | node _ _, h => AllBoundBelow.mono hmn h

theorem AllBoundBelow.mono {m n : ℕ} (hmn : m ≤ n) :
    ∀ {ts : List (CExpression α)}, AllBoundBelow m ts → AllBoundBelow n ts
  | [], h => h
  | _ :: _, h => ⟨h.1.mono hmn,AllBoundBelow.mono hmn h.2⟩

end

end CExpression

namespace CEngine

variable {α : Type*} [COperator α]

open CMemo

mutual

theorem pgroupInsert_none {M : CMemo α} (hM : M.Valid) (hac : Acyclic M.Edge) (fDSL : Bool) :
    ∀ {t : CExpression α}, t.BoundBelow M.aul →
      (pgroupInsert M none fDSL t).1.Valid ∧ Acyclic (pgroupInsert M none fDSL t).1.Edge ∧
        M.aul ≤ (pgroupInsert M none fDSL t).1.aul ∧
        (pgroupInsert M none fDSL t).2 < (pgroupInsert M none fDSL t).1.aul
  | .bound _, h => by
    rw [pgroupInsert]
    exact ⟨hM,hac,le_rfl,h⟩
  | .node pop children, h => by
    obtain ⟨hM₁,hac₁,hle,hgs⟩ := insertExpressionChildren_spec hM hac fDSL h
    rw [pgroupInsert,insertRoot]
    have hnone : ∀ t ∈ (none : Option ℕ), t < (insertExpressionChildren M fDSL children).1.aul :=
      nofun
    obtain ⟨hM₂,hle₂,hlt⟩ := hM₁.pgroupInsert hnone pop hgs fDSL
    exact ⟨hM₂,acyclic_pgroupInsert_none hM₁ hac₁ pop hgs fDSL,hle.trans hle₂,hlt⟩

theorem insertExpressionChildren_spec {M : CMemo α} (hM : M.Valid) (hac : Acyclic M.Edge)
    (fDSL : Bool) : ∀ {ts : List (CExpression α)}, CExpression.AllBoundBelow M.aul ts →
      (insertExpressionChildren M fDSL ts).1.Valid ∧
        Acyclic (insertExpressionChildren M fDSL ts).1.Edge ∧
        M.aul ≤ (insertExpressionChildren M fDSL ts).1.aul ∧
        ∀ c ∈ (insertExpressionChildren M fDSL ts).2,
          c < (insertExpressionChildren M fDSL ts).1.aul
  | [], _ => by
    rw [insertExpressionChildren]
    exact ⟨hM,hac,le_rfl,by nofun⟩
  | child :: children, h => by
    obtain ⟨hM₁,hac₁,hle₁,hlt⟩ := pgroupInsert_none hM hac fDSL h.1
    obtain ⟨hM₂,hac₂,hle₂,hgs⟩ :=
      insertExpressionChildren_spec hM₁ hac₁ fDSL (h.2.mono hle₁)
    rw [insertExpressionChildren]
    refine ⟨hM₂,hac₂,hle₁.trans hle₂,fun c hc => ?_⟩
    rcases List.mem_cons.mp hc with rfl | hc
    · exact hlt.trans_le hle₂
    · exact hgs c hc

end

/-- When the root is new and one of its inputs leads back to the target, one does so along the
logical expressions of duplicate masters. -/
def BackPathSeen (M : CMemo α) (target : ℕ) : CExpression α → Prop
  | .bound _ => True
  | .node pop children =>
    let inserted := insertExpressionChildren M true children
    inserted.1.find ⟨pop, inserted.2, target, true⟩ = none →
      (∃ c ∈ inserted.2, inserted.1.fScalar c = false ∧ inserted.1.Reaches c target) →
        ∃ c ∈ inserted.2, inserted.1.fScalar c = false ∧ inserted.1.OwnPath c target

theorem any_fReachable_iff {M : CMemo α} (hM : M.Valid) {inputs : List ℕ}
    (hins : ∀ c ∈ inputs, c < M.aul) (target : ℕ) :
    (inputs.any fun c => !M.fScalar c && M.fReachable c target) = true ↔
      ∃ c ∈ inputs, M.fScalar c = false ∧ M.OwnPath c target := by
  rw [List.any_eq_true]
  refine exists_congr fun c => and_congr_right fun hc => ?_
  rw [Bool.and_eq_true,Bool.not_eq_true',fReachable_iff hM (hins c hc)]

theorem pgroupInsert_some {M : CMemo α} (hM : M.Valid) (hac : Acyclic M.Edge) {target : ℕ}
    (htgt : target < M.aul) {t : CExpression α} (ht : t.BoundBelow M.aul) :
    (pgroupInsert M (some target) true t).1.Valid ∧
      M.aul ≤ (pgroupInsert M (some target) true t).1.aul ∧
      (pgroupInsert M (some target) true t).2 < (pgroupInsert M (some target) true t).1.aul ∧
      (Acyclic (pgroupInsert M (some target) true t).1.Edge ↔ BackPathSeen M target t) := by
  cases t with
  | bound pgroup =>
    rw [pgroupInsert]
    exact ⟨hM,le_rfl,ht,iff_of_true hac trivial⟩
  | node pop children =>
    obtain ⟨hM₁,hac₁,hle,hgs⟩ := insertExpressionChildren_spec hM hac true ht
    rw [pgroupInsert,insertRoot,BackPathSeen]
    generalize insertExpressionChildren M true children = inserted at *
    obtain ⟨M₁,inputs⟩ := inserted
    dsimp only at *
    rw [Bool.true_and]
    have hgu := any_fReachable_iff hM₁ hgs target
    have ht₁ : ∀ t ∈ some target, t < M₁.aul := by
      rintro _ ⟨⟩
      exact htgt.trans_le hle
    split
    case isTrue hseen =>
      exact ⟨hM₁,hle,htgt.trans_le hle,iff_of_true hac₁ fun _ _ => hgu.mp hseen⟩
    case isFalse hnot =>
      obtain ⟨hM₂,hle₂,hlt⟩ := hM₁.pgroupInsert ht₁ pop hgs true
      refine ⟨hM₂,hle.trans hle₂,hlt,?_⟩
      rcases M₁.pgroupInsert_cases (some target) pop inputs true with ⟨found,hfind,heq⟩ | ⟨hfind,_⟩
      · rw [heq]
        exact iff_of_true hac₁ fun hnone => absurd (hfind.symm.trans hnone) (Option.some_ne_none _)
      · rw [edge_pgroupInsert hM₁ ht₁ pop hgs true hfind,acyclic_addEdges]
        constructor
        · rintro ⟨_,hback⟩ _ ⟨c,hc,hsc,hpath⟩
          exact absurd hpath (hback _ ⟨c,hc,hsc,rfl⟩)
        · intro hsafe
          refine ⟨hac₁,?_⟩
          rintro _ ⟨c,hc,hsc,rfl⟩ hpath
          exact hnot (hgu.mpr (hsafe hfind ⟨c,hc,hsc,hpath⟩))

end CEngine

namespace CMemo

variable {α : Type*} [COperator α]

/-- When one of two classes leads to the other, one does so along the logical expressions of
duplicate masters. -/
def JoinPathSeen (M : CMemo α) (g h : ℕ) : Prop :=
  M.pgroupDuplicateMaster g ≠ M.pgroupDuplicateMaster h →
    M.Reaches g h ∨ M.Reaches h g → M.OwnPath g h ∨ M.OwnPath h g

end CMemo

namespace CEngine

variable {α : Type*} [COperator α]

open CMemo

/-- The duplicate marking after an insertion. -/
def MarkPathSeen (M : CMemo α) (pgroupOrigin pgroupContainer : ℕ) : Prop :=
  pgroupContainer ≠ pgroupOrigin →
    fPossibleDuplicateGroups M pgroupContainer pgroupOrigin = true →
      M.JoinPathSeen pgroupOrigin pgroupContainer

theorem acyclic_insertXformResult {M : CMemo α} (hM : M.Valid) (hac : Acyclic M.Edge)
    {origin : ℕ} (hor : origin < M.aul) {t : CExpression α} (ht : t.BoundBelow M.aul) :
    Acyclic (insertXformResult M origin true t).Edge ↔
      BackPathSeen M origin t ∧
        MarkPathSeen (pgroupInsert M (some origin) true t).1 origin
          (pgroupInsert M (some origin) true t).2 := by
  obtain ⟨hM₁,hle,hco,hins⟩ := pgroupInsert_some hM hac hor ht
  rw [insertXformResult,← hins]
  generalize pgroupInsert M (some origin) true t = inserted at *
  obtain ⟨M₁,container⟩ := inserted
  dsimp only at *
  have hor₁ := hor.trans_le hle
  have hgu : (!true || !M₁.fReachable container origin && !M₁.fReachable origin container) = true ↔
      ¬ M₁.OwnPath container origin ∧ ¬ M₁.OwnPath origin container := by
    rw [← fReachable_iff hM₁ hco,← fReachable_iff hM₁ hor₁]
    simp only [Bool.not_true,Bool.false_or,Bool.and_eq_true,Bool.not_eq_true',Bool.not_eq_true]
  split
  case isTrue hmark =>
    obtain ⟨hne,hpos,huns⟩ := hmark
    obtain ⟨hback,hforth⟩ := hgu.mp huns
    by_cases hcl : M₁.pgroupDuplicateMaster origin = M₁.pgroupDuplicateMaster container
    · rw [edge_markDuplicates_of_eq hM₁ hne.symm hor₁ hco hcl]
      exact (and_iff_left fun _ _ hdiff => absurd hcl hdiff).symm
    · rw [acyclic_markDuplicates hM₁ hor₁ hco hcl]
      refine and_congr_right fun _ => ⟨fun hnot _ _ _ hpath => absurd hpath hnot,?_⟩
      intro hsafe hpath
      rcases hsafe hne hpos hcl hpath with hown | hown
      · exact hforth hown
      · exact hback hown
  case isFalse hmark =>
    refine (and_iff_left fun hne hpos _ _ => ?_).symm
    by_contra hnone
    rw [not_or] at hnone
    exact hmark ⟨hne,hpos,hgu.mpr ⟨hnone.2,hnone.1⟩⟩

end CEngine

end PgOrca.Search
