import PgOrca.JoinRegion.Tables

/-!
# Reordering keeps the meaning of a mixed region

The rows of a part of an accepted plan are those of the original tree without the inputs outside
that part, provided the outer predicates above a full join reject NULLs where the law needs it.
-/

namespace PgOrca

open CJoinRegionSpec Finset

variable {P ν : Type*} [ScalarPredicate P]

namespace CExpression

variable {e l r l' r' : CExpression P} {joinType joinType' : JoinType}

def CDCSupported (root : CExpression P) : Prop :=
  ∀ joinType l r predicate, root.IsJoin joinType l r predicate →
    fCDCSupportedJoin joinType = true

/-- `FNullRejecting` is right about the predicates of the tree. -/
def NullRejectingSound (meaning : PredicateMeaning P ν) (root : CExpression P) : Prop :=
  ∀ joinType l r predicate, root.IsJoin joinType l r predicate →
    meaning.NullRejectingSound predicate

/-- For a left outer join above a full join whose right columns its predicate does not use:
if the predicate is reported to reject NULLs on its right input, then it does so on its left
input. -/
def SafeOuterJoins (meaning : PredicateMeaning P ν) (root : CExpression P) : Prop :=
  ∀ l r p, root.IsJoin .leftOuter l r p → ∀ cl cr q, l.IsJoin .fullOuter cl cr q →
    Disjoint (ScalarPredicate.usedColumns p) cr.columns →
    ScalarPredicate.fNullRejecting p r.columns = true →
    ∀ row : Row ℕ ν, (∀ col ∈ l.columns, row col = none) → meaning.eval p row ≠ some true

omit [ScalarPredicate P] in
theorem IsJoin.trans {c : CExpression P} {p p' : P} (h : e.IsJoin joinType l r p)
    (hc : c = l ∨ c = r) (h' : c.IsJoin joinType' l' r' p') : e.IsJoin joinType' l' r' p' := by
  induction e with
  | atom input => exact h.elim
  | join joinType₀ l₀ r₀ p₀ comparison ihl ihr =>
    rcases h with ⟨_,rfl,rfl,_⟩ | h | h
    · rcases hc with rfl | rfl
      · exact .inr (.inl h')
      · exact .inr (.inr h')
    · exact .inr (.inl (ihl h))
    · exact .inr (.inr (ihr h))

omit [ScalarPredicate P] in
theorem NumberedIn.pcrsNodes_leaves {atoms : List CAtom} {edges : List (CEdge P)}
    {t : BinaryTree ℕ ℕ} (h : e.NumberedIn atoms edges t) :
    pcrsNodes atoms t.leaves = e.columns := by
  induction e generalizing t with
  | atom input =>
    cases t with
    | leaf node =>
      rw [BinaryTree.leaves,pcrsNodes,singleton_biUnion,outputColumns,
        List.getD_eq_getElem?_getD,List.getElem?_map,h]
      rfl
    | branch id tl tr => exact h.elim
  | join joinType l r p comparison ihl ihr =>
    cases t with
    | leaf node => exact h.elim
    | branch id tl tr =>
      obtain ⟨hl,hr,_⟩ := h
      rw [BinaryTree.leaves,columns,← ihl hl,← ihr hr,pcrsNodes,pcrsNodes,pcrsNodes,union_biUnion]

end CExpression

namespace CJoinRegionSpec

def cols (atoms : List CAtom) (node : ℕ) : Set ℕ := outputColumns atoms node

theorem coe_pcrsNodes (atoms : List CAtom) (nodes : Finset ℕ) :
    (pcrsNodes atoms nodes : Set ℕ) = BinaryTree.columns (cols atoms) nodes := by
  ext col
  simp only [pcrsNodes,coe_biUnion,Set.mem_iUnion,BinaryTree.columns,cols,
    Set.mem_ofPred_eq,mem_coe,exists_prop]

theorem cols_disjoint {atoms : List CAtom}
    (h : atoms.Pairwise fun a b => Disjoint a.outputColumns b.outputColumns) (node node' : ℕ)
    (hne : node ≠ node') : Disjoint (cols atoms node) (cols atoms node') := by
  have hlt : ∀ i j : ℕ, i < j → Disjoint (outputColumns atoms i) (outputColumns atoms j) := by
    intro i j hij
    by_cases hj : j < atoms.length
    · have hi : i < atoms.length := hij.trans hj
      have hpair := List.pairwise_iff_getElem.mp h i j hi hj hij
      simpa only [outputColumns,List.getD_eq_getElem?_getD,List.getElem?_map,
        List.getElem?_eq_getElem hi,List.getElem?_eq_getElem hj,Option.map_some,
        Option.getD_some] using hpair
    · have hnone : outputColumns atoms j = ∅ := by
        rw [outputColumns,List.getD_eq_getElem?_getD,List.getElem?_map,
          List.getElem?_eq_none (Nat.le_of_not_lt hj)]
        rfl
      rw [hnone]
      exact disjoint_empty_right _
  unfold cols
  rw [disjoint_coe]
  rcases Nat.lt_or_gt_of_ne hne with h' | h'
  · exact hlt node node' h'
  · exact (hlt node' node h').symm

def op (meaning : PredicateMeaning P ν) (outer : Row ℕ ν) (spec : CJoinRegionSpec P) (id : ℕ) :
    JoinOp ℕ ν :=
  match spec.edges[id]? with
  | some edge => edge.joinOp meaning outer spec.atoms
  | none => ⟨.full, fun _ => false, ∅, ∅⟩

theorem op_of_getElem? (meaning : PredicateMeaning P ν) (outer : Row ℕ ν) {spec : CJoinRegionSpec P}
    {id : ℕ} {edge : CEdge P} (h : spec.edges[id]? = some edge) :
    spec.op meaning outer id = edge.joinOp meaning outer spec.atoms := by
  rw [op,h]

theorem condition_ignores (meaning : PredicateMeaning P ν) (outer : Row ℕ ν) (joinType : JoinType)
    (p : P) {C : Set ℕ} (h : ∀ col ∈ ScalarPredicate.usedColumns p, col ∉ C) :
    Ignores (meaning.condition outer joinType [p]) C := by
  intro r s hag
  simp only [PredicateMeaning.condition,PredicateMeaning.evalConjunction_singleton]
  rw [meaning.eval_congr p (r.merge outer) (s.merge outer)]
  intro col hcol
  simp only [Row.merge,hag col (h col hcol)]

omit [ScalarPredicate P] in
theorem Holds.meets_left {child : CEdge P} {nodes : Finset ℕ}
    (h : (rightNeedsLeft child).Holds nodes) (hleft : child.left.Nonempty)
    (hr : ¬ Disjoint nodes child.right) : ¬ Disjoint nodes child.left := fun hd =>
  pbsIntersectIfNotDegenerate_meets hleft (hd.mono_left (h hr))

omit [ScalarPredicate P] in
theorem Holds.meets_right {child : CEdge P} {nodes : Finset ℕ}
    (h : (leftNeedsRight child).Holds nodes) (hr : child.right.Nonempty)
    (hleft : ¬ Disjoint nodes child.left) : ¬ Disjoint nodes child.right := fun hd =>
  pbsIntersectIfNotDegenerate_meets hr (hd.mono_left (h hleft))

section

variable {atoms : List CAtom} {edge child : CEdge P} {nodes : Finset ℕ}
  (hrules : ∀ rule ∈ childRules atoms edge child, rule.Holds nodes)
include hrules

theorem fAssociative_of_left (hl : child.left.Nonempty) (hin : child.all ⊆ edge.left)
    (hmiss : Disjoint nodes child.left) (hmt : ¬ Disjoint nodes child.right) :
    fAssociative atoms child edge = true := by
  by_contra hna
  exact Holds.meets_left (hrules _ (by simp [childRules,hin,hna])) hl hmt hmiss

theorem fLeftAsscom_of_left (hr : child.right.Nonempty) (hin : child.all ⊆ edge.left)
    (hmt : ¬ Disjoint nodes child.left) (hmiss : Disjoint nodes child.right) :
    fLeftAsscom atoms child edge = true := by
  by_contra hna
  exact Holds.meets_right (hrules _ (by simp [childRules,hin,hna])) hr hmt hmiss

theorem fAssociative_of_right (hr : child.right.Nonempty) (hout : ¬ child.all ⊆ edge.left)
    (hin : child.all ⊆ edge.right) (hmt : ¬ Disjoint nodes child.left)
    (hmiss : Disjoint nodes child.right) : fAssociative atoms edge child = true := by
  by_contra hna
  exact Holds.meets_right (hrules _ (by simp [childRules,hout,hin,hna])) hr hmt hmiss

theorem fRightAsscom_of_right (hl : child.left.Nonempty) (hout : ¬ child.all ⊆ edge.left)
    (hin : child.all ⊆ edge.right) (hmiss : Disjoint nodes child.left)
    (hmt : ¬ Disjoint nodes child.right) : fRightAsscom atoms edge child = true := by
  by_contra hna
  exact Holds.meets_left (hrules _ (by simp [childRules,hout,hin,hna])) hl hmt hmiss

end

/-- A specification whose original tree may be reordered. -/
structure Reorderable (meaning : PredicateMeaning P ν) (outer : Row ℕ ν) (root : CExpression P)
    (spec : CJoinRegionSpec P) (t : BinaryTree ℕ ℕ) : Prop where
  built : Built root spec t
  wellScoped : root.WellScoped
  outerTo : OuterTo spec.atoms outer
  supported : root.CDCSupported
  sound : root.NullRejectingSound meaning
  safe : root.SafeOuterJoins meaning

namespace Reorderable

variable {meaning : PredicateMeaning P ν} {outer : Row ℕ ν} {root : CExpression P}
  {spec : CJoinRegionSpec P} {t l r : BinaryTree ℕ ℕ} {b : ℕ}

section

variable (h : Reorderable meaning outer root spec t)

include h

theorem cols_disjoint (node node' : ℕ)
    (hne : node ≠ node') : Disjoint (cols spec.atoms node) (cols spec.atoms node') := by
  apply CJoinRegionSpec.cols_disjoint _ node node' hne
  rw [h.built.atoms]
  exact h.wellScoped.disjoint

theorem outputColumns_subset (node : ℕ) : outputColumns spec.atoms node ⊆ root.columns := by
  rw [← h.built.numbered.pcrsNodes_leaves,h.built.leaves]
  intro col hcol
  refine mem_biUnion.mpr ⟨node,mem_range.mpr ?_,hcol⟩
  by_contra hge
  rw [outputColumns,List.getD_eq_getElem?_getD,List.getElem?_map,
    List.getElem?_eq_none (Nat.le_of_not_lt hge)] at hcol
  cases notMem_empty col hcol

theorem branch_scoped (hb : t.IsBranch b l r) :
    BinaryTree.Scoped (spec.op meaning outer) (cols spec.atoms) b l r := by
  obtain ⟨ty,el,er,p,edge,hjoin,hnl,hnr,hedge,hst⟩ := h.built.numbered.isJoin hb
  rw [← hst.predicate_eq] at hjoin
  have hop := op_of_getElem? meaning outer hedge
  refine ⟨?_,?_,?_⟩
  · rw [hop,← hst.left_eq]
    exact coe_pcrsNodes _ _
  · rw [hop,← hst.right_eq]
    exact coe_pcrsNodes _ _
  · intro u hu
    rw [hop]
    apply condition_ignores
    intro col hcol ⟨node,hnode,hout⟩
    have hmem := h.wellScoped.reads ty el er edge.predicate hjoin
      (mem_inter.mpr ⟨hcol,h.outputColumns_subset node hout⟩)
    rw [← hnl.pcrsNodes_leaves,← hnr.pcrsNodes_leaves,pcrsNodes,pcrsNodes,← union_biUnion] at hmem
    obtain ⟨node',hnode',hout'⟩ := mem_biUnion.mp hmem
    have hne : node ≠ node' := by
      intro heq
      subst heq
      exact disjoint_left.mp hu hnode hnode'
    exact Set.disjoint_left.mp (h.cols_disjoint node node' hne) hout hout'

private theorem child_facts (hb : t.IsBranch b l r) {v cl cr : BinaryTree ℕ ℕ} {c : ℕ}
    {e : CExpression P} (hv : v = l ∨ v = r) (hnum : e.NumberedIn spec.atoms spec.edges v)
    (hc : v.IsBranch c cl cr) :
    ∃ ty el er p child, e.IsJoin ty el er p ∧ er.NumberedIn spec.atoms spec.edges cr ∧
      spec.edges[c]? = some child ∧ child ∈ spec.edges.take b ∧
      CExpression.Stands child ty cl cr p ∧ child.all ⊆ v.leaves ∧ child.left.Nonempty ∧
      child.right.Nonempty := by
  obtain ⟨ty,el,er,p,child,hjoin,_,hner,hch,hst⟩ := hnum.isJoin hc
  have hlb : t.labels.Pairwise (· < ·) := by
    rw [h.built.labels]
    exact List.pairwise_lt_range
  have hlt : c < b := by
    apply hb.label_lt hlb
    have hmem : c ∈ v.labels := BinaryTree.mem_labels.mpr ⟨cl,cr,hc⟩
    rcases hv with rfl | rfl
    · exact .inl hmem
    · exact .inr hmem
  refine ⟨ty,el,er,p,child,hjoin,hner,hch,?_,hst,?_,hst.left_eq ▸ cl.leaves_nonempty,
    hst.right_eq ▸ cr.leaves_nonempty⟩
  · apply List.mem_of_getElem? (i := c)
    rw [List.getElem?_take_of_lt hlt,hch]
  · rw [CEdge.all,hst.left_eq,hst.right_eq]
    exact hc.leaves_subset

end

section

variable {edge : CEdge P} {tes nodes : Finset ℕ}

private theorem not_used (helig : Eligible spec.atoms (spec.edges.take b) edge tes)
    (htes : tes ⊆ nodes) {node col : ℕ} (hnode : node ∉ nodes)
    (hcol : col ∈ outputColumns spec.atoms node) :
    col ∉ ScalarPredicate.usedColumns edge.predicate := by
  intro hused
  apply hnode
  apply htes
  apply helig.cover_subset
  rw [pbsPredicateCover,mem_filter,mem_range]
  refine ⟨?_,fun hd => disjoint_left.mp hd hused hcol⟩
  by_contra hge
  rw [outputColumns,List.getD_eq_getElem?_getD,List.getElem?_map,
    List.getElem?_eq_none (Nat.le_of_not_lt hge)] at hcol
  cases notMem_empty col hcol

section

variable (h : Reorderable meaning outer root spec t) (hb : t.IsBranch b l r)
  (hedge : spec.edges[b]? = some edge) (helig : Eligible spec.atoms (spec.edges.take b) edge tes)
  (htes : tes ⊆ nodes) (hrules : ∀ rule ∈ edge.conflictRules, rule.Holds nodes)
  {cl cr : BinaryTree ℕ ℕ}

include h hb hedge helig htes hrules

private theorem free_left {c : ℕ} (hc : l.IsBranch c cl cr) :
    (Disjoint nodes cl.leaves → ¬ Disjoint nodes cr.leaves →
      (spec.op meaning outer c).Assoc (spec.op meaning outer b)) ∧
    (¬ Disjoint nodes cl.leaves → Disjoint nodes cr.leaves →
      (spec.op meaning outer c).LeftAsscom (spec.op meaning outer b)) := by
  obtain ⟨ty,el,er,p,edge',hjoin,hnl,hnr,hedge',hst⟩ := h.built.numbered.isJoin hb
  rw [hedge,Option.some.injEq] at hedge'
  subst hedge'
  obtain ⟨cty,cel,cer,cp,child,hcj,hncr,hch,hmem,hcst,hall,hlne,hrne⟩ :=
    h.child_facts hb (.inl rfl) hnl hc
  rw [← hst.left_eq] at hall
  have hcr := helig.holds nodes htes hrules child hmem
  have hty : fCDCSupportedJoin edge.joinType = true :=
    hst.joinType_eq ▸ h.supported ty el er p hjoin
  have hcty : fCDCSupportedJoin child.joinType = true :=
    hcst.joinType_eq ▸ h.supported cty cel cer cp (hjoin.trans (.inl rfl) hcj)
  have hse : meaning.NullRejectingSound edge.predicate :=
    hst.predicate_eq ▸ h.sound ty el er p hjoin
  have hsc : meaning.NullRejectingSound child.predicate :=
    hcst.predicate_eq ▸ h.sound cty cel cer cp (hjoin.trans (.inl rfl) hcj)
  rw [op_of_getElem? meaning outer hedge,op_of_getElem? meaning outer hch,
    ← hcst.left_eq,← hcst.right_eq]
  constructor
  · intro hmiss hmt
    exact assoc_of_fAssociative h.outerTo hsc hse hty (fAssociative_of_left hcr hlne hall hmiss hmt)
  · intro hmt hmiss
    apply leftAsscom_of_fLeftAsscom h.outerTo hsc hse hcty hty _
      (fLeftAsscom_of_left hcr hrne hall hmt hmiss)
    intro hcfull houter hnull
    apply rejects_of_not_true h.outerTo (by rw [houter]; decide)
    rw [hst.left_eq,hnl.pcrsNodes_leaves,hst.predicate_eq]
    rw [fNullRejecting,hst.right_eq,hnr.pcrsNodes_leaves,hst.predicate_eq] at hnull
    rw [hst.joinType_eq] at houter
    rw [hcst.joinType_eq] at hcfull
    subst houter hcfull
    apply h.safe el er p hjoin cel cer cp hcj _ hnull
    rw [← hst.predicate_eq,disjoint_right,← hncr.pcrsNodes_leaves]
    intro col hcol
    obtain ⟨node,hnode,hout⟩ := mem_biUnion.mp hcol
    rw [← hcst.right_eq] at hnode
    exact not_used helig htes (fun hin => disjoint_left.mp hmiss hin hnode) hout

private theorem free_right {c : ℕ} (hc : r.IsBranch c cl cr) :
    (¬ Disjoint nodes cl.leaves → Disjoint nodes cr.leaves →
      (spec.op meaning outer b).Assoc (spec.op meaning outer c)) ∧
    (Disjoint nodes cl.leaves → ¬ Disjoint nodes cr.leaves →
      (spec.op meaning outer b).RightAsscom (spec.op meaning outer c)) := by
  obtain ⟨ty,el,er,p,edge',hjoin,hnl,hnr,hedge',hst⟩ := h.built.numbered.isJoin hb
  rw [hedge,Option.some.injEq] at hedge'
  subst hedge'
  obtain ⟨cty,cel,cer,cp,child,hcj,_,hch,hmem,hcst,hall,hlne,hrne⟩ :=
    h.child_facts hb (.inr rfl) hnr hc
  rw [← hst.right_eq] at hall
  have hcr := helig.holds nodes htes hrules child hmem
  have hout : ¬ child.all ⊆ edge.left := by
    intro hsub
    have hlr : Disjoint edge.left edge.right := by
      rw [hst.left_eq,hst.right_eq]
      exact hb.disjoint h.built.separated
    have hself := hlr.mono hsub hall
    rw [disjoint_self_iff_empty,CEdge.all,union_eq_empty] at hself
    exact hlne.ne_empty hself.1
  have hcty : fCDCSupportedJoin child.joinType = true :=
    hcst.joinType_eq ▸ h.supported cty cel cer cp (hjoin.trans (.inr rfl) hcj)
  have hse : meaning.NullRejectingSound edge.predicate :=
    hst.predicate_eq ▸ h.sound ty el er p hjoin
  have hsc : meaning.NullRejectingSound child.predicate :=
    hcst.predicate_eq ▸ h.sound cty cel cer cp (hjoin.trans (.inr rfl) hcj)
  rw [op_of_getElem? meaning outer hedge,op_of_getElem? meaning outer hch,
    ← hcst.left_eq,← hcst.right_eq]
  constructor
  · intro hmt hmiss
    exact assoc_of_fAssociative h.outerTo hse hsc hcty
      (fAssociative_of_right hcr hrne hout hall hmt hmiss)
  · intro hmiss hmt
    exact rightAsscom_of_fRightAsscom h.outerTo hsc hse
      (fRightAsscom_of_right hcr hlne hout hall hmiss hmt)

theorem applied_of_holds :
    BinaryTree.Applied (spec.op meaning outer) (cols spec.atoms) b l r nodes := by
  obtain ⟨edge',hedge',hl,hr⟩ := h.built.numbered.sides hb
  rw [hedge,Option.some.injEq] at hedge'
  subst hedge'
  refine ⟨?_,?_,?_,?_,?_,?_,?_⟩
  · rw [← hl]
    exact fun hd => helig.meets_left (hd.mono_left htes)
  · rw [← hr]
    exact fun hd => helig.meets_right (hd.mono_left htes)
  · intro u hu
    rw [op_of_getElem? meaning outer hedge]
    apply condition_ignores
    intro col hcol ⟨node,hnode,hout⟩
    exact not_used helig htes (disjoint_left.mp hu hnode) hout hcol
  · intro c cl cr hc
    exact (h.free_left hb hedge helig htes hrules hc).1
  · intro c cl cr hc
    exact (h.free_left hb hedge helig htes hrules hc).2
  · intro c cl cr hc
    exact (h.free_right hb hedge helig htes hrules hc).1
  · intro c cl cr hc
    exact (h.free_right hb hedge helig htes hrules hc).2

end

end

end Reorderable

end CJoinRegionSpec

end PgOrca
