import PgOrca.JoinRegion.Reorder

/-!
# Accepted plans compute the rows of the original tree

By edge conservation every join carries the one original edge that its two inputs cut together.
-/

namespace PgOrca

open CJoinRegionSpec Finset
open JoinPlan (join requestRows rows)

variable {id node : ℕ}

section

variable {P ν : Type*} [ScalarPredicate P] {meaning : PredicateMeaning P ν} {outer : Row ℕ ν}
  {root : CExpression P} {spec : CJoinRegionSpec P} {t l r fl fr : BinaryTree ℕ ℕ} {b f : ℕ}
  {region : CDPHyperJoinRegion P} {plan : JoinPlan} {request : SJoinRequest P}

theorem mem_coveredEdges_iff_cut (hb : Built root spec t) (hplan : plan.Conserves region spec)
    (hbr : t.IsBranch b l r) :
    b ∈ spec.coveredEdges plan.nodes ↔
      ¬ Disjoint plan.nodes l.leaves ∧ ¬ Disjoint plan.nodes r.leaves := by
  have hcard : (t.cut plan.nodes).toFinset.card ≤ (spec.coveredEdges plan.nodes).card := by
    rw [← hplan.covered,List.toFinset_card_of_nodup hplan.nodup]
    have hlen : (t.cut plan.nodes).length ≤ plan.nodes.card - 1 := by
      rw [BinaryTree.length_cut hb.separated]
      exact Nat.sub_le_sub_right (card_le_card inter_subset_left) 1
    have hpla := hplan.length
    have hfin := List.toFinset_card_le (t.cut plan.nodes)
    omega
  rw [eq_of_subset_of_card_le (hb.coveredEdges_subset_cut plan.nodes) hcard,
    List.mem_toFinset,BinaryTree.mem_cut]
  constructor
  · intro ⟨l',r',hbr',hmt⟩
    obtain ⟨edge,hedge,hl,hr⟩ := hb.numbered.sides hbr
    obtain ⟨edge',hedge',hl',hr'⟩ := hb.numbered.sides hbr'
    rw [hedge,Option.some.injEq] at hedge'
    subst hedge'
    rw [← hl,← hr,hl',hr']
    exact hmt
  · intro hmt
    exact ⟨l,r,hbr,hmt⟩

omit [ScalarPredicate P] in
theorem mem_coveredEdges_join {lp rp : JoinPlan} (hl : lp.Conserves region spec)
    (hr : rp.Conserves region spec) (hjoin : (join lp rp).Conserves region spec)
    (hreq : region.fBuildJoinRequest lp.nodes rp.nodes = some request)
    (hids : request.edgeIds = [f]) (h : id ∈ spec.coveredEdges (lp.nodes ∪ rp.nodes)) :
    id = f ∨ id ∈ spec.coveredEdges lp.nodes ∨ id ∈ spec.coveredEdges rp.nodes := by
  change id ∈ spec.coveredEdges (join lp rp).nodes at h
  rw [← hjoin.covered,List.mem_toFinset,JoinPlan.appliedEdges,hreq,Option.map_some,
    Option.getD_some,hids,List.mem_append,List.mem_append,List.mem_singleton] at h
  rw [← hl.covered,← hr.covered,List.mem_toFinset,List.mem_toFinset]
  tauto

omit [ScalarPredicate P] in
theorem connecting_meets_left {edge : CEdge P} {tes x y : Finset ℕ}
    (hconn : edge.Connecting tes x y) (hinn : edge.joinType ≠ .inner)
    (hmt : ¬ Disjoint tes edge.left) : ¬ Disjoint x edge.left := by
  obtain ⟨node,htes,hleft⟩ := not_disjoint_iff.mp hmt
  have hori := hconn.oriented.resolve_left hinn
  exact not_disjoint_iff.mpr ⟨node,(hori node htes).1 hleft,hleft⟩

theorem joins_of_plans (h : Reorderable meaning outer root spec t) {p q : JoinPlan}
    (hp : p.Conserves region spec) (hq : q.Conserves region spec) (hd : Disjoint p.nodes q.nodes)
    (hps : BinaryTree.Settled (spec.op meaning outer) (cols spec.atoms) t p.nodes)
    (hqs : BinaryTree.Settled (spec.op meaning outer) (cols spec.atoms) t q.nodes)
    (hbr : t.IsBranch f fl fr)
    (hcut : ∀ b l r, t.IsBranch b l r → ¬ Disjoint (p.nodes ∪ q.nodes) l.leaves →
      ¬ Disjoint (p.nodes ∪ q.nodes) r.leaves →
      b = f ∨ b ∈ spec.coveredEdges p.nodes ∨ b ∈ spec.coveredEdges q.nodes)
    (hpl : ¬ Disjoint p.nodes fl.leaves) (hpr : Disjoint p.nodes fr.leaves)
    (hql : Disjoint q.nodes fl.leaves) (hqr : ¬ Disjoint q.nodes fr.leaves) :
    BinaryTree.Joins (spec.op meaning outer) (cols spec.atoms) t f fl fr p.nodes q.nodes := by
  refine ⟨hbr,hd,hps,hqs,hpl,hpr,hql,hqr,?_⟩
  intro b l r hb hne hl hr
  have hexcl : b ∈ spec.coveredEdges p.nodes → b ∉ spec.coveredEdges q.nodes := fun hb' =>
    disjoint_left.mp (h.built.disjoint_coveredEdges hd) hb'
  rw [mem_coveredEdges_iff_cut h.built hp hb,mem_coveredEdges_iff_cut h.built hq hb] at hexcl
  have hcs := (hcut b l r hb hl hr).resolve_left hne
  rw [mem_coveredEdges_iff_cut h.built hp hb,mem_coveredEdges_iff_cut h.built hq hb] at hcs
  tauto

/-- The rows of a join are those of the original tree restricted to its nodes. -/
structure Computes (meaning : PredicateMeaning P ν) (outer : Row ℕ ν) (spec : CJoinRegionSpec P)
    (region : CDPHyperJoinRegion P) (db : ℕ → Multiset (Row ℕ ν)) (t : BinaryTree ℕ ℕ)
    (plan : JoinPlan) : Prop where
  settled : BinaryTree.Settled (spec.op meaning outer) (cols spec.atoms) t plan.nodes
  eval : t.evalOn (spec.op meaning outer) db plan.nodes =
    some (plan.rows region meaning outer db)

omit [ScalarPredicate P] in
theorem pexprPredicate_single {edge : CEdge P} (hspec : region.complexSpec = some spec)
    (hids : request.edgeIds = [f])
    (hedge : spec.edges[f]? = some edge) : region.pexprPredicate request = [edge.predicate] := by
  simp only [CDPHyperJoinRegion.pexprPredicate,hspec,hids,List.filterMap_cons,
    List.filterMap_nil,hedge,Option.map_some]

/-- The one edge that a join of two accepted plans carries. -/
structure Carries (spec : CJoinRegionSpec P) (lp rp : JoinPlan) (request : SJoinRequest P) (f : ℕ) (edge : CEdge P)
    (tes : Finset ℕ) (swapped : Bool) : Prop where
  ids : request.edgeIds = [f]
  edge_eq : spec.edges[f]? = some edge
  eligible : Eligible spec.atoms (spec.edges.take f) edge tes
  connecting : edge.Connecting tes (if swapped then rp.nodes else lp.nodes)
    (if swapped then lp.nodes else rp.nodes)
  joinType : request.joinType = edge.joinType
  swapped_eq : request.swapped = if edge.joinType = .inner then false else swapped

theorem exists_carries (h : Reorderable meaning outer root spec t)
    (hspec : region.complexSpec = some spec) (hfree : spec.hasDependencies = false)
    {lp rp : JoinPlan} (hl : lp.Conserves region spec) (hr : rp.Conserves region spec)
    (hd : Disjoint lp.nodes rp.nodes)
    (hreq : region.fBuildJoinRequest lp.nodes rp.nodes = some request) :
    ∃ f edge tes swapped, Carries spec lp rp request f edge tes swapped := by
  have hone := (conserves_join h.built hspec hl hr hd hreq).1
  obtain ⟨f,edge,swapped,hids,hedge,happ,hty,hsw⟩ :=
    CDPHyperJoinRegion.fBuildJoinRequest_single hspec hfree hreq hone
  obtain ⟨tes,htes,hconn⟩ := CEdge.fApplicable_eq_true happ
  rcases h.built.eligible f edge hedge with hnone | ⟨tes',helig⟩
  · rw [htes] at hnone
    cases hnone
  · rw [helig.tes_eq,Option.some.injEq] at htes
    subst htes
    exact ⟨f,edge,tes',swapped,hids,hedge,helig,hconn,hty,hsw⟩

theorem oriented_cut {p q u v : Finset ℕ} (hu : ¬ Disjoint (p ∪ q) u) (hv : ¬ Disjoint (p ∪ q) v)
    (hp : Disjoint p u ∨ Disjoint p v) (hq : Disjoint q u ∨ Disjoint q v) :
    (¬ Disjoint p u ∧ Disjoint p v ∧ Disjoint q u ∧ ¬ Disjoint q v) ∨
      (¬ Disjoint q u ∧ Disjoint q v ∧ Disjoint p u ∧ ¬ Disjoint p v) := by
  rw [disjoint_union_left] at hu hv
  tauto

section

variable {db : ℕ → Multiset (Row ℕ ν)} {lp rp : JoinPlan} {edge : CEdge P}
  {tes : Finset ℕ} {swapped : Bool}

theorem Carries.connecting_facts (hc : Carries spec lp rp request f edge tes swapped) :
    tes ⊆ lp.nodes ∪ rp.nodes ∧ (∀ rule ∈ edge.conflictRules, rule.Holds (lp.nodes ∪ rp.nodes)) := by
  have hconn := hc.connecting
  cases swapped with
  | false => exact ⟨hconn.tes_subset,hconn.rules⟩
  | true =>
    have hcomm : rp.nodes ∪ lp.nodes = lp.nodes ∪ rp.nodes := union_comm _ _
    exact ⟨hcomm ▸ hconn.tes_subset,hcomm ▸ hconn.rules⟩

theorem Carries.requestRows_eq (hc : Carries spec lp rp request f edge tes swapped)
    (hspec : region.complexSpec = some spec) (hty : fCDCSupportedJoin edge.joinType = true)
    (X Y : Multiset (Row ℕ ν)) :
    requestRows region meaning outer request X Y =
      if (if edge.joinType = .inner then false else swapped) then
        (spec.op meaning outer f).rows Y X else (spec.op meaning outer f).rows X Y := by
  rw [requestRows,pexprPredicate_single hspec hc.ids hc.edge_eq,hc.joinType,
    hc.swapped_eq,op_of_getElem? meaning outer hc.edge_eq,rows_joinOp hty,rows_joinOp hty]

theorem Carries.branch (h : Reorderable meaning outer root spec t)
    (hc : Carries spec lp rp request f edge tes swapped) :
    ∃ fl fr, t.IsBranch f fl fr ∧ edge.left = fl.leaves ∧ edge.right = fr.leaves ∧
      fCDCSupportedJoin edge.joinType = true ∧
      BinaryTree.Applied (spec.op meaning outer) (cols spec.atoms) f fl fr
        (lp.nodes ∪ rp.nodes) := by
  have hlb : f ∈ t.labels := by
    rw [h.built.labels]
    exact List.mem_range.mpr (List.getElem?_eq_some_iff.mp hc.edge_eq).1
  obtain ⟨fl,fr,hbr⟩ := BinaryTree.mem_labels.mp hlb
  obtain ⟨ty,el,er,p,edge',hjoin,_,_,hedge',hst⟩ := h.built.numbered.isJoin hbr
  rw [hc.edge_eq,Option.some.injEq] at hedge'
  subst hedge'
  obtain ⟨htes,hrl⟩ := hc.connecting_facts
  exact ⟨fl,fr,hbr,hst.left_eq,hst.right_eq,hst.joinType_eq ▸ h.supported ty el er p hjoin,
    h.applied_of_holds hbr hc.edge_eq hc.eligible htes hrl⟩

private theorem evalOn_join (h : Reorderable meaning outer root spec t)
    (hdb : ∀ node, Over (db node) (cols spec.atoms node)) {p q : JoinPlan}
    (hp : Computes meaning outer spec region db t p)
    (hq : Computes meaning outer spec region db t q)
    (hj : BinaryTree.Joins (spec.op meaning outer) (cols spec.atoms) t f fl fr p.nodes q.nodes) :
    t.evalOn (spec.op meaning outer) db (p.nodes ∪ q.nodes) =
      some ((spec.op meaning outer f).rows (p.rows region meaning outer db)
        (q.rows region meaning outer db)) := by
  have hnd : t.labels.Nodup := by
    rw [h.built.labels]
    exact List.nodup_range
  rw [hj.evalOn_union h.cols_disjoint hdb h.built.separated hnd
    fun b l r hb => h.branch_scoped hb,hp.eval,hq.eval]
  rfl

omit [ScalarPredicate P] in
theorem carried_not_covered (hspec : region.complexSpec = some spec)
    (hreq : region.fBuildJoinRequest lp.nodes rp.nodes = some request)
    (hids : request.edgeIds = [f]) :
    f ∉ spec.coveredEdges lp.nodes ∧ f ∉ spec.coveredEdges rp.nodes := by
  have hmem : f ∈ (region.applicableEdges lp.nodes rp.nodes).map SApplicableEdge.edgeId := by
    rw [← (CDPHyperJoinRegion.fBuildJoinRequest_edgeIds hspec hreq).1,hids]
    exact List.mem_singleton_self f
  obtain ⟨candidate,hcand,rfl⟩ := List.mem_map.mp hmem
  exact (applicable_mem_coveredEdges hspec hcand).2

private theorem settled_join
    (hl : BinaryTree.Settled (spec.op meaning outer) (cols spec.atoms) t lp.nodes)
    (hr : BinaryTree.Settled (spec.op meaning outer) (cols spec.atoms) t rp.nodes)
    (hb : Built root spec t) (hlc : lp.Conserves region spec) (hrc : rp.Conserves region spec)
    (hcut : ∀ b l r, t.IsBranch b l r → ¬ Disjoint (lp.nodes ∪ rp.nodes) l.leaves →
      ¬ Disjoint (lp.nodes ∪ rp.nodes) r.leaves →
      b = f ∨ b ∈ spec.coveredEdges lp.nodes ∨ b ∈ spec.coveredEdges rp.nodes)
    (happ : ∀ l r, t.IsBranch f l r →
      BinaryTree.Applied (spec.op meaning outer) (cols spec.atoms) f l r (lp.nodes ∪ rp.nodes)) :
    BinaryTree.Settled (spec.op meaning outer) (cols spec.atoms) t (lp.nodes ∪ rp.nodes) := by
  intro b l r hbranch hbl hbr
  rcases hcut b l r hbranch hbl hbr with rfl | hcov | hcov
  · exact ⟨_,Finset.Subset.refl _,happ l r hbranch⟩
  · obtain ⟨hml,hmr⟩ := (mem_coveredEdges_iff_cut hb hlc hbranch).mp hcov
    obtain ⟨s',hsub,hs'⟩ := hl b l r hbranch hml hmr
    exact ⟨s',hsub.trans subset_union_left,hs'⟩
  · obtain ⟨hml,hmr⟩ := (mem_coveredEdges_iff_cut hb hrc hbranch).mp hcov
    obtain ⟨s',hsub,hs'⟩ := hr b l r hbranch hml hmr
    exact ⟨s',hsub.trans subset_union_right,hs'⟩

section

variable (h : Reorderable meaning outer root spec t)

include h

theorem computes_join
    (hspec : region.complexSpec = some spec) (hfree : spec.hasDependencies = false)
    (hdb : ∀ node, Over (db node) (cols spec.atoms node)) (hlc : lp.Conserves region spec)
    (hrc : rp.Conserves region spec) (hl : Computes meaning outer spec region db t lp)
    (hr : Computes meaning outer spec region db t rp) (hd : Disjoint lp.nodes rp.nodes)
    (hreq : region.fBuildJoinRequest lp.nodes rp.nodes = some request) :
    Computes meaning outer spec region db t (.join lp rp) := by
  have hjc := (conserves_join h.built hspec hlc hrc hd hreq).2
  obtain ⟨f,edge,tes,swapped,hc⟩ := exists_carries h hspec hfree hlc hrc hd hreq
  obtain ⟨fl,fr,hbranch,hfl,hfr,hty,happ⟩ := hc.branch h
  have hcut : ∀ b l r, t.IsBranch b l r → ¬ Disjoint (lp.nodes ∪ rp.nodes) l.leaves →
      ¬ Disjoint (lp.nodes ∪ rp.nodes) r.leaves →
      b = f ∨ b ∈ spec.coveredEdges lp.nodes ∨ b ∈ spec.coveredEdges rp.nodes := by
    intro b l r hb hbl hbr
    exact mem_coveredEdges_join hlc hrc hjc hreq hc.ids
      ((mem_coveredEdges_iff_cut h.built hjc hb).mpr ⟨hbl,hbr⟩)
  refine ⟨settled_join hl.settled hr.settled h.built hlc hrc hcut ?_,?_⟩
  · intro l r hb
    obtain ⟨htes,hrl⟩ := hc.connecting_facts
    exact h.applied_of_holds hb hc.edge_eq hc.eligible htes hrl
  have hrows : (join lp rp).rows region meaning outer db =
      requestRows region meaning outer request (lp.rows region meaning outer db)
        (rp.rows region meaning outer db) := by
    rw [rows,hreq]
  rw [hrows,hc.requestRows_eq hspec hty]
  change t.evalOn (spec.op meaning outer) db (lp.nodes ∪ rp.nodes) = _
  obtain ⟨hnl,hnr⟩ := carried_not_covered hspec hreq hc.ids
  rw [mem_coveredEdges_iff_cut h.built hlc hbranch,not_and_or,not_not,not_not] at hnl
  rw [mem_coveredEdges_iff_cut h.built hrc hbranch,not_and_or,not_not,not_not] at hnr
  have hconn := hc.connecting
  have hmt := hc.eligible.meets_left
  -- either input may hold the left side of the carried edge
  rcases oriented_cut happ.meets_left happ.meets_right hnl hnr with ⟨h1,h2,h3,h4⟩ | ⟨h1,h2,h3,h4⟩
  · have hj := joins_of_plans h hlc hrc hd hl.settled hr.settled hbranch hcut h1 h2 h3 h4
    rw [evalOn_join h hdb hl hr hj]
    by_cases hinn : edge.joinType = .inner
    · rw [if_pos hinn]
      rfl
    · rw [if_neg hinn]
      cases swapped with
      | false => rfl
      | true => exact absurd (hfl ▸ h3) (connecting_meets_left hconn hinn hmt)
  · have hcut' := hcut
    rw [union_comm] at hcut'
    have hj := joins_of_plans h hrc hlc hd.symm hr.settled hl.settled hbranch
      (fun b l r hb hbl hbr => (hcut' b l r hb hbl hbr).imp_right Or.symm) h1 h2 h3 h4
    rw [union_comm,evalOn_join h hdb hr hl hj]
    by_cases hinn : edge.joinType = .inner
    · rw [if_pos hinn]
      have hkind : (spec.op meaning outer f).kind = .left .inner := by
        rw [op_of_getElem? meaning outer hc.edge_eq,CEdge.joinOp,hinn]
        rfl
      have hns : Disjoint (rp.nodes ∩ t.leaves) (lp.nodes ∩ t.leaves) :=
        hd.symm.mono inter_subset_left inter_subset_left
      have hdisj := BinaryTree.columns_disjoint h.cols_disjoint hns
      have hswap := leftJoin_inner_swap (m := (spec.op meaning outer f).cond)
        (BinaryTree.evalOn_over hdb hr.eval) (BinaryTree.evalOn_over hdb hl.eval) hdisj
      rw [JoinOp.rows_left hkind,hswap,← JoinOp.rows_left hkind]
      rfl
    · rw [if_neg hinn]
      cases swapped with
      | true => rfl
      | false => exact absurd (hfl ▸ h3) (connecting_meets_left hconn hinn hmt)

theorem computes_atom
    (hnode : node ∈ t.leaves) : Computes meaning outer spec region db t (.atom node) := by
  constructor
  · intro b l r hbr hl hr
    have hlr := hbr.disjoint h.built.separated
    change ¬ Disjoint {node} _ at hl hr
    rw [disjoint_singleton_left,not_not] at hl hr
    exact absurd hr (disjoint_left.mp hlr hl)
  · exact BinaryTree.evalOn_singleton hnode h.built.separated

theorem accepted_computes (hspec : region.complexSpec = some spec)
    (hfree : spec.hasDependencies = false) (hdb : ∀ node, Over (db node) (cols spec.atoms node))
    (plan : JoinPlan) (hplan : plan.Accepted region) (hns : plan.nodes ⊆ t.leaves) :
    Computes meaning outer spec region db t plan := by
  induction plan with
  | atom node => exact computes_atom h (hns (mem_singleton_self node))
  | join l r ihl ihr =>
    obtain ⟨hl,hr,hd,hsome⟩ := hplan
    obtain ⟨request,hreq⟩ := Option.isSome_iff_exists.mp hsome
    exact computes_join h hspec hfree hdb (accepted_conserves h.built hspec l hl)
      (accepted_conserves h.built hspec r hr)
      (ihl hl (subset_union_left.trans hns))
      (ihr hr (subset_union_right.trans hns)) hd hreq

end

end

theorem evalOn_number {db : ℕ → Multiset (Row ℕ ν)} (e : CExpression P) {s : Finset ℕ}
    (hnum : e.NumberedIn spec.atoms spec.edges (e.number node id)) (hsup : e.CDCSupported)
    (hs : (e.number node id).leaves ⊆ s) :
    (e.number node id).evalOn (spec.op meaning outer) db s =
      some (e.rows meaning outer db node) := by
  induction e generalizing node id with
  | atom input => exact if_pos (hs (mem_singleton_self node))
  | join joinType l r predicate comparison ihl ihr =>
    obtain ⟨hl,hr,edge,hedge,hst⟩ := hnum
    have hsupL : l.CDCSupported := fun ty l' r' p hj => hsup ty l' r' p (.inr (.inl hj))
    have hsupR : r.CDCSupported := fun ty l' r' p hj => hsup ty l' r' p (.inr (.inr hj))
    have hty : fCDCSupportedJoin edge.joinType = true :=
      hst.joinType_eq ▸ hsup joinType l r predicate (.inl ⟨rfl,rfl,rfl,rfl⟩)
    have hop := op_of_getElem? meaning outer hedge
    rw [CExpression.number,BinaryTree.evalOn,ihl hl hsupL (subset_union_left.trans hs),
      ihr hr hsupR (subset_union_right.trans hs),BinaryTree.combine,hop,
      rows_joinOp hty,hst.joinType_eq,hst.predicate_eq,CExpression.rows]

/-- Every accepted full plan yields the bag of rows of the original tree. -/
theorem accepted_plan_rows (root : CExpression P) (spec : CJoinRegionSpec P)
    (region : CDPHyperJoinRegion P) (meaning : PredicateMeaning P ν) (outer : Row ℕ ν)
    (hbuild : build root = some spec) (hspec : region.spec = some spec)
    (hfree : spec.hasDependencies = false) (hmixed : ∃ edge ∈ spec.edges, edge.joinType ≠ .inner)
    (hsup : root.CDCSupported) (hscope : root.WellScoped) (houter : OuterTo spec.atoms outer)
    (hsound : root.NullRejectingSound meaning) (hsafe : root.SafeOuterJoins meaning)
    (plan : JoinPlan) (hplan : plan.Accepted region)
    (hfull : plan.nodes = Finset.range spec.nodeCount) (db : Database ν spec.atoms) :
    plan.rows region meaning outer db.rows = root.rows meaning outer db.rows 0 := by
  have hb := build_built hbuild
  have h : Reorderable meaning outer root spec (root.number 0 0) :=
    ⟨hb,hscope,houter,hsup,hsound,hsafe⟩
  have hlv : plan.nodes = (root.number 0 0).leaves := hfull.trans hb.leaves.symm
  have hpla := (accepted_computes h (hb.complexSpec hspec hmixed) hfree db.within plan hplan
    hlv.subset).eval
  rw [evalOn_number root hb.numbered hsup hlv.superset,Option.some.injEq] at hpla
  exact hpla.symm

/-- All plans that a Memo group may hold for one set of inputs compute the same rows. -/
theorem accepted_plans_agree (h : Reorderable meaning outer root spec t)
    (hspec : region.complexSpec = some spec) (hfree : spec.hasDependencies = false)
    (p q : JoinPlan) (hp : p.Accepted region) (hq : q.Accepted region) (hnodes : p.nodes = q.nodes)
    (hleaves : q.nodes ⊆ t.leaves) (db : Database ν spec.atoms) :
    p.rows region meaning outer db.rows = q.rows region meaning outer db.rows := by
  have heval (plan : JoinPlan) (hplan : plan.Accepted region) (hns : plan.nodes ⊆ t.leaves) :=
    (accepted_computes h hspec hfree db.within plan hplan hns).eval
  have hpe := heval p hp (hnodes ▸ hleaves)
  rw [hnodes,heval q hq hleaves,Option.some.injEq] at hpe
  exact hpe.symm

end

/-- A column equality, or a column that is NULL and another one that equals a value. -/
inductive OuterPredicate where
  | equal (left right : ℕ)
  | nullAndEquals (column other value : ℕ)
  deriving DecidableEq

namespace OuterPredicate

instance : ScalarPredicate OuterPredicate where
  usedColumns
    | equal left right => {left, right}
    | nullAndEquals column other _ => {column, other}
  fNullRejecting
    | equal left right, columns => left ∈ columns ∨ right ∈ columns
    | nullAndEquals _ other _, columns => other ∈ columns

def compare : Option ℕ → Option ℕ → Option Bool
  | some a, some b => some (a == b)
  | _, _ => none

def eval : OuterPredicate → Row ℕ ℕ → Option Bool
  | equal left right, row => compare (row left) (row right)
  | nullAndEquals column other value, row =>
    Kleene.and (some (row column).isNone) (compare (row other) (some value))

theorem compare_none_right (a : Option ℕ) : compare a none = none := by
  cases a <;> rfl

def meaning : PredicateMeaning OuterPredicate ℕ where
  eval := eval
  eval_congr := by
    intro p r s h
    cases p with
    | equal left right =>
      rw [eval,eval,h left (Finset.mem_insert_self _ _),
        h right (Finset.mem_insert_of_mem (Finset.mem_singleton_self _))]
    | nullAndEquals column other value =>
      rw [eval,eval,h column (Finset.mem_insert_self _ _),
        h other (Finset.mem_insert_of_mem (Finset.mem_singleton_self _))]

theorem nullRejectingSound (p : OuterPredicate) : meaning.NullRejectingSound p := by
  intro columns h r hr
  change eval p r ≠ some true
  cases p with
  | equal left right =>
    rcases of_decide_eq_true h with hmem | hmem
    · rw [eval,hr left hmem]
      exact nofun
    · rw [eval,hr right hmem,compare_none_right]
      exact nofun
  | nullAndEquals column other value =>
    rw [eval,hr other (of_decide_eq_true h)]
    cases (r column).isNone <;> exact nofun

end OuterPredicate

variable (p : OuterPredicate)

namespace FullOuterChain

def atoms : List CAtom := [⟨{0}, ∅⟩, ⟨{1}, ∅⟩, ⟨{2}, ∅⟩]

/-- `(a FULL JOIN b ON a = b) LEFT JOIN c ON p`, input `i` with the only column `i`. -/
def root : CExpression OuterPredicate :=
  .join .leftOuter
    (.join .fullOuter (.atom ⟨{0}, ∅⟩) (.atom ⟨{1}, ∅⟩) (.equal 0 1) none) (.atom ⟨{2}, ∅⟩) p none

def region : CDPHyperJoinRegion OuterPredicate :=
  ⟨atoms, [.equal 0 1, p], build (root p)⟩

def plan : JoinPlan := .join (.join (.atom 0) (.atom 2)) (.atom 1)

/-- No row of `a`, one of `b` and two equal rows of `c`. -/
def rows : ℕ → Multiset (Row ℕ ℕ)
  | 1 => {fun col => if col = 1 then some 1 else none}
  | 2 => Multiset.replicate 2 fun col => if col = 2 then some 1 else none
  | _ => 0

def database {inputs : List CAtom} (h : inputs = atoms) : Database ℕ inputs where
  rows := rows
  within := by
    subst h
    intro node row hrow col hcol
    match node with
    | 1 =>
      rw [rows, Multiset.mem_singleton] at hrow
      subst hrow
      apply if_neg
      rintro rfl
      exact hcol (Finset.mem_singleton_self 1)
    | 2 =>
      rw [rows] at hrow
      rw [Multiset.eq_of_mem_replicate hrow]
      apply if_neg
      rintro rfl
      exact hcol (Finset.mem_singleton_self 2)
    | 0 => exact (Multiset.notMem_zero row hrow).elim
    | _ + 3 => exact (Multiset.notMem_zero row hrow).elim

theorem supported : (root p).CDCSupported := by
  rintro joinType l r q (⟨rfl,_⟩ | (⟨rfl,_⟩ | h | h) | h)
  · rfl
  · rfl
  all_goals exact h.elim

theorem sound : (root p).NullRejectingSound OuterPredicate.meaning :=
  fun _ _ _ q _ => q.nullRejectingSound

theorem safe_equal : (root (.equal 0 2)).SafeOuterJoins OuterPredicate.meaning := by
  rintro l r p (⟨_,rfl,rfl,rfl⟩ | (⟨h,_⟩ | h | h) | h)
  · intro cl cr q _ _ _ row hnull
    have hzero : row 0 = none := hnull 0 (by decide)
    change OuterPredicate.compare (row 0) (row 2) ≠ some true
    rw [hzero]
    exact nofun
  · cases h
  all_goals exact h.elim

theorem wellScoped_equal : (root (.equal 0 2)).WellScoped := by
  constructor
  · decide
  · rintro joinType l r q (⟨_,rfl,rfl,rfl⟩ | (⟨_,rfl,rfl,rfl⟩ | h | h) | h)
    · decide
    · decide
    all_goals exact h.elim

theorem equal_isSome : (build (root (.equal 0 2))).isSome = true := by decide +kernel

theorem nullAndEquals_isSome : (build (root (.nullAndEquals 0 2 1))).isSome = true := by
  decide +kernel

theorem outerTo_null (inputs : List CAtom) : OuterTo inputs (Row.null : Row ℕ ℕ) :=
  fun _ _ _ => rfl

theorem equal_plan_rows :
    plan.rows (region (.equal 0 2)) OuterPredicate.meaning Row.null rows =
      (root (.equal 0 2)).rows OuterPredicate.meaning Row.null rows 0 := by
  have hb := (Option.some_get equal_isSome).symm
  have hplan : plan.Accepted (region (.equal 0 2)) := by
    refine ⟨⟨trivial,trivial,?_,?_⟩,trivial,?_,?_⟩ <;> decide +kernel
  exact accepted_plan_rows (root (.equal 0 2)) ((build (root (.equal 0 2))).get equal_isSome)
    (region (.equal 0 2)) OuterPredicate.meaning Row.null hb hb (by decide +kernel)
    (by decide +kernel) (supported _) wellScoped_equal (outerTo_null _) (sound _)
    safe_equal plan hplan (by decide +kernel) (database (by decide +kernel))

theorem equal_plans_agree :
    plan.rows (region (.equal 0 2)) OuterPredicate.meaning Row.null rows =
      (join (join (.atom 0) (.atom 1)) (.atom 2)).rows (region (.equal 0 2)) OuterPredicate.meaning
        Row.null rows := by
  have hb := (Option.some_get equal_isSome).symm
  refine accepted_plans_agree ⟨build_built hb,wellScoped_equal,outerTo_null _,supported _,
    sound _,safe_equal⟩ ((build_built hb).complexSpec hb (by decide +kernel)) (by decide +kernel)
    plan _ ?_ ?_ (by decide) (by decide) (database (by decide +kernel)) <;>
    refine ⟨⟨trivial,trivial,?_,?_⟩,trivial,?_,?_⟩ <;> decide +kernel

/-- The full join and the left join are exchanged although the left predicate is TRUE on a
NULL row of its left input: the original tree has two rows and the plan has one. -/
theorem nullAndEquals_plan_rows :
    ∃ spec, build (root (.nullAndEquals 0 2 1)) = some spec ∧ spec.hasDependencies = false ∧
      (∃ edge ∈ spec.edges, edge.joinType ≠ .inner) ∧
      (root (.nullAndEquals 0 2 1)).CDCSupported ∧ (root (.nullAndEquals 0 2 1)).WellScoped ∧
      (root (.nullAndEquals 0 2 1)).NullRejectingSound OuterPredicate.meaning ∧
      OuterTo spec.atoms (Row.null : Row ℕ ℕ) ∧
      plan.Accepted (region (.nullAndEquals 0 2 1)) ∧
      plan.nodes = Finset.range spec.nodeCount ∧
      ∃ db : Database ℕ spec.atoms,
        plan.rows (region (.nullAndEquals 0 2 1)) OuterPredicate.meaning Row.null db.rows ≠
          (root (.nullAndEquals 0 2 1)).rows OuterPredicate.meaning Row.null db.rows 0 := by
  refine ⟨(build (root (.nullAndEquals 0 2 1))).get nullAndEquals_isSome,
    (Option.some_get nullAndEquals_isSome).symm,by decide +kernel,by decide +kernel,
    supported _,⟨by decide,?_⟩,sound _,outerTo_null _,?_,by decide +kernel,
    database (by decide +kernel),?_⟩
  · rintro joinType l r q (⟨_,rfl,rfl,rfl⟩ | (⟨_,rfl,rfl,rfl⟩ | h | h) | h)
    · decide
    · decide
    all_goals exact h.elim
  · refine ⟨⟨trivial,trivial,?_,?_⟩,trivial,?_,?_⟩ <;> decide +kernel
  · intro heq
    have hcard := congrArg Multiset.card heq
    revert hcard
    decide +kernel

end FullOuterChain

end PgOrca
