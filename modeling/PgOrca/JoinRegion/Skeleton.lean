import PgOrca.JoinRegion.Conservation
import PgOrca.JoinRegion.Homogeneous
import PgOrca.JoinRegion.RegionGraph

/-!
# The original tree in the graph of its region

`FBuildBinarySkeletonPlan` replays the original tree as a plan. In a mixed region this works when
the predicate of a join refers to no input outside the join.
-/

namespace PgOrca

open CJoinRegionSpec SRegionGraph Finset List CDPHyperPlan
open Option (some some_get filter_some)

variable {P : Type*}

namespace CDPHyperJoinRegion

/-- The cut of an original join is connected by an edge that may be applied there, and the
request for it is the join itself. -/
structure KeepsCut (region : CDPHyperJoinRegion P) (spec : CJoinRegionSpec P) (g : CDPHyperGraph)
    (id : ℕ) (edge : CEdge P) : Prop where
  connected : ∃ e ∈ g.edges, e.left ⊆ edge.left ∧ e.right ⊆ edge.right ∧
    (region.fPairApplicable edge.left edge.right e.edgeId).isSome
  request : ∃ request, region.fBuildJoinRequest edge.left edge.right = some request ∧
    request.swapped = false ∧ request.joinType = edge.joinType ∧
    (spec.pureInner = false → request.edgeIds = [id])

structure KeepsTree {C : Type*} (region : CDPHyperJoinRegion (CScalar C))
    (spec : CJoinRegionSpec (CScalar C)) (g : CDPHyperGraph) : Prop where
  cuts : ∀ id edge, spec.edges[id]? = some edge → region.KeepsCut spec g id edge
  subtrees : ∀ edge ∈ spec.edges, Constructible g.Joins edge.all
  skeleton : ∀ pairBudget, spec.nodeCount - 1 ≤ pairBudget →
    ∃ plan, region.fBuildBinarySkeletonPlan spec (CDPHyperPlan.new pairBudget none) = some plan ∧
      plan.complete spec.nodeCount = true ∧ plan.pairCount = spec.nodeCount - 1

variable {region : CDPHyperJoinRegion P} {spec : CJoinRegionSpec P} {id : ℕ} {edge : CEdge P}
  {left right : Finset ℕ}

/-! ## Pure inner regions -/

section

variable (hcomplex : region.complexSpec = none)
  (hfree : ∀ spec, region.spec = some spec → spec.hasDependencies = false)

include hfree in
theorem fDependencyApplicable_of_free :
    region.fDependencyApplicable left right = some SDirection.free := by
  unfold fDependencyApplicable
  split
  · rfl
  case h_2 spec hspec =>
    rw [if_neg]
    rw [hfree spec hspec]
    exact Bool.false_ne_true

include hcomplex hfree in
theorem fBuildJoinRequest_of_free :
    region.fBuildJoinRequest left right = some ⟨.inner, false, false, none, []⟩ := by
  unfold fBuildJoinRequest
  rw [fDependencyApplicable_of_free hfree]
  dsimp only
  rw [hcomplex]
  rfl

include hcomplex hfree in
theorem fPairApplicable_of_free (edgeId : ℕ) :
    region.fPairApplicable left right edgeId = some false := by
  unfold fPairApplicable
  rw [fDependencyApplicable_of_free hfree,hcomplex]
  rfl

theorem exists_coverEdge {cover : Finset ℕ} (predicateId : ℕ) (hd : Disjoint left right)
    (hsub : cover ⊆ left ∪ right) (hl : ¬ Disjoint left cover) (hr : ¬ Disjoint right cover) :
    ∃ e ∈ coverEdges predicateId cover,
      e.sides = (left ∩ cover, right ∩ cover) ∨ e.sides = (right ∩ cover, left ∩ cover) := by
  have hne : (left ∩ cover).Nonempty := not_disjoint_iff_nonempty_inter.mp hl
  have hne' : (right ∩ cover).Nonempty := not_disjoint_iff_nonempty_inter.mp hr
  have hdisj : Disjoint (left ∩ cover) (right ∩ cover) :=
    hd.mono inter_subset_left inter_subset_left
  have hun : left ∩ cover ∪ right ∩ cover = cover := by
    rw [← union_inter_distrib_right,inter_eq_right]
    exact hsub
  have hlow : lowestBit cover ∈ cover := lowestBit_mem (hne.mono inter_subset_right)
  rcases mem_union.mp (hsub hlow) with hin | hin
  · refine ⟨⟨left ∩ cover,right ∩ cover,predicateId⟩,mem_coverEdges.mpr ?_,.inl rfl⟩
    exact ⟨rfl,hne',mem_inter.mpr ⟨hin,hlow⟩,hdisj,hun⟩
  · refine ⟨⟨right ∩ cover,left ∩ cover,predicateId⟩,mem_coverEdges.mpr ?_,.inr rfl⟩
    refine ⟨rfl,hne,mem_inter.mpr ⟨hin,hlow⟩,hdisj.symm,?_⟩
    rw [union_comm]
    exact hun

variable [ScalarPredicate P]

theorem PredicateEdges.connects_cut {s : SRegionGraph} {skeleton cartesian : List SEdge}
    (h : region.PredicateEdges s skeleton cartesian) (hd : Disjoint left right)
    (hcut : (left, right) ∈ region.skeletonEdges) :
    ∃ e ∈ s.graph.edges, e.left ⊆ left ∧ e.right ⊆ right := by
  rw [h.graph]
  simp only [CDPHyperGraph.mem_edges_ofEdges]
  rcases h.skeleton_all _ hcut with ⟨predicate,hmem,_,hsub,hl,hr⟩ | ⟨e,he,hsd⟩
  · obtain ⟨predicateId,hid⟩ := mem_iff_getElem?.mp hmem
    obtain ⟨e,he,hsd⟩ := exists_coverEdge predicateId hd hsub hl hr
    have hin : e ∈ (region.conjuncts.zipIdx.flatMap fun predicate =>
        coverEdges predicate.2 (region.predicateCover predicate.1)) ++ skeleton ++ cartesian := by
      refine mem_append_left _ (mem_append_left _ ?_)
      exact mem_flatMap.mpr ⟨(predicate, predicateId),List.mem_zipIdx_iff_getElem?.mpr hid,he⟩
    rcases hsd with hsd | hsd
    · obtain ⟨hleft,hrt⟩ := Prod.mk.inj hsd
      refine ⟨e,⟨e,hin,.inl rfl⟩,?_,?_⟩
      · rw [hleft]
        exact inter_subset_left
      · rw [hrt]
        exact inter_subset_left
    · obtain ⟨hleft,hrt⟩ := Prod.mk.inj hsd
      refine ⟨e.mirror,⟨e,hin,.inr rfl⟩,?_,?_⟩
      · rw [SEdge.mirror_left,hrt]
        exact inter_subset_left
      · rw [SEdge.mirror_right,hleft]
        exact inter_subset_left
  · obtain ⟨hleft,hrt⟩ := Prod.mk.inj hsd
    refine ⟨e,⟨e,?_,.inl rfl⟩,hleft.subset,hrt.subset⟩
    exact mem_append_left _ (mem_append_right _ he)

end

/-! ## Mixed regions -/

section

variable [ScalarPredicate P] {root : CExpression P} {t : BinaryTree ℕ ℕ} {tes : Finset ℕ}

theorem fApplicable_own_cut (hb : Built root spec t) (hedge : spec.edges[id]? = some edge)
    (helig : Eligible spec.atoms (spec.edges.take id) edge tes)
    (hcov : pbsPredicateCover spec.atoms edge.predicate ⊆ edge.all) :
    edge.fApplicable edge.left edge.right = true := by
  have hrl : ∀ rule ∈ edge.conflictRules, rule.Holds (edge.left ∪ edge.right) := by
    intro rule hrule _
    obtain ⟨child,_,hch⟩ := helig.rules_from rule hrule
    exact childRules_required_subset hch
  unfold CEdge.fApplicable
  rw [helig.tes_eq]
  simp only [CEdge.tesApplicable,CEdge.tesOriented,Bool.and_eq_true,Bool.or_eq_true,
    decide_eq_true_eq]
  refine ⟨⟨hb.sides_disjoint hedge,helig.within hcov,helig.meets_left,helig.meets_right,
    hrl⟩,.inr fun _ _ => ⟨fun h => h,fun h => h⟩⟩

theorem eq_of_connecting_cut (hb : Built root spec t) (hedge : spec.edges[id]? = some edge)
    {id' : ℕ} {edge' : CEdge P} (hedge' : spec.edges[id']? = some edge')
    (helig : Eligible spec.atoms (spec.edges.take id') edge' tes)
    (hcov : pbsPredicateCover spec.atoms edge'.predicate ⊆ edge'.all)
    (hsub : tes ⊆ edge.left ∪ edge.right) (hl : ¬ Disjoint tes edge.left)
    (hr : ¬ Disjoint tes edge.right) : id' = id := by
  obtain ⟨l,r,hbr,hleft,hrt⟩ := hb.exists_branch hedge
  obtain ⟨l',r',hbr',hleft',hr'⟩ := hb.exists_branch hedge'
  have hall : edge'.all ⊆ edge.all := by
    rw [CEdge.all,CEdge.all,hleft,hrt,hleft',hr']
    rw [hleft,hrt] at hsub
    apply hbr.leaves_subset_of_meets hb.separated hbr'
    · rw [← hleft']
      exact fun hd => helig.meets_left (hd.mono_left hsub)
    · rw [← hr']
      exact fun hd => helig.meets_right (hd.mono_left hsub)
  have htes := helig.within hcov
  rcases hb.below hedge hedge' hall with heq | ⟨_,hside | hside⟩
  · exact heq
  · exact absurd ((hb.sides_disjoint hedge).mono_left (htes.trans hside)) hr
  · exact absurd ((hb.sides_disjoint hedge).symm.mono_left (htes.trans hside)) hl

variable (hcomplex : region.complexSpec = some spec) (hfree : spec.hasDependencies = false)

omit [ScalarPredicate P] in
include hcomplex hfree in
theorem fPairApplicable_of_fApplicable (hedge : spec.edges[id]? = some edge)
    (h : edge.fApplicable left right = true) :
    region.fPairApplicable left right id = some false := by
  unfold fPairApplicable
  rw [fDependencyApplicable_free hcomplex hfree,hcomplex]
  dsimp only
  rw [hedge]
  dsimp only
  rw [if_pos h]
  rfl

omit [ScalarPredicate P] in
include hcomplex hfree in
theorem fBuildJoinRequest_of_single (hedge : spec.edges[id]? = some edge)
    (happ : region.applicableEdges left right = [⟨id, false⟩]) :
    ∃ request, region.fBuildJoinRequest left right = some request ∧ request.swapped = false ∧
      request.joinType = edge.joinType ∧ request.edgeIds = [id] := by
  unfold fBuildJoinRequest
  simp only [fDependencyApplicable_free hcomplex hfree,hcomplex,happ,cons_ne_self,
    if_false,foldl_cons,foldl_nil,length_singleton,addEdge,hedge,SDirection.free,nil_append]
  by_cases hinn : edge.joinType = .inner
  · simp [hinn]
  · simp [hinn,orient]

include hcomplex hfree in
theorem applicableEdges_own_cut (hbuild : CJoinRegionSpec.build root = some spec)
    (hcdc : spec.cdcSupported = true) (hedge : spec.edges[id]? = some edge)
    (hcv : ∀ edge ∈ spec.edges, pbsPredicateCover spec.atoms edge.predicate ⊆ edge.all) :
    region.applicableEdges edge.left edge.right = [⟨id, false⟩] := by
  have hb := build_built hbuild
  obtain ⟨tes,helig⟩ := build_eligible hbuild hcdc hedge
  have hown := fPairApplicable_of_fApplicable hcomplex hfree hedge
    (fApplicable_own_cut hb hedge helig (hcv edge (mem_of_getElem? hedge)))
  have hmem : ∀ candidate, candidate ∈ region.applicableEdges edge.left edge.right ↔
      candidate = ⟨id,false⟩ := by
    intro ⟨id',swapped⟩
    rw [mem_applicableEdges hcomplex]
    constructor
    · intro ⟨_,hpair⟩
      obtain ⟨edge',hedge',happ⟩ := fPairApplicable_eq_some hcomplex hpair
      obtain ⟨tes',helig'⟩ := build_eligible hbuild hcdc hedge'
      obtain ⟨_,htes,hconn⟩ := CEdge.fApplicable_eq_true happ
      rw [helig'.tes_eq,some.injEq] at htes
      subst htes
      have hid : id' = id := by
        refine eq_of_connecting_cut hb hedge hedge' helig'
          (hcv edge' (mem_of_getElem? hedge')) ?_ ?_ ?_
        all_goals cases swapped
        · exact hconn.tes_subset
        · rw [union_comm]
          exact hconn.tes_subset
        · exact hconn.meets_left
        · exact hconn.meets_right
        · exact hconn.meets_right
        · exact hconn.meets_left
      subst hid
      rw [hown,some.injEq] at hpair
      exact congrArg (SApplicableEdge.mk id') hpair.symm
    · intro heq
      obtain ⟨rfl,rfl⟩ := SApplicableEdge.mk.inj heq
      exact ⟨(List.getElem?_eq_some_iff.mp hedge).1,hown⟩
  have hnd : (region.applicableEdges edge.left edge.right).Nodup :=
    (nodup_range.sublist (applicableEdges_sublist hcomplex)).of_map _
  refine perm_singleton.mp ((perm_ext_iff_of_nodup hnd ?_).mpr fun candidate => ?_)
  · exact nodup_singleton _
  · rw [hmem,List.mem_singleton]

include hcomplex in
theorem cover_subset_of_request (hbuild : CJoinRegionSpec.build root = some spec)
    (hcdc : spec.cdcSupported = true) (hedge : spec.edges[id]? = some edge)
    {request : SJoinRequest P} (hreq : region.fBuildJoinRequest edge.left edge.right = some request)
    (hids : request.edgeIds = [id]) : pbsPredicateCover spec.atoms edge.predicate ⊆ edge.all := by
  obtain ⟨tes,helig⟩ := build_eligible hbuild hcdc hedge
  have hmem : id ∈ (region.applicableEdges edge.left edge.right).map SApplicableEdge.edgeId := by
    rw [← (fBuildJoinRequest_edgeIds hcomplex hreq).1,hids]
    exact List.mem_singleton_self id
  obtain ⟨⟨_,swapped⟩,hcan,rfl⟩ := List.mem_map.mp hmem
  obtain ⟨_,hpair⟩ := (mem_applicableEdges hcomplex).mp hcan
  obtain ⟨edge',hedge',happ⟩ := fPairApplicable_eq_some hcomplex hpair
  rw [hedge,some.injEq] at hedge'
  subst hedge'
  obtain ⟨_,htes,hconn⟩ := CEdge.fApplicable_eq_true happ
  rw [helig.tes_eq,some.injEq] at htes
  subst htes
  refine helig.cover_subset.trans ?_
  cases swapped with
  | false => exact hconn.tes_subset
  | true =>
    rw [CEdge.all,union_comm]
    exact hconn.tes_subset

end

/-! ## Replaying the tree -/

section

variable {C : Type*} [ScalarLeaf C] {root : CExpression (CScalar C)}
  {spec : CJoinRegionSpec (CScalar C)} {region : CDPHyperJoinRegion (CScalar C)}
  {edge : CEdge (CScalar C)} {t : BinaryTree ℕ ℕ} {g : CDPHyperGraph}

theorem constructible_subtree (hb : Built root spec t)
    (hcuts : ∀ (id : ℕ) (edge : CEdge (CScalar C)), spec.edges[id]? = some edge →
      Connects g.Joins edge.left edge.right)
    (hedge : spec.edges[id]? = some edge) : Constructible g.Joins edge.all := by
  -- the sides of an edge are inputs or edges with a smaller number
  induction id using Nat.strongRecOn generalizing edge with
  | ind id ih =>
    have hside : ∀ side, side = edge.left ∨ side = edge.right → Constructible g.Joins side := by
      intro side hside
      rcases hb.side_earlier hedge hside with ⟨node,_,rfl⟩ | ⟨id',hlt,edge',hedge',rfl⟩
      · exact .singleton node
      · exact ih id' hlt hedge'
    exact .union (hside _ (.inl rfl)) (hside _ (.inr rfl)) (hb.sides_disjoint hedge)
      (hcuts id edge hedge)

/-- The plan after the first `count` joins of the tree. -/
structure Replayed (spec : CJoinRegionSpec (CScalar C)) (pairBudget count : ℕ) (plan : CDPHyperPlan) :
    Prop where
  singles : ∀ node < spec.nodeCount, {node} ∈ plan.seen
  subtrees : ∀ (id : ℕ) (edge : CEdge (CScalar C)), id < count → spec.edges[id]? = some edge →
    edge.all ∈ plan.seen
  pairs : plan.pairs.map SPair.sides =
    (spec.edges.take count).map fun edge => (edge.left, edge.right)
  pairBudget_eq : plan.pairBudget = pairBudget
  pairFilter_eq : plan.pairFilter = none
  unspent : plan.budgetExhausted = false

omit [ScalarLeaf C] in
theorem foundSingleNodes_replayed (spec : CJoinRegionSpec (CScalar C)) (pairBudget : ℕ) :
    Replayed spec pairBudget 0 ((List.range spec.nodeCount).foldl
      (fun plan node => (foundSingleNode node plan).2)
      (CDPHyperPlan.new pairBudget none)) := by
  have hall : ∀ nodes : List ℕ, ∀ plan : CDPHyperPlan,
      plan = nodes.foldl (fun plan node => (foundSingleNode node plan).2)
        (CDPHyperPlan.new pairBudget none) →
      (∀ node ∈ nodes, {node} ∈ plan.seen) ∧ plan.pairs = [] ∧ plan.pairBudget = pairBudget ∧
        plan.pairFilter = none ∧ plan.budgetExhausted = false := by
    intro nodes
    induction nodes using reverseRecOn with
    | nil =>
      rintro plan rfl
      exact ⟨fun _ hnode => absurd hnode not_mem_nil,rfl,rfl,rfl,rfl⟩
    | append_singleton nodes node ih =>
      rintro plan rfl
      obtain ⟨hseen,hps,hbu,hfil,huns⟩ := ih _ rfl
      rw [foldl_append,foldl_cons,foldl_nil,foundSingleNode]
      refine ⟨?_,?_,?_,?_,?_⟩
      · intro node' hnode'
        rw [mem_seen_recordSeen]
        rcases mem_append.mp hnode' with hnode' | hnode'
        · exact .inl (hseen node' hnode')
        · exact .inr (by rw [List.mem_singleton.mp hnode'])
      · rw [pairs_recordSeen]
        exact hps
      · rw [pairBudget_recordSeen]
        exact hbu
      · rw [pairFilter_recordSeen]
        exact hfil
      · rw [recordSeen]
        split <;> exact huns
  obtain ⟨hseen,hps,hbu,hfil,huns⟩ := hall _ _ rfl
  refine ⟨fun node hnode => hseen node (List.mem_range.mpr hnode),?_,?_,hbu,hfil,huns⟩
  · exact fun id _ hid => absurd hid (Nat.not_lt_zero id)
  · rw [hps]
    rfl

section

variable (hb : Built root spec t) {pairBudget : ℕ} {plan : CDPHyperPlan}

include hb

theorem Replayed.seen_side (h : Replayed spec pairBudget id plan)
    (hedge : spec.edges[id]? = some edge) {side : Finset ℕ}
    (hside : side = edge.left ∨ side = edge.right) : side ∈ plan.seen := by
  rcases hb.side_earlier hedge hside with ⟨node,hnode,rfl⟩ | ⟨id',hlt,edge',hedge',rfl⟩
  · exact h.singles node hnode
  · exact h.subtrees id' edge' hlt hedge'

theorem Replayed.ppair_none (h : Replayed spec pairBudget id plan)
    (hedge : spec.edges[id]? = some edge) : plan.ppair edge.left edge.right = none := by
  unfold ppair
  rw [findIdx?_eq_none_iff]
  intro pair hpair
  rw [decide_eq_false_iff_not]
  intro hsd
  have hmem : pair.sides ∈ (spec.edges.take id).map fun edge => (edge.left, edge.right) := by
    rw [← h.pairs]
    exact List.mem_map.mpr ⟨pair,hpair,rfl⟩
  obtain ⟨edge',hedge',heq⟩ := List.mem_map.mp hmem
  obtain ⟨hleft,hrt⟩ := Prod.mk.inj heq
  obtain ⟨id',hid'⟩ := mem_iff_getElem?.mp hedge'
  have hlt : id' < id := by
    have := (List.getElem?_eq_some_iff.mp hid').1
    rw [length_take] at this
    omega
  rw [List.getElem?_take_of_lt hlt] at hid'
  have hall : edge'.all = edge.all := by
    rw [CEdge.all,CEdge.all,hleft,hrt]
    rcases hsd with ⟨hl,hr⟩ | ⟨hl,hr⟩
    · rw [hl,hr]
    · rw [hl,hr,union_comm]
  exact absurd (hb.all_injective hid' hedge hall) (Nat.ne_of_lt hlt)

theorem Replayed.step (hbu : spec.nodeCount - 1 ≤ pairBudget)
    (h : Replayed spec pairBudget id plan) (hedge : spec.edges[id]? = some edge)
    (hreq : (region.fBuildJoinRequest edge.left edge.right).isSome) :
    ∃ plan', region.skeletonCut plan (edge, id) = some plan' ∧
      Replayed spec pairBudget (id + 1) plan' := by
  have hlt : id < spec.edgeCount := (List.getElem?_eq_some_iff.mp hedge).1
  have hlen : plan.pairs.length = id := by
    have := congrArg List.length h.pairs
    rw [length_map,length_map,length_take] at this
    exact this.trans (Nat.min_eq_left (Nat.le_of_lt hlt))
  have hroom : ¬ plan.pairBudget ≤ plan.pairs.length := by
    have := hb.edgeCount_succ
    rw [h.pairBudget_eq,hlen]
    omega
  have hstep : region.skeletonCut plan (edge, id) =
      some (recordSeen
        { plan with pairs := plan.pairs ++ [⟨edge.left,edge.right,[id]⟩] }
        (edge.left ∪ edge.right)).2 := by
    have hfd : foundSubgraphPair edge.left edge.right id plan =
        (false, (recordSeen
          { plan with pairs := plan.pairs ++ [⟨edge.left,edge.right,[id]⟩] }
          (edge.left ∪ edge.right)).2) := by
      unfold foundSubgraphPair
      rw [h.pairFilter_eq,if_neg,h.ppair_none hb hedge]
      · exact if_neg hroom
      · exact fun hno => hno rfl
    unfold skeletonCut
    rw [if_neg,if_neg]
    · rw [hfd]
      rfl
    · rw [Option.isNone_iff_eq_none]
      exact fun hnone => by rw [hnone] at hreq; cases hreq
    · rw [not_or,not_not,not_not,hasSeen_eq_true,hasSeen_eq_true]
      exact ⟨h.seen_side hb hedge (.inl rfl),h.seen_side hb hedge (.inr rfl)⟩
  refine ⟨_,hstep,?_,?_,?_,?_,?_,?_⟩
  · intro node hnode
    exact mem_seen_recordSeen.mpr (.inl (h.singles node hnode))
  · intro id' edge' hid' hedge'
    rw [mem_seen_recordSeen]
    rcases Nat.lt_succ_iff_lt_or_eq.mp hid' with hid' | rfl
    · exact .inl (h.subtrees id' edge' hid' hedge')
    · rw [hedge,some.injEq] at hedge'
      subst hedge'
      exact .inr rfl
  · have htake : spec.edges.take (id + 1) = spec.edges.take id ++ [edge] := by
      rw [take_add_one,hedge]
      rfl
    rw [pairs_recordSeen,map_append,h.pairs,htake,map_append]
    rfl
  · rw [pairBudget_recordSeen]
    exact h.pairBudget_eq
  · rw [pairFilter_recordSeen]
    exact h.pairFilter_eq
  · rw [recordSeen]
    split <;> exact h.unspent

theorem Replayed.cuts (hbu : spec.nodeCount - 1 ≤ pairBudget)
    (hreq : ∀ edge ∈ spec.edges, (region.fBuildJoinRequest edge.left edge.right).isSome)
    (before rest : List (CEdge (CScalar C) × ℕ)) (hsp : spec.edges.zipIdx = before ++ rest)
    (h : Replayed spec pairBudget before.length plan) :
    ∃ plan', rest.foldlM region.skeletonCut plan = some plan' ∧
      Replayed spec pairBudget spec.edgeCount plan' := by
  induction rest generalizing before plan with
  | nil =>
    have hlen := congrArg List.length hsp
    rw [length_zipIdx,append_nil] at hlen
    refine ⟨plan,rfl,?_⟩
    rwa [edgeCount,hlen]
  | cons edge rest ih =>
    obtain ⟨edge,id⟩ := edge
    have hat : spec.edges.zipIdx[before.length]? = some (edge, id) := by
      rw [hsp,List.getElem?_append_right le_rfl,Nat.sub_self]
      rfl
    have hmem := List.mem_zipIdx_iff_getElem?.mp (mem_of_getElem? hat)
    have hid : id = before.length := by
      rw [List.getElem?_zipIdx,Option.map_eq_some_iff] at hat
      obtain ⟨_,_,heq⟩ := hat
      have := (Prod.mk.inj heq).2
      omega
    rw [← hid] at h
    obtain ⟨next,hnext,hnex⟩ :=
      h.step hb hbu hmem (hreq edge (mem_of_getElem? hmem))
    have hlen : (before ++ [(edge, id)]).length = id + 1 := by
      rw [length_append,length_singleton,hid]
    obtain ⟨plan',hrun,hend⟩ := ih (before ++ [(edge, id)])
      (by rw [hsp,append_assoc,singleton_append]) (hlen ▸ hnex)
    refine ⟨plan',?_,hend⟩
    rw [foldlM_cons,hnext]
    exact hrun

end

theorem fBuildBinarySkeletonPlan_complete (hbuild : CJoinRegionSpec.build root = some spec)
    (hreq : ∀ edge ∈ spec.edges, (region.fBuildJoinRequest edge.left edge.right).isSome)
    {pairBudget : ℕ} (hbu : spec.nodeCount - 1 ≤ pairBudget) :
    ∃ plan, region.fBuildBinarySkeletonPlan spec (CDPHyperPlan.new pairBudget none) = some plan ∧
      plan.complete spec.nodeCount = true ∧ plan.pairCount = spec.nodeCount - 1 := by
  have hb := build_built hbuild
  obtain ⟨plan,hrun,hend⟩ := Replayed.cuts hb hbu hreq [] _ rfl
    (foundSingleNodes_replayed spec pairBudget)
  have hcnt := hb.edgeCount_succ
  have hpos : 0 < spec.edgeCount := by
    have := two_le_nodeCount hbuild
    omega
  have hco : plan.complete spec.nodeCount = true := by
    unfold complete
    rw [if_neg,hasSeen_eq_true]
    · obtain ⟨edge,hedge,hall⟩ := hb.last_edge hpos
      rw [← hall]
      exact hend.subtrees _ edge (Nat.sub_lt hpos Nat.one_pos) hedge
    · rw [hend.unspent]
      rintro (hff | hzero)
      · cases hff
      · omega
  refine ⟨plan,?_,hco,?_⟩
  · unfold fBuildBinarySkeletonPlan
    dsimp only
    rw [hrun]
    exact if_pos hco
  · have hlen := congrArg List.length hend.pairs
    rw [length_map,length_map,edgeCount,take_length] at hlen
    rw [pairCount,hlen]
    exact Nat.eq_sub_of_add_eq hcnt

end

end CDPHyperJoinRegion

section

open CDPHyperJoinRegion

variable {C : Type*} [ScalarLeaf C] {root : CExpression (CScalar C)}
  {spec : CJoinRegionSpec (CScalar C)} {region : CDPHyperJoinRegion (CScalar C)}
  {fContainsEquality : CScalar C → Bool} {edgeBudget : ℕ} {g : CDPHyperGraph}

section

variable (hbuild : CJoinRegionSpec.build root = some spec) {edge : CEdge (CScalar C)}

include hbuild

theorem keepsTree_of_cuts
    (hcuts : ∀ (id : ℕ) (edge : CEdge (CScalar C)), spec.edges[id]? = some edge →
      region.KeepsCut spec g id edge) : region.KeepsTree spec g := by
  refine ⟨hcuts,?_,?_⟩
  · intro edge hmem
    obtain ⟨id,hedge⟩ := mem_iff_getElem?.mp hmem
    refine constructible_subtree (build_built hbuild) (fun id edge hedge => ?_) hedge
    obtain ⟨e,he,hl,hr,_⟩ := (hcuts id edge hedge).connected
    exact ⟨e.left,e.right,CDPHyperGraph.joins_iff_mem.mpr ⟨e,he,rfl,rfl⟩,hl,hr⟩
  · intro pairBudget hbu
    refine fBuildBinarySkeletonPlan_complete hbuild (fun edge hmem => ?_) hbu
    obtain ⟨id,hedge⟩ := mem_iff_getElem?.mp hmem
    obtain ⟨request,hreq,_⟩ := (hcuts id edge hedge).request
    rw [hreq]
    rfl

private theorem keepsCut_pureInner (hspec : region.spec = some spec)
    (hfree : spec.hasDependencies = false) (hpure : spec.pureInner = true)
    (hg : (region.build fContainsEquality edgeBudget).1 = true) {id : ℕ}
    (hedge : spec.edges[id]? = some edge) :
    region.KeepsCut spec (region.build fContainsEquality edgeBudget).2.graph id edge := by
  have hb := build_built hbuild
  have hcomplex : region.complexSpec = none := by
    rw [complexSpec,hspec,filter_some,hpure]
    rfl
  have hfree' : ∀ spec', region.spec = some spec' → spec'.hasDependencies = false := by
    intro spec' hspec'
    rw [hspec,some.injEq] at hspec'
    rwa [← hspec']
  have hcut : (edge.left, edge.right) ∈ region.skeletonEdges := by
    rw [skeletonEdges,hspec]
    exact List.mem_map.mpr ⟨edge,mem_of_getElem? hedge,rfl⟩
  obtain ⟨skeleton,cartesian,hes⟩ := build_predicateEdges hcomplex hfree' hg
  obtain ⟨e,he,hl,hr⟩ := hes.connects_cut (hb.sides_disjoint hedge) hcut
  constructor
  · refine ⟨e,he,hl,hr,?_⟩
    rw [fPairApplicable_of_free hcomplex hfree']
    rfl
  · refine ⟨_,fBuildJoinRequest_of_free hcomplex hfree',rfl,?_,?_⟩
    · exact (hb.pureInner.mp hpure edge (mem_of_getElem? hedge)).symm
    · intro hmx
      rw [hpure] at hmx
      cases hmx

private theorem keepsCut_mixed (hcomplex : region.complexSpec = some spec)
    (hfree : spec.hasDependencies = false) (hcdc : spec.cdcSupported = true)
    (hcv : ∀ edge ∈ spec.edges, pbsPredicateCover spec.atoms edge.predicate ⊆ edge.all)
    (hg : (region.build fContainsEquality edgeBudget).1 = true) {id : ℕ}
    (hedge : spec.edges[id]? = some edge) :
    region.KeepsCut spec (region.build fContainsEquality edgeBudget).2.graph id edge := by
  have happ := applicableEdges_own_cut hcomplex hfree hbuild hcdc hedge hcv
  have hown : ⟨id,false⟩ ∈ region.applicableEdges edge.left edge.right := by
    rw [happ]
    exact List.mem_singleton_self _
  constructor
  · refine ⟨tesEdge (edge, id),?_,inter_subset_right,inter_subset_right,?_⟩
    · rw [build_tesEdges hcomplex hg,CDPHyperGraph.mem_edges_ofEdges]
      refine ⟨_,List.mem_map.mpr ⟨(edge, id),?_,rfl⟩,.inl rfl⟩
      exact List.mem_zipIdx_iff_getElem?.mpr hedge
    · rw [tesEdge,((mem_applicableEdges hcomplex).mp hown).2]
      rfl
  · obtain ⟨request,hreq,hsw,htype,hids⟩ :=
      fBuildJoinRequest_of_single hcomplex hfree hedge happ
    exact ⟨request,hreq,hsw,htype,fun _ => hids⟩

end

theorem build_keepsTree_iff (root : CExpression (CScalar C)) (spec : CJoinRegionSpec (CScalar C))
    (fContainsEquality : CScalar C → Bool) (edgeBudget : ℕ)
    (hbuild : CJoinRegionSpec.build root = some spec) (hcdc : spec.cdcSupported = true)
    (hfree : spec.hasDependencies = false)
    (hgraph : ((ofSpec spec).build fContainsEquality edgeBudget).1 = true) :
    (ofSpec spec).KeepsTree spec ((ofSpec spec).build fContainsEquality edgeBudget).2.graph ↔
      spec.pureInner = true ∨
        ∀ edge ∈ spec.edges, pbsPredicateCover spec.atoms edge.predicate ⊆ edge.all := by
  have hcomplex : spec.pureInner = false → (ofSpec spec).complexSpec = some spec := by
    intro hpure
    rw [complexSpec,ofSpec,filter_some,hpure]
    rfl
  constructor
  · intro h
    by_cases hpure : spec.pureInner = true
    · exact .inl hpure
    · right
      rw [Bool.not_eq_true] at hpure
      intro edge hmem
      obtain ⟨id,hedge⟩ := mem_iff_getElem?.mp hmem
      obtain ⟨request,hreq,_,_,hids⟩ := (h.cuts id edge hedge).request
      exact cover_subset_of_request (hcomplex hpure) hbuild hcdc hedge hreq (hids hpure)
  · intro h
    refine keepsTree_of_cuts hbuild fun id edge hedge => ?_
    by_cases hpure : spec.pureInner = true
    · exact keepsCut_pureInner hbuild rfl hfree hpure hgraph hedge
    · have hcv := h.resolve_left hpure
      rw [Bool.not_eq_true] at hpure
      exact keepsCut_mixed hbuild (hcomplex hpure) hfree hcdc hcv hgraph hedge

end

/-! ## A left join inside a lateral subquery -/

namespace LateralSubquery

open CDPHyperJoinRegion FilteredChain

/-- `a CROSS JOIN LATERAL (b LEFT JOIN c ON c = x)`, where `x` is the column of input `column`. -/
def root (column : ℕ) : CExpression (CScalar ColumnTest) :=
  .join .inner (.atom ⟨{0}, ∅⟩)
    (.join .leftOuter (.atom ⟨{1}, ∅⟩) (.atom ⟨{2}, ∅⟩) (.other (.equal 2 column)) none)
    (.constBool true) none

theorem correlated_isSome : (CJoinRegionSpec.build (root 0)).isSome = true := by decide +kernel

theorem plain_isSome : (CJoinRegionSpec.build (root 1)).isSome = true := by decide +kernel

def correlated : CJoinRegionSpec (CScalar ColumnTest) :=
  (CJoinRegionSpec.build (root 0)).get correlated_isSome

def plain : CJoinRegionSpec (CScalar ColumnTest) :=
  (CJoinRegionSpec.build (root 1)).get plain_isSome

/-- The graph is built, but the left join cannot be applied at its own cut: its predicate waits
for `a`. -/
theorem correlated_cut_rejected :
    CJoinRegionSpec.build (root 0) = some correlated ∧ correlated.cdcSupported = true ∧
      correlated.hasDependencies = false ∧
      ((ofSpec correlated).build (fun _ => true) 10).1 = true ∧
      correlated.edges.map (fun edge => (edge.left, edge.right)) = [({1}, {2}), ({0}, {1, 2})] ∧
      ((ofSpec correlated).fBuildJoinRequest {1} {2}).isNone = true ∧
      ((ofSpec correlated).fBuildBinarySkeletonPlan correlated
        (CDPHyperPlan.new 2 none)).isNone = true := by
  refine ⟨(some_get correlated_isSome).symm,?_,?_,?_,?_,?_,?_⟩
  all_goals decide +kernel

theorem plain_keepsTree :
    (ofSpec plain).KeepsTree plain ((ofSpec plain).build (fun _ => true) 10).2.graph :=
  (build_keepsTree_iff (root 1) plain (fun _ => true) 10 (some_get plain_isSome).symm
    (by decide +kernel) (by decide +kernel) (by decide +kernel)).mpr (.inr (by decide +kernel))

end LateralSubquery

end PgOrca
