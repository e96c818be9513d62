import PgOrca.JoinRegion.Eligibility
import PgOrca.JoinRegion.Request

/-!
# Edge conservation

No node set contains the TES of more original edges than it has nodes less one, and every accepted
join adds at least one edge. So every plan applies as many edges as it has joins.
-/

namespace PgOrca

open Finset

variable {P : Type*}

inductive JoinPlan where
  | atom (node : ℕ)
  | join (left right : JoinPlan)
  deriving DecidableEq

namespace JoinPlan

def nodes : JoinPlan → Finset ℕ
  | atom node => {node}
  | join l r => l.nodes ∪ r.nodes

end JoinPlan

variable {left right : Finset ℕ}

namespace CJoinRegionSpec

variable {spec : CJoinRegionSpec P}

def tesOf (spec : CJoinRegionSpec P) (edgeId : ℕ) : Option (Finset ℕ) :=
  spec.edges[edgeId]?.bind CEdge.tes

def coveredEdges (spec : CJoinRegionSpec P) (nodes : Finset ℕ) : Finset ℕ :=
  (Finset.range spec.edgeCount).filter fun edgeId => ∃ tes ∈ spec.tesOf edgeId, tes ⊆ nodes

theorem mem_coveredEdges {nodes : Finset ℕ} {edgeId : ℕ} :
    edgeId ∈ spec.coveredEdges nodes ↔ ∃ tes ∈ spec.tesOf edgeId, tes ⊆ nodes := by
  rw [coveredEdges,mem_filter,mem_range,and_iff_right_iff_imp]
  intro ⟨tes,htes,_⟩
  obtain ⟨edge,hedge,_⟩ := Option.bind_eq_some_iff.mp htes
  exact (List.getElem?_eq_some_iff.mp hedge).1

theorem coveredEdges_mono {s t : Finset ℕ} (h : s ⊆ t) :
    spec.coveredEdges s ⊆ spec.coveredEdges t := by
  intro edgeId hid
  rw [mem_coveredEdges] at hid ⊢
  obtain ⟨tes,htes,hsub⟩ := hid
  exact ⟨tes,htes,hsub.trans h⟩

variable [ScalarPredicate P] {root : CExpression P} {spec : CJoinRegionSpec P}
  {t : BinaryTree ℕ ℕ}

section

variable (hb : Built root spec t)

include hb

theorem Built.tesOf_meets {edgeId : ℕ} {tes : Finset ℕ} (h : tes ∈ spec.tesOf edgeId) :
    ∃ edge, spec.edges[edgeId]? = some edge ∧ ¬ Disjoint tes edge.left ∧
      ¬ Disjoint tes edge.right := by
  obtain ⟨edge,hedge,htes⟩ := Option.bind_eq_some_iff.mp h
  rcases hb.eligible edgeId edge hedge with hnone | ⟨tes',helig⟩
  · rw [hnone] at htes
    cases htes
  · rw [helig.tes_eq,Option.some.injEq] at htes
    subst htes
    exact ⟨edge,hedge,helig.meets_left,helig.meets_right⟩

theorem Built.coveredEdges_subset_cut (nodes : Finset ℕ) :
    spec.coveredEdges nodes ⊆ (t.cut nodes).toFinset := by
  intro edgeId hid
  obtain ⟨tes,htes,hsub⟩ := mem_coveredEdges.mp hid
  obtain ⟨edge,hedge,hleft,hrt⟩ := hb.tesOf_meets htes
  have hlb : edgeId ∈ t.labels := by
    rw [hb.labels]
    exact List.mem_range.mpr (List.getElem?_eq_some_iff.mp hedge).1
  obtain ⟨tl,tr,hbr⟩ := BinaryTree.mem_labels.mp hlb
  obtain ⟨edge',hedge',hl,hr⟩ := hb.numbered.sides hbr
  rw [hedge,Option.some.injEq] at hedge'
  subst hedge'
  rw [List.mem_toFinset,BinaryTree.mem_cut]
  refine ⟨tl,tr,hbr,?_,?_⟩
  · rw [← hl]
    exact fun hd => hleft (hd.mono_left hsub)
  · rw [← hr]
    exact fun hd => hrt (hd.mono_left hsub)

theorem Built.card_coveredEdges_le (nodes : Finset ℕ) :
    (spec.coveredEdges nodes).card ≤ nodes.card - 1 := by
  calc (spec.coveredEdges nodes).card
      ≤ (t.cut nodes).toFinset.card := card_le_card (hb.coveredEdges_subset_cut nodes)
    _ ≤ (t.cut nodes).length := List.toFinset_card_le _
    _ = (nodes ∩ t.leaves).card - 1 := BinaryTree.length_cut hb.separated
    _ ≤ nodes.card - 1 :=
        Nat.sub_le_sub_right (card_le_card inter_subset_left) 1

theorem Built.disjoint_coveredEdges (h : Disjoint left right) :
    Disjoint (spec.coveredEdges left) (spec.coveredEdges right) := by
  rw [disjoint_left]
  intro edgeId hl hr
  obtain ⟨tes,htes,hsubl⟩ := mem_coveredEdges.mp hl
  obtain ⟨tes',htes',hsubr⟩ := mem_coveredEdges.mp hr
  obtain rfl : tes = tes' := Option.mem_unique htes htes'
  obtain ⟨_,_,hmt,_⟩ := hb.tesOf_meets htes
  have hemp : tes = ∅ := disjoint_self_iff_empty _ |>.mp (h.mono hsubl hsubr)
  rw [hemp] at hmt
  exact hmt (disjoint_empty_left _)

theorem Built.edgeCount_succ : spec.edgeCount + 1 = spec.nodeCount := by
  have h := BinaryTree.length_labels hb.separated
  rwa [hb.labels,hb.leaves,List.length_range,card_range] at h

theorem Built.complexSpec {region : CDPHyperJoinRegion P} (hspec : region.spec = some spec)
    (hmx : ∃ edge ∈ spec.edges, edge.joinType ≠ .inner) : region.complexSpec = some spec := by
  have hpure : spec.pureInner = false := by
    rw [← Bool.not_eq_true,hb.pureInner]
    intro hall
    obtain ⟨edge,hedge,hne⟩ := hmx
    exact hne (hall edge hedge)
  simp only [CDPHyperJoinRegion.complexSpec,hspec,Option.filter_some,hpure,Bool.not_false,if_true]

end

end CJoinRegionSpec

namespace JoinPlan

def Accepted (region : CDPHyperJoinRegion P) : JoinPlan → Prop
  | atom _ => True
  | join l r =>
    l.Accepted region ∧ r.Accepted region ∧ Disjoint l.nodes r.nodes ∧
      (region.fBuildJoinRequest l.nodes r.nodes).isSome

/-- The original edges the joins of the plan carry. -/
def appliedEdges (region : CDPHyperJoinRegion P) : JoinPlan → List ℕ
  | atom _ => []
  | join l r =>
    l.appliedEdges region ++ r.appliedEdges region ++
      ((region.fBuildJoinRequest l.nodes r.nodes).map SJoinRequest.edgeIds).getD []

/-- A plan applies exactly the edges its nodes cover, each once. -/
structure Conserves (region : CDPHyperJoinRegion P) (spec : CJoinRegionSpec P)
    (plan : JoinPlan) : Prop where
  nodup : (plan.appliedEdges region).Nodup
  covered : (plan.appliedEdges region).toFinset = spec.coveredEdges plan.nodes
  length : (plan.appliedEdges region).length + 1 = plan.nodes.card

end JoinPlan

section

open CJoinRegionSpec

variable [ScalarPredicate P] {root : CExpression P} {spec : CJoinRegionSpec P}
  {t : BinaryTree ℕ ℕ} {region : CDPHyperJoinRegion P} {request : SJoinRequest P}

omit [ScalarPredicate P] in
theorem applicable_mem_coveredEdges (hspec : region.complexSpec = some spec)
    {candidate : SApplicableEdge} (h : candidate ∈ region.applicableEdges left right) :
    candidate.edgeId ∈ spec.coveredEdges (left ∪ right) ∧
      candidate.edgeId ∉ spec.coveredEdges left ∧
      candidate.edgeId ∉ spec.coveredEdges right := by
  obtain ⟨_,hpair⟩ := (CDPHyperJoinRegion.mem_applicableEdges hspec).mp h
  obtain ⟨edge,hedge,happ⟩ := CDPHyperJoinRegion.fPairApplicable_eq_some hspec hpair
  obtain ⟨tes,htes,hconn⟩ := CEdge.fApplicable_eq_true happ
  have htesOf : tes ∈ spec.tesOf candidate.edgeId := by
    simp only [tesOf,hedge,Option.bind_some,htes,Option.mem_some_iff]
  have hfacts : Disjoint left right ∧ tes ⊆ left ∪ right ∧ ¬ Disjoint tes left ∧
      ¬ Disjoint tes right := by
    cases hs : candidate.swapped with
    | false =>
      rw [hs] at hconn
      exact ⟨hconn.disjoint,hconn.tes_subset,hconn.meets_left,hconn.meets_right⟩
    | true =>
      rw [hs] at hconn
      exact ⟨hconn.disjoint.symm,union_comm right left ▸ hconn.tes_subset,
        hconn.meets_right,hconn.meets_left⟩
  obtain ⟨hd,hsub,hl,hr⟩ := hfacts
  have hout : ∀ {s u : Finset ℕ}, Disjoint s u → ¬ Disjoint tes u →
      candidate.edgeId ∉ spec.coveredEdges s := by
    intro s u hsu hu hmem
    obtain ⟨tes',htes',hsub'⟩ := mem_coveredEdges.mp hmem
    obtain rfl : tes' = tes := Option.mem_unique htes' htesOf
    exact hu (hsu.mono_left hsub')
  exact ⟨mem_coveredEdges.mpr ⟨tes,htesOf,hsub⟩,hout hd hr,hout hd.symm hl⟩

/-- The counting step: two conserving inputs leave room for exactly one edge. -/
theorem conserves_join (hb : Built root spec t) (hspec : region.complexSpec = some spec)
    {l r : JoinPlan} (hl : l.Conserves region spec) (hr : r.Conserves region spec)
    (hd : Disjoint l.nodes r.nodes)
    (hreq : region.fBuildJoinRequest l.nodes r.nodes = some request) :
    request.edgeIds.length = 1 ∧ (JoinPlan.join l r).Conserves region spec := by
  obtain ⟨hids,hne⟩ := CDPHyperJoinRegion.fBuildJoinRequest_edgeIds hspec hreq
  have hnd : request.edgeIds.Nodup := by
    rw [hids]
    exact List.nodup_range.sublist (CDPHyperJoinRegion.applicableEdges_sublist hspec)
  have hnew : ∀ id ∈ request.edgeIds, id ∈ spec.coveredEdges (l.nodes ∪ r.nodes) ∧
      id ∉ spec.coveredEdges l.nodes ∧ id ∉ spec.coveredEdges r.nodes := by
    intro id hid
    rw [hids] at hid
    obtain ⟨candidate,hmem,rfl⟩ := List.mem_map.mp hid
    exact applicable_mem_coveredEdges hspec hmem
  have happ : (JoinPlan.join l r).appliedEdges region =
      l.appliedEdges region ++ r.appliedEdges region ++ request.edgeIds := by
    simp only [JoinPlan.appliedEdges,hreq,Option.map_some,Option.getD_some]
  have hall : ((JoinPlan.join l r).appliedEdges region).Nodup := by
    rw [happ,List.nodup_append',List.nodup_append',← List.disjoint_toFinset_iff_disjoint,
      hl.covered,hr.covered]
    refine ⟨⟨hl.nodup,hr.nodup,hb.disjoint_coveredEdges hd⟩,hnd,?_⟩
    intro id hid hid'
    rw [List.mem_append,← List.mem_toFinset,← List.mem_toFinset,hl.covered,hr.covered] at hid
    rcases hid with h | h
    · exact (hnew id hid').2.1 h
    · exact (hnew id hid').2.2 h
  have hsub : ((JoinPlan.join l r).appliedEdges region).toFinset ⊆
      spec.coveredEdges (l.nodes ∪ r.nodes) := by
    intro id hid
    rw [happ,List.mem_toFinset,List.mem_append,List.mem_append,← List.mem_toFinset,
      ← List.mem_toFinset,hl.covered,hr.covered] at hid
    rcases hid with (h | h) | h
    · exact coveredEdges_mono subset_union_left h
    · exact coveredEdges_mono subset_union_right h
    · exact (hnew id h).1
  -- the covered edges leave room for at most one more edge, and the request has one
  have hbd := hb.card_coveredEdges_le (l.nodes ∪ r.nodes)
  have hcard := card_le_card hsub
  rw [card_union_of_disjoint hd] at hbd
  rw [List.toFinset_card_of_nodup hall] at hcard
  have hlen := congrArg List.length happ
  rw [List.length_append,List.length_append] at hlen
  have hpos : 0 < request.edgeIds.length := List.length_pos_iff.mpr hne
  have hll := hl.length
  have hrl := hr.length
  have hone : request.edgeIds.length = 1 := by omega
  have htotal : ((JoinPlan.join l r).appliedEdges region).length + 1 =
      (l.nodes ∪ r.nodes).card := by
    rw [card_union_of_disjoint hd]
    omega
  refine ⟨hone,hall,?_,htotal⟩
  apply eq_of_subset_of_card_le hsub
  rw [List.toFinset_card_of_nodup hall]
  have := hb.card_coveredEdges_le (l.nodes ∪ r.nodes)
  change (spec.coveredEdges (l.nodes ∪ r.nodes)).card ≤ _
  omega

theorem accepted_conserves (hb : Built root spec t) (hspec : region.complexSpec = some spec)
    (plan : JoinPlan) (h : plan.Accepted region) : plan.Conserves region spec := by
  induction plan with
  | atom node =>
    refine ⟨List.nodup_nil,?_,rfl⟩
    have hle := hb.card_coveredEdges_le {node}
    rw [card_singleton,Nat.sub_self,Nat.le_zero,card_eq_zero] at hle
    exact hle.symm
  | join l r ihl ihr =>
    obtain ⟨hl,hr,hd,hsome⟩ := h
    obtain ⟨request,hreq⟩ := Option.isSome_iff_exists.mp hsome
    exact (conserves_join hb hspec (ihl hl) (ihr hr) hd hreq).2

theorem conserves_complete (hb : Built root spec t) {plan : JoinPlan}
    (h : plan.Conserves region spec) (hfull : plan.nodes = range spec.nodeCount) :
    (plan.appliedEdges region).Perm (List.range spec.edgeCount) := by
  have hlen := h.length
  rw [hfull,card_range,← hb.edgeCount_succ] at hlen
  apply List.Subperm.perm_of_length_le
  · apply List.subperm_of_subset h.nodup
    intro id hid
    rw [← List.mem_toFinset,h.covered,coveredEdges,mem_filter,mem_range] at hid
    exact List.mem_range.mpr hid.1
  · rw [List.length_range]
    omega

/-- Edge conservation in a region with a non-inner join. -/
theorem accepted_edge_conservation (root : CExpression P) (spec : CJoinRegionSpec P)
    (region : CDPHyperJoinRegion P) (hbuild : build root = some spec)
    (hspec : region.spec = some spec) (hmixed : ∃ edge ∈ spec.edges, edge.joinType ≠ .inner) :
    (∀ plan : JoinPlan, plan.Accepted region →
      (plan.appliedEdges region).length = plan.nodes.card - 1 ∧ (plan.appliedEdges region).Nodup ∧
      (∀ id, id ∈ plan.appliedEdges region ↔ ∃ tes ∈ spec.tesOf id, tes ⊆ plan.nodes) ∧
      (plan.nodes = Finset.range spec.nodeCount →
        (plan.appliedEdges region).Perm (List.range spec.edgeCount))) ∧
    ∀ (l r : JoinPlan) (request : SJoinRequest P), l.Accepted region → r.Accepted region →
      Disjoint l.nodes r.nodes → region.fBuildJoinRequest l.nodes r.nodes = some request →
      request.edgeIds.length = 1 ∧ (region.applicableEdges l.nodes r.nodes).length = 1 := by
  have hb := build_built hbuild
  have hcx := hb.complexSpec hspec hmixed
  constructor
  · intro plan hplan
    have hcons := accepted_conserves hb hcx plan hplan
    refine ⟨?_,hcons.nodup,?_,conserves_complete hb hcons⟩
    · have := hcons.length
      omega
    · intro id
      rw [← List.mem_toFinset,hcons.covered,mem_coveredEdges]
  · intro l r request hl hr hd hreq
    have hone := (conserves_join hb hcx (accepted_conserves hb hcx l hl)
      (accepted_conserves hb hcx r hr) hd hreq).1
    refine ⟨hone,?_⟩
    rw [(CDPHyperJoinRegion.fBuildJoinRequest_edgeIds hcx hreq).1,List.length_map] at hone
    exact hone

end

/-- An equality between two columns, which is NULL as soon as one of them is. -/
structure ColumnEquality where
  left : ℕ
  right : ℕ
  deriving DecidableEq

instance : ScalarPredicate ColumnEquality where
  usedColumns p := {p.left, p.right}
  fNullRejecting p columns := p.left ∈ columns ∨ p.right ∈ columns

/-- `(a JOIN b ON a = b) LEFT JOIN c ON b = c`, input `i` with the only column `i`. -/
def outerChain : CExpression ColumnEquality :=
  .join .leftOuter
    (.join .inner (.atom ⟨{0}, ∅⟩) (.atom ⟨{1}, ∅⟩) ⟨0, 1⟩ none) (.atom ⟨{2}, ∅⟩) ⟨1, 2⟩ none

theorem outerChain_isSome : (CJoinRegionSpec.build outerChain).isSome = true := by decide +kernel

def outerChainSpec : CJoinRegionSpec ColumnEquality :=
  (CJoinRegionSpec.build outerChain).get outerChain_isSome

def outerChainRegion : CDPHyperJoinRegion ColumnEquality :=
  ⟨outerChain.atoms, [⟨0, 1⟩, ⟨1, 2⟩], some outerChainSpec⟩

def outerChainPlan : JoinPlan := .join (.atom 0) (.join (.atom 1) (.atom 2))

theorem outerChain_edge_conservation :
    outerChainPlan.Accepted outerChainRegion ∧
      (outerChainPlan.appliedEdges outerChainRegion).Perm (List.range 2) := by
  have hplan : outerChainPlan.Accepted outerChainRegion := by
    refine ⟨trivial,⟨trivial,trivial,?_,?_⟩,?_,?_⟩ <;> decide +kernel
  have h := (accepted_edge_conservation outerChain outerChainSpec outerChainRegion
    (Option.some_get outerChain_isSome).symm rfl
    (by decide +kernel)).1 outerChainPlan hplan
  exact ⟨hplan,h.2.2.2 (by decide +kernel)⟩

end PgOrca
