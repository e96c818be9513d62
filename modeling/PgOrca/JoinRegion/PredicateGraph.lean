import PgOrca.JoinRegion.Conservation
import PgOrca.JoinRegion.RegionGraph
import PgOrca.Library.ComponentGraph

/-!
# Regions without a join tree

When no conjunct looks at more than two components, `AddCartesianComponentEdges` finds the
components of the graph of conjuncts.
-/

namespace PgOrca

open SRegionGraph UnionFind Relation Finset
open SimpleGraph.ConnectedComponent (eq mem_supp_iff supp_injective)

variable {P : Type*} [ScalarPredicate P]

namespace CDPHyperJoinRegion

variable {region : CDPHyperJoinRegion P} {a b : ℕ}

/-- Two components are adjacent when some conjunct refers to both and to nothing else. -/
def conjunctGraph (region : CDPHyperJoinRegion P) : SimpleGraph ℕ where
  Adj a b := a ≠ b ∧ ∃ predicate ∈ region.conjuncts, region.predicateCover predicate = {a, b}
  symm := ⟨fun a b ⟨hne, predicate, hmem, hcover⟩ =>
    ⟨hne.symm, predicate, hmem, hcover.trans (Finset.pair_comm a b)⟩⟩

theorem predicateCover_subset (region : CDPHyperJoinRegion P) (predicate : P) :
    region.predicateCover predicate ⊆ range region.components.length :=
  filter_subset _ _

theorem conjunctGraph_lt (h : region.conjunctGraph.Adj a b) : b < region.components.length := by
  obtain ⟨_,predicate,_,hcov⟩ := h
  have hmem : b ∈ region.predicateCover predicate := by
    rw [hcov]
    exact mem_insert_of_mem (mem_singleton_self b)
  exact mem_range.mp (region.predicateCover_subset predicate hmem)

theorem mem_linksOf {nodes : Finset ℕ} :
    (a, b) ∈ linksOf nodes ↔ a = lowestBit nodes ∧ b ∈ nodes ∧ b ≠ a := by
  unfold linksOf
  rw [List.mem_map]
  constructor
  · rintro ⟨c,hc,heq⟩
    obtain ⟨rfl,rfl⟩ := Prod.mk.inj heq
    exact ⟨rfl,mem_bits_tail.mp hc⟩
  · rintro ⟨rfl,hb⟩
    exact ⟨b,mem_bits_tail.mpr hb,rfl⟩

theorem lowestBit_pair : lowestBit {a, b} = a ∨ lowestBit {a, b} = b := by
  have hmem := lowestBit_mem (insert_nonempty a {b})
  rwa [mem_insert,mem_singleton] at hmem

section

variable (hspec : region.spec = none)
  (hpairs : ∀ predicate ∈ region.conjuncts, (region.predicateCover predicate).card ≤ 2)

include hspec in
omit [ScalarPredicate P] in
theorem skeletonEdges_eq_nil : region.skeletonEdges = [] := by
  rw [skeletonEdges,hspec]

include hspec in
theorem mem_connectivityLinks :
    (a, b) ∈ region.connectivityLinks (region.conjuncts.map region.predicateCover) ↔
      ∃ predicate ∈ region.conjuncts, 2 ≤ (region.predicateCover predicate).card ∧
        (a, b) ∈ linksOf (region.predicateCover predicate) := by
  rw [connectivityLinks,skeletonEdges_eq_nil hspec,List.flatMap_nil,List.append_nil,
    List.mem_flatMap]
  simp only [List.mem_filter,List.mem_map,not_lt,decide_eq_true_eq]
  constructor
  · rintro ⟨_,⟨⟨predicate,hmem,rfl⟩,hcard⟩,hlink⟩
    exact ⟨predicate,hmem,hcard,hlink⟩
  · rintro ⟨predicate,hmem,hcard,hlink⟩
    exact ⟨_,⟨⟨predicate,hmem,rfl⟩,hcard⟩,hlink⟩

include hspec hpairs in
theorem adj_of_link
    (h : (a, b) ∈ region.connectivityLinks (region.conjuncts.map region.predicateCover)) :
    region.conjunctGraph.Adj a b := by
  obtain ⟨predicate,hmem,hcard,hlink⟩ := (mem_connectivityLinks hspec).mp h
  obtain ⟨hlow,hb,hne⟩ := mem_linksOf.mp hlink
  have ha : a ∈ region.predicateCover predicate :=
    hlow ▸ lowestBit_mem (card_pos.mp (by omega))
  refine ⟨hne.symm,predicate,hmem,(eq_of_subset_of_card_le ?_ ?_).symm⟩
  · exact insert_subset ha (singleton_subset_iff.mpr hb)
  · rw [card_pair hne.symm]
    exact hpairs predicate hmem

include hspec in
theorem link_of_adj (h : region.conjunctGraph.Adj a b) :
    (a, b) ∈ region.connectivityLinks (region.conjuncts.map region.predicateCover) ∨
      (b, a) ∈ region.connectivityLinks (region.conjuncts.map region.predicateCover) := by
  obtain ⟨hne,predicate,hmem,hcov⟩ := h
  have hcard : 2 ≤ (region.predicateCover predicate).card := by
    rw [hcov,card_pair hne]
  rw [mem_connectivityLinks hspec,mem_connectivityLinks hspec]
  rcases lowestBit_pair (a := a) (b := b) with hlow | hlow
  · refine .inl ⟨predicate,hmem,hcard,mem_linksOf.mpr ?_⟩
    rw [hcov]
    exact ⟨hlow.symm,mem_insert_of_mem (mem_singleton_self b),hne.symm⟩
  · refine .inr ⟨predicate,hmem,hcard,mem_linksOf.mpr ?_⟩
    rw [hcov]
    exact ⟨hlow.symm,mem_insert_self a {b},hne⟩

include hspec hpairs in
theorem eqvGen_links_iff_reachable {x y : ℕ} :
    EqvGen (fun a b => (a, b) ∈
      region.connectivityLinks (region.conjuncts.map region.predicateCover)) x y ↔
        region.conjunctGraph.Reachable x y := by
  constructor
  · intro h
    induction h with
    | rel a b h => exact (adj_of_link hspec hpairs h).reachable
    | refl a => exact .refl a
    | symm a b _ ih => exact ih.symm
    | trans a b c _ _ ih ih' => exact ih.trans ih'
  · intro h
    rw [SimpleGraph.reachable_iff_reflTransGen] at h
    induction h with
    | refl => exact .refl x
    | tail _ hadj ih =>
      rcases link_of_adj hspec hadj with h | h
      · exact .trans _ _ _ ih (.rel _ _ h)
      · exact .trans _ _ _ ih (.symm _ _ (.rel _ _ h))

include hspec hpairs in
theorem mem_connectedComponents {c : Finset ℕ} :
    c ∈ region.connectedComponents (region.conjuncts.map region.predicateCover) ↔
      c ⊆ range region.components.length ∧
        ∃ component : region.conjunctGraph.ConnectedComponent, ↑c = component.supp := by
  have hlinks : ∀ pair ∈ region.connectivityLinks (region.conjuncts.map region.predicateCover),
      pair.1 < region.components.length ∧ pair.2 < region.components.length := by
    intro ⟨a,b⟩ hpair
    have hadj := adj_of_link hspec hpairs hpair
    exact ⟨conjunctGraph_lt hadj.symm,conjunctGraph_lt hadj⟩
  obtain ⟨hfo,_,hsame⟩ := unions_spec region.components.length _ hlinks
  have hcl : ClosedUnder region.conjunctGraph {x | x < region.components.length} :=
    fun x _ y hadj => conjunctGraph_lt hadj
  rw [connectedComponents,mem_classes hfo]
  simp only [hsame,eqvGen_links_iff_reachable hspec hpairs]
  constructor
  · intro ⟨⟨x,hx⟩,hc⟩
    refine ⟨fun y hy => mem_range.mpr (hc y hy).1,region.conjunctGraph.connectedComponentMk x,
      Set.ext fun y => ?_⟩
    rw [mem_coe,(hc x hx).2 y,mem_supp_iff,eq,SimpleGraph.reachable_comm]
    constructor
    · exact fun h => h.2
    · exact fun h => ⟨hcl.reachable (hc x hx).1 h.symm,h⟩
  · rintro ⟨hsub,component,hcomp⟩
    have hmem : ∀ y, y ∈ c ↔ y ∈ component.supp := fun y => by rw [← hcomp,mem_coe]
    constructor
    · obtain ⟨x,hx⟩ := component.nonempty_supp
      exact ⟨x,(hmem x).mpr hx⟩
    · intro x hx
      refine ⟨mem_range.mp (hsub hx),fun y => ?_⟩
      constructor
      · intro hy
        exact ⟨mem_range.mp (hsub hy),
          component.reachable_of_mem_supp ((hmem x).mp hx) ((hmem y).mp hy)⟩
      · intro ⟨_,hxy⟩
        exact (hmem y).mpr ((closedUnder_supp component).reachable ((hmem x).mp hx) hxy)

end

theorem joins_singletons (predicateId : ℕ) (hne : a ≠ b) :
    ∃ e ∈ coverEdges predicateId {a, b}, e.sides = ({a}, {b}) ∨ e.sides = ({b}, {a}) := by
  have hdisj : Disjoint ({a} : Finset ℕ) {b} := disjoint_singleton.mpr hne
  rcases lowestBit_pair (a := a) (b := b) with hlow | hlow
  · refine ⟨⟨{a},{b},predicateId⟩,mem_coverEdges.mpr ?_,.inl rfl⟩
    exact ⟨rfl,singleton_nonempty b,mem_singleton.mpr hlow,hdisj,rfl⟩
  · refine ⟨⟨{b},{a},predicateId⟩,mem_coverEdges.mpr ?_,.inr rfl⟩
    exact ⟨rfl,singleton_nonempty a,mem_singleton.mpr hlow,hdisj.symm,pair_comm b a⟩

theorem singletons_of_mem_coverEdges {predicateId : ℕ} {cover : Finset ℕ} {e : SEdge}
    (hcard : cover.card ≤ 2) (h : e ∈ coverEdges predicateId cover) :
    ∃ a b, a ≠ b ∧ cover = {a, b} ∧ e.sides = ({a}, {b}) := by
  obtain ⟨_,hrt,hleft,hdisj,rfl⟩ := mem_coverEdges.mp h
  rw [card_union_of_disjoint hdisj] at hcard
  have hl := card_pos.mpr ⟨_,hleft⟩
  have hr := card_pos.mpr hrt
  obtain ⟨a,ha⟩ := card_eq_one.mp (show e.left.card = 1 by omega)
  obtain ⟨b,hb⟩ := card_eq_one.mp (show e.right.card = 1 by omega)
  rw [ha,hb,disjoint_singleton] at hdisj
  refine ⟨a,b,hdisj,?_,?_⟩
  · rw [ha,hb]
    rfl
  · rw [SEdge.sides,ha,hb]

theorem build_componentEdges {fContainsEquality : P → Bool} {edgeBudget : ℕ}
    (hspec : region.spec = none)
    (hpairs : ∀ predicate ∈ region.conjuncts, (region.predicateCover predicate).card ≤ 2)
    (h : (region.build fContainsEquality edgeBudget).1 = true) :
    ComponentEdges region.conjunctGraph (range region.components.length)
      (region.build fContainsEquality edgeBudget).2.graph.Joins := by
  have hcx : region.complexSpec = none := by rw [complexSpec,hspec,Option.filter_none]
  obtain ⟨skeleton,cartesian,hes⟩ := build_predicateEdges hcx
    (fun spec hsome => by rw [hspec] at hsome; cases hsome) h
  have hsk : skeleton = [] := by
    rw [List.eq_nil_iff_forall_not_mem]
    intro e he
    have := hes.skeleton_from e he
    rw [skeletonEdges_eq_nil hspec] at this
    exact absurd this List.not_mem_nil
  have hcart : ∀ {u v : Finset ℕ}, (u, v) ∈ orderedPairs (region.connectedComponents
      (region.conjuncts.map region.predicateCover)) ↔ ∃ e ∈ cartesian, e.sides = (u, v) := by
    intro u v
    rw [← hes.cartesian_sides,List.mem_map]
  rw [hes.graph,hsk,List.append_nil]
  refine ⟨?_,?_,?_⟩
  · rintro a b ⟨hne,predicate,hmem,hcov⟩
    obtain ⟨id,hid⟩ := List.mem_iff_getElem?.mp hmem
    obtain ⟨e,he,hsd⟩ := joins_singletons id hne
    rw [CDPHyperGraph.joins_ofEdges]
    refine ⟨e,List.mem_append_left _ (List.mem_flatMap.mpr ⟨(predicate, id),?_,?_⟩),hsd⟩
    · exact List.mem_zipIdx_iff_getElem?.mpr hid
    · rw [hcov]
      exact he
  · intro c d u v hcd hu hv huV hvV
    have hu' := (mem_connectedComponents hspec hpairs).mpr ⟨huV,c,hu⟩
    have hv' := (mem_connectedComponents hspec hpairs).mpr ⟨hvV,d,hv⟩
    have hne : u ≠ v := by
      rintro rfl
      exact hcd (supp_injective (hu.symm.trans hv))
    rw [CDPHyperGraph.joins_ofEdges]
    rcases mem_orderedPairs_or hu' hv' hne with hpair | hpair
    · obtain ⟨e,he,hsd⟩ := hcart.mp hpair
      exact ⟨e,List.mem_append_right _ he,.inl hsd⟩
    · obtain ⟨e,he,hsd⟩ := hcart.mp hpair
      exact ⟨e,List.mem_append_right _ he,.inr hsd⟩
  · intro u v hj
    obtain ⟨e,he,hsd⟩ := CDPHyperGraph.joins_ofEdges.mp hj
    rcases List.mem_append.mp he with he | he
    · obtain ⟨⟨predicate,id⟩,hmem,he⟩ := List.mem_flatMap.mp he
      have hmem' := List.fst_mem_of_mem_zipIdx hmem
      obtain ⟨a,b,hne,hcov,hab⟩ := singletons_of_mem_coverEdges (hpairs predicate hmem') he
      have hadj : region.conjunctGraph.Adj a b := ⟨hne,predicate,hmem',hcov⟩
      rw [hab] at hsd
      rcases hsd with hsd | hsd
      · obtain ⟨rfl,rfl⟩ := Prod.mk.inj hsd
        exact .inl ⟨a,b,hadj,rfl,rfl⟩
      · obtain ⟨rfl,rfl⟩ := Prod.mk.inj hsd
        exact .inl ⟨b,a,hadj.symm,rfl,rfl⟩
    · have hcom : ∀ {u v : Finset ℕ}, e.sides = (u, v) →
          ∃ c d : region.conjunctGraph.ConnectedComponent, ↑u = c.supp ∧ ↑v = d.supp := by
        intro u v hsd
        have hpair := hcart.mpr ⟨e,he,hsd⟩
        obtain ⟨hu,hv⟩ := mem_of_mem_orderedPairs hpair
        obtain ⟨_,c,hc⟩ := (mem_connectedComponents hspec hpairs).mp hu
        obtain ⟨_,d,hd⟩ := (mem_connectedComponents hspec hpairs).mp hv
        exact ⟨c,d,hc,hd⟩
      rcases hsd with hsd | hsd
      · exact .inr (hcom hsd)
      · obtain ⟨c,d,hc,hd⟩ := hcom hsd
        exact .inr ⟨d,c,hd,hc⟩

theorem build_constructible_iff (region : CDPHyperJoinRegion P) (fContainsEquality : P → Bool)
    (edgeBudget : ℕ) (hspec : region.spec = none) (hpairs : ∀ predicate ∈ region.conjuncts,
      (CJoinRegionSpec.pbsPredicateCover region.components predicate).card ≤ 2)
    (h : (region.build fContainsEquality edgeBudget).1 = true) (S : Finset ℕ)
    (hS : S ⊆ Finset.range region.components.length) :
    Constructible (region.build fContainsEquality edgeBudget).2.graph.Joins S ↔
      (region.conjunctGraph.induce (S : Set ℕ)).Connected ∨
        ∃ K : Set region.conjunctGraph.ConnectedComponent,
          K.Nonempty ∧ (S : Set ℕ) = ⋃ c ∈ K, c.supp :=
  (build_componentEdges hspec hpairs h).constructible_iff hS

end CDPHyperJoinRegion

/-! ## Two pairs of joined components -/

namespace TwoPairs

/-- Four components, the first two and the last two compared with each other. -/
def region : CDPHyperJoinRegion ColumnEquality :=
  ⟨[⟨{0}, ∅⟩, ⟨{1}, ∅⟩, ⟨{2}, ∅⟩, ⟨{3}, ∅⟩], [⟨0, 1⟩, ⟨2, 3⟩], none⟩

/-- One component of each pair cannot be joined before the rest of the pairs. -/
theorem halves_not_constructible :
    (region.build (fun _ => true) 3).1 = true ∧
      ¬ Constructible (region.build (fun _ => true) 3).2.graph.Joins {0, 2} := by
  have hbld : (region.build (fun _ => true) 3).1 = true := by decide +kernel
  refine ⟨hbld,fun hcon => ?_⟩
  rcases (CDPHyperJoinRegion.build_constructible_iff region (fun _ => true) 3 rfl
    (by decide +kernel) hbld {0, 2} (by decide)).mp hcon with hconn | hun
  · obtain ⟨a,ha,b,hb,hba,_,hcov⟩ := ComponentEdges.exists_adj_leaving
      (T := {0}) hconn (singleton_nonempty 0) (by decide)
    obtain rfl : a = 0 := mem_singleton.mp ha
    obtain rfl : b = 2 := by
      rw [mem_insert,mem_singleton] at hb
      exact hb.resolve_left fun heq => hba (mem_singleton.mpr heq)
    exact absurd hcov (by decide +kernel)
  · have hcl := (exists_components_iff.mp hun).2
    have hmem := hcl 0 (by simp) 1 ⟨by decide,⟨0,1⟩,by decide +kernel⟩
    simp at hmem

end TwoPairs

end PgOrca
