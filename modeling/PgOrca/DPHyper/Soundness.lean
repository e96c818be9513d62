import PgOrca.DPHyper.Neighborhood

/-!
# The invariant rule of the enumerator

The traversal calls its receiver only with disjoint seen sets and an edge between them.
`enumerate_preserves` turns this into a rule, and the fuel of the recursion never runs out.
-/

namespace PgOrca

open Finset

variable {v d seedId : ℕ}

namespace CDPHyperEnumerator

variable {σ : Type*} {g : CDPHyperGraph} {receiver : IDPHyperReceiver σ}
  {cache : CNeighborhoodCache}

/-! ## Ranges of the neighbourhoods -/

def CacheLt (g : CDPHyperGraph) (cache : CNeighborhoodCache) : Prop :=
  ∀ x ∈ cache.lastNeighborhood, x < g.nodeCount

theorem cacheLt_ofNeighborhood (n : Finset ℕ) : CacheLt g (.ofNeighborhood n) := by
  intro x hx
  cases notMem_empty x hx

theorem pbsNeighborhood_lt (hg : g.Adjacent) {subgraph justGrown : Finset ℕ}
    (forbidden full : Finset ℕ) (hsub : justGrown ⊆ subgraph) (hca : CacheLt g cache) :
    (∀ x ∈ (pbsNeighborhood g subgraph forbidden justGrown cache full).1, x < g.nodeCount) ∧
      CacheLt g (pbsNeighborhood g subgraph forbidden justGrown cache full).2.2 := by
  have hlt : ∀ x ∈ (pbsNeighborhood g subgraph forbidden justGrown cache full).1,
      x < g.nodeCount := by
    intro x hx
    rcases reason_of_mem_pbsNeighborhood hg hsub hx with hr | hx
    · exact hr.lt hg
    · exact hca x hx
  refine ⟨hlt,?_⟩
  simp only [pbsNeighborhood,CNeighborhoodCache.store] at hlt ⊢
  split
  · exact hlt
  · exact hca

/-! ## Preserved properties -/

/-- A property of the receiver's state that survives every call the traversal may make. -/
structure Preserved (g : CDPHyperGraph) (receiver : IDPHyperReceiver σ) (P : σ → Prop) : Prop where
  single : ∀ v s, P s → P (receiver.foundSingleNode v s).2
  single_seen : ∀ v s, receiver.hasSeen (receiver.foundSingleNode v s).2 {v} = true
  single_mono : ∀ v s t, receiver.hasSeen s t = true →
    receiver.hasSeen (receiver.foundSingleNode v s).2 t = true
  pair_mono : ∀ l t e s t', receiver.hasSeen s t' = true →
    receiver.hasSeen (receiver.foundSubgraphPair l t e s).2 t' = true
  pair : ∀ l t d s, P s → d < g.edges.length → (g.edge d).left ⊆ t → (g.edge d).right ⊆ l →
    Disjoint l t → receiver.hasSeen s l = true → receiver.hasSeen s t = true →
    P (receiver.foundSubgraphPair l t (g.edge d).edgeId s).2

def Knows (receiver : IDPHyperReceiver σ) (P : σ → Prop) (K : Set (Finset ℕ)) (s : σ) : Prop :=
  P s ∧ ∀ t ∈ K, receiver.hasSeen s t = true

variable {P : σ → Prop} {K : Set (Finset ℕ)}
  {t l full base neighborhood forbidden growBy : Finset ℕ} {lowestNode : ℕ}

theorem Knows.insert {s : σ} (h : Knows receiver P K s)
    (ht : receiver.hasSeen s t = true) : Knows receiver P (insert t K) s := by
  refine ⟨h.1,fun t' ht' => ?_⟩
  rcases Set.mem_insert_iff.mp ht' with rfl | ht'
  · exact ht
  · exact h.2 t' ht'

theorem Knows.weaken {s : σ} (h : Knows receiver P (Insert.insert t K) s) : Knows receiver P K s :=
  ⟨h.1,fun t' ht' => h.2 t' (Set.mem_insert_of_mem t ht')⟩

theorem reportEdges_knows (hP : Preserved g receiver P) (hl : l ∈ K) (ht : t ∈ K)
    (hdis : Disjoint l t) {test : SEdge → Bool} {ds : List ℕ}
    (htest : ∀ d ∈ ds, test (g.edge d) = true →
      d < g.edges.length ∧ (g.edge d).left ⊆ t ∧ (g.edge d).right ⊆ l) (s : σ)
    (hs : Knows receiver P K s) : Knows receiver P K (reportEdges g receiver l t test ds s).2 := by
  refine untilAbort_invariant ?_ hs
  intro d hd s hs
  simp only [reportEdge]
  split
  · rename_i htrue
    obtain ⟨hlt,hleft,hr⟩ := htest d hd htrue
    refine ⟨hP.pair l t d s hs.1 hlt hleft hr hdis (hs.2 l hl) (hs.2 t ht),?_⟩
    intro t' ht'
    exact hP.pair_mono _ _ _ _ _ (hs.2 t' ht')
  · exact hs

private theorem left_subset_of_simple (hg : g.Adjacent) (hv : v ∈ t)
    (hd : d ∈ (g.node v).simpleEdges) : d < g.edges.length ∧ (g.edge d).left ⊆ t := by
  obtain ⟨hlt,hsim,hmem⟩ := (hg.simpleEdges v d).mp hd
  obtain ⟨a,ha⟩ := card_eq_one.mp hsim.1
  rw [ha,mem_singleton] at hmem
  subst hmem
  exact ⟨hlt,by rw [ha]; exact singleton_subset_iff.mpr hv⟩

private theorem right_subset_of_simple (hg : g.Adjacent) (hd : d ∈ (g.node v).simpleEdges)
    (hmeet : ¬ Disjoint (g.edge d).right l) : (g.edge d).right ⊆ l := by
  obtain ⟨_,hsim,_⟩ := (hg.simpleEdges v d).mp hd
  obtain ⟨b,hb⟩ := card_eq_one.mp hsim.2
  rw [hb,disjoint_singleton_left,not_not] at hmeet
  rw [hb]
  exact singleton_subset_iff.mpr hmeet

theorem tryConnecting_knows (hg : g.Adjacent) (hP : Preserved g receiver P) (hl : l ∈ K)
    (ht : t ∈ K) (hdis : Disjoint l t) (s : σ) (hs : Knows receiver P K s) :
    Knows receiver P K (tryConnecting g receiver l full t s).2 := by
  refine untilAbort_invariant ?_ hs
  intro v hv s hs
  have hvt : v ∈ t := mem_of_mem_inter_left (mem_bits.mp hv)
  refine andThen_invariant ?_ ?_ hs
  · intro s hs
    split
    · refine reportEdges_knows hP hl ht hdis ?_ s hs
      intro d hd htest
      obtain ⟨hr,_⟩ := of_decide_eq_true htest
      obtain ⟨hlt,hleft⟩ := left_subset_of_simple hg hvt hd
      exact ⟨hlt,hleft,right_subset_of_simple hg hd hr⟩
    · exact hs
  · refine reportEdges_knows hP hl ht hdis ?_
    intro d hd htest
    obtain ⟨_,hleft,hrt⟩ := of_decide_eq_true htest
    exact ⟨((hg.complexEdges v d).mp hd).1,hleft,hrt⟩

def KnowsCached (g : CDPHyperGraph) (receiver : IDPHyperReceiver σ) (P : σ → Prop)
    (K : Set (Finset ℕ)) (p : σ × CNeighborhoodCache) : Prop :=
  Knows receiver P K p.1 ∧ CacheLt g p.2

theorem withCache_knows {n : Finset ℕ}
    {loop : σ × CNeighborhoodCache → Bool × σ × CNeighborhoodCache}
    (hloop : ∀ p, KnowsCached g receiver P K p → KnowsCached g receiver P K (loop p).2) (s : σ)
    (hs : Knows receiver P K s) : Knows receiver P K (withCache (.ofNeighborhood n) loop s).2 :=
  (hloop (s, .ofNeighborhood n) ⟨hs,cacheLt_ofNeighborhood n⟩).1

/-- The sets of one level of the recursion: the grown set, its neighbourhood and the forbidden nodes
are apart, and the neighbourhood consists of nodes of the graph. -/
structure Level (g : CDPHyperGraph) (base neighborhood forbidden : Finset ℕ) : Prop where
  base_disjoint : Disjoint neighborhood base
  forbidden_disjoint : Disjoint neighborhood forbidden
  lt : ∀ x ∈ neighborhood, x < g.nodeCount

theorem Level.card_lt (h : Level g base neighborhood forbidden)
    (hgrow : growBy ∈ subsets neighborhood) : base.card < (base ∪ growBy).card := by
  obtain ⟨hne,hsub⟩ := mem_subsets.mp hgrow
  rw [card_union_of_disjoint (h.base_disjoint.symm.mono_right hsub)]
  exact Nat.lt_add_of_pos_right hne.card_pos

theorem Level.grow (hg : g.Adjacent) (base neighborhood forbidden growBy full : Finset ℕ)
    (hca : CacheLt g cache) :
    let found := pbsNeighborhood g (base ∪ growBy) ((forbidden ∪ neighborhood) \ (base ∪ growBy))
      growBy cache full
    Level g (base ∪ growBy) found.1 ((forbidden ∪ neighborhood) \ (base ∪ growBy)) ∧
      CacheLt g found.2.2 := by
  obtain ⟨hd₁,hd₂⟩ := pbsNeighborhood_disjoint (g := g) (base ∪ growBy)
    ((forbidden ∪ neighborhood) \ (base ∪ growBy)) growBy cache full
  have hsub : growBy ⊆ base ∪ growBy := subset_union_right
  obtain ⟨hlt,hca'⟩ := pbsNeighborhood_lt hg _ full hsub hca
  exact ⟨⟨hd₁,hd₂,hlt⟩,hca'⟩

theorem subset_newForbidden (hl : l ⊆ forbidden) (hbase : Disjoint l base)
    (hdis : Disjoint neighborhood forbidden) (hgrow : growBy ⊆ neighborhood) :
    l ⊆ (forbidden ∪ neighborhood) \ (base ∪ growBy) ∧ Disjoint l (base ∪ growBy) := by
  have hd : Disjoint l (base ∪ growBy) :=
    disjoint_union_right.mpr ⟨hbase,(hdis.symm.mono_left hl).mono_right hgrow⟩
  refine ⟨fun x hx => mem_sdiff.mpr ⟨?_,disjoint_left.mp hd hx⟩,hd⟩
  exact mem_union_left _ (hl hx)

section

variable (hg : g.Adjacent) (hP : Preserved g receiver P)

include hg hP

theorem expandComplement_knows (hl : l ∈ K) (fuel : ℕ)
    (hlevel : Level g base neighborhood forbidden) (hfor : l ⊆ forbidden)
    (hbase : Disjoint l base) (s : σ) (hs : Knows receiver P K s) : Knows receiver P K
      (expandComplement g receiver l full fuel base neighborhood forbidden s).2 := by
  induction fuel generalizing base neighborhood forbidden s with
  | zero => exact hs
  | succ fuel ih =>
    have hnew := fun growBy (h : growBy ⊆ neighborhood) =>
      subset_newForbidden hfor hbase hlevel.forbidden_disjoint h
    refine andThen_invariant ?_ ?_ hs
    · intro s hs
      refine untilAbort_invariant ?_ hs
      intro growBy hgrow s hs
      split
      · rename_i hseen
        exact (tryConnecting_knows hg hP (Set.mem_insert_of_mem _ hl) (Set.mem_insert _ _)
          (hnew growBy (mem_subsets.mp hgrow).2).2 s (hs.insert hseen)).weaken
      · exact hs
    · refine withCache_knows (g := g) ?_
      intro p hp
      refine untilAbort_invariant ?_ hp
      intro growBy hgrow p hp
      obtain ⟨hnext,hca⟩ := Level.grow hg base neighborhood forbidden growBy ∅ hp.2
      obtain ⟨h₁,h₂⟩ := hnew growBy (mem_subsets.mp hgrow).2
      exact ⟨ih hnext h₁ h₂ p.1 hp.1,hca⟩

theorem reportSeed_knows (hl : l ∈ K) (hseed : {seedId} ∈ K) (hnot : seedId ∉ l) (s : σ)
    (hs : Knows receiver P K s) : Knows receiver P K (reportSeed g receiver l seedId s).2 := by
  have hdis : Disjoint l {seedId} := disjoint_singleton_right.mpr hnot
  refine andThen_invariant ?_ ?_ hs
  · intro s hs
    split
    · refine reportEdges_knows hP hl hseed hdis ?_ s hs
      intro d hd htest
      obtain ⟨hlt,hleft⟩ := left_subset_of_simple hg (mem_singleton_self seedId) hd
      exact ⟨hlt,hleft,right_subset_of_simple hg hd (of_decide_eq_true htest)⟩
    · exact hs
  · refine reportEdges_knows hP hl hseed hdis ?_
    intro d hd htest
    obtain ⟨hleft,hr⟩ := of_decide_eq_true htest
    exact ⟨((hg.complexEdges seedId d).mp hd).1,hleft.subset,hr⟩

theorem complementSeed_knows (hl : l ∈ K) (hseed : {seedId} ∈ K) (hnot : seedId ∉ l)
    (p : σ × CNeighborhoodCache) (hp : KnowsCached g receiver P K p) :
    KnowsCached g receiver P K
      (complementSeed g receiver lowestNode l full neighborhood seedId p).2 := by
  have hre := reportSeed_knows hg hP hl hseed hnot p.1 hp.1
  let forbidden := (pbsLowerNodes lowestNode ∪ l) ∪ (pbsLowerNodes seedId ∩ neighborhood)
  obtain ⟨h₁,h₂⟩ := pbsNeighborhood_disjoint (g := g) {seedId} forbidden {seedId} p.2 ∅
  obtain ⟨h₃,hca⟩ := pbsNeighborhood_lt hg forbidden ∅ (subset_refl {seedId}) hp.2
  simp only [complementSeed]
  split
  · exact ⟨hre,hp.2⟩
  · refine ⟨expandComplement_knows hg hP hl _ ⟨h₁,h₂,h₃⟩ ?_ ?_ _ hre,hca⟩
    · exact subset_union_right.trans subset_union_left
    · exact disjoint_singleton_right.mpr hnot

theorem enumerateComplements_knows (hl : l ∈ K) (hseeds : ∀ x ∈ neighborhood, {x} ∈ K) (s : σ)
    (hs : Knows receiver P K s) : Knows receiver P K
      (enumerateComplements g receiver lowestNode l full neighborhood s).2 := by
  refine withCache_knows (g := g) ?_ s hs
  intro p hp
  refine untilAbort_invariant ?_ hp
  intro seedId hmem p hp
  rw [List.mem_reverse,mem_bits,mem_sdiff] at hmem
  exact complementSeed_knows hg hP hl (hseeds seedId hmem.1) hmem.2 p hp

theorem complementGrown_knows (hlow : pbsLowerNodes lowestNode ⊆ forbidden)
    (hlevel : Level g base neighborhood forbidden)
    (hK : ∀ x, lowestNode ≤ x → x < g.nodeCount → {x} ∈ K) (p : σ × CNeighborhoodCache)
    (hp : KnowsCached g receiver P K p) : KnowsCached g receiver P K
      (complementGrown g receiver lowestNode base full neighborhood forbidden growBy p).2 := by
  simp only [complementGrown]
  split
  · exact hp
  · rename_i hseen
    rw [Bool.not_eq_true,Bool.not_eq_false] at hseen
    obtain ⟨_,hdis⟩ := pbsNeighborhood_disjoint (g := g) (base ∪ growBy) forbidden growBy p.2 full
    have hsub : growBy ⊆ base ∪ growBy := subset_union_right
    obtain ⟨hlt,hca⟩ := pbsNeighborhood_lt hg forbidden full hsub hp.2
    -- nodes below the seed are forbidden, so every complement seed is a singleton seen before
    have hhigh : ∀ x, x < g.nodeCount → x ∉ pbsLowerNodes lowestNode → {x} ∈ K := by
      intro x hx hnot
      rw [mem_pbsLowerNodes,not_lt] at hnot
      exact hK x hnot hx
    refine ⟨(enumerateComplements_knows hg hP (Set.mem_insert _ _) ?_ p.1
      (hp.1.insert hseen)).weaken,hca⟩
    intro x hx
    refine Set.mem_insert_of_mem _ ?_
    rw [mem_union,mem_union] at hx
    rcases hx with (hx | hx) | hx
    · exact hhigh x (hlt x hx) fun hl => disjoint_left.mp hdis hx (hlow hl)
    · obtain ⟨_,hx⟩ := mem_inter.mp hx
      obtain ⟨hn,hm⟩ := mem_sdiff.mp hx
      exact hhigh x (mem_pbsLowerNodes.mp hn) hm
    · exact hhigh x (hlevel.lt x hx) fun hl =>
        disjoint_left.mp hlevel.forbidden_disjoint hx (hlow hl)

theorem expandSubgraph_knows (hK : ∀ x, lowestNode ≤ x → x < g.nodeCount → {x} ∈ K) (fuel : ℕ)
    (hlow : pbsLowerNodes lowestNode ⊆ forbidden) (hbase : Disjoint (pbsLowerNodes lowestNode) base)
    (hlevel : Level g base neighborhood forbidden) (s : σ) (hs : Knows receiver P K s) :
    Knows receiver P K
      (expandSubgraph g receiver lowestNode fuel base full neighborhood forbidden s).2 := by
  induction fuel generalizing base full neighborhood forbidden s with
  | zero => exact hs
  | succ fuel ih =>
    refine withCache_knows (g := g) ?_ s hs
    intro p hp
    refine andThen_invariant ?_ ?_ hp
    · intro p hp
      refine untilAbort_invariant ?_ hp
      intro growBy _ p hp
      exact complementGrown_knows hg hP hlow hlevel hK p hp
    · intro p hp
      refine untilAbort_invariant ?_ hp
      intro growBy hgrow p hp
      obtain ⟨hnext,hca⟩ := Level.grow hg base neighborhood forbidden growBy full hp.2
      obtain ⟨h₁,h₂⟩ := subset_newForbidden hlow hbase hlevel.forbidden_disjoint
        (mem_subsets.mp hgrow).2
      exact ⟨ih h₁ h₂ hnext p.1 hp.1,hca⟩

end

/-- The sets known when the traversal reaches a seed: the singletons of the later nodes. -/
private def seenFrom (g : CDPHyperGraph) (m : ℕ) : Set (Finset ℕ) :=
  {t | ∃ x, m ≤ x ∧ x < g.nodeCount ∧ t = {x}}

theorem enumerateSeed_knows (hg : g.Adjacent) (hP : Preserved g receiver P) {nodeId : ℕ} (s : σ)
    (hs : Knows receiver P (seenFrom g (nodeId + 1)) s) :
    P (enumerateSeed g receiver nodeId s).2 ∧
      ((enumerateSeed g receiver nodeId s).1 = false →
        Knows receiver P (seenFrom g nodeId) (enumerateSeed g receiver nodeId s).2) := by
  have hsg : Knows receiver P (seenFrom g nodeId) (receiver.foundSingleNode nodeId s).2 := by
    refine ⟨hP.single nodeId s hs.1,?_⟩
    intro t ht
    obtain ⟨x,hx,hlt,rfl⟩ := ht
    rcases Nat.eq_or_lt_of_le hx with rfl | hx
    · exact hP.single_seen _ _
    · exact hP.single_mono _ _ _ (hs.2 {x} ⟨x,hx,hlt,rfl⟩)
  have hown : receiver.hasSeen (receiver.foundSingleNode nodeId s).2 {nodeId} = true :=
    hP.single_seen nodeId s
  let found := pbsNeighborhood g {nodeId} (pbsLowerNodes nodeId) {nodeId} (.ofNeighborhood ∅) ∅
  obtain ⟨hd₁,hd₂⟩ := pbsNeighborhood_disjoint (g := g) {nodeId} (pbsLowerNodes nodeId) {nodeId}
    (.ofNeighborhood ∅) ∅
  obtain ⟨hlt,_⟩ := pbsNeighborhood_lt hg (pbsLowerNodes nodeId) ∅ (subset_refl {nodeId})
    (cacheLt_ofNeighborhood (g := g) ∅)
  have hK : ∀ x, nodeId ≤ x → x < g.nodeCount →
      ({x} : Finset ℕ) ∈ Insert.insert {nodeId} (seenFrom g nodeId) := fun x hx hn =>
    Set.mem_insert_of_mem _ ⟨x,hx,hn,rfl⟩
  have hseeds : ∀ x ∈ found.1,
      ({x} : Finset ℕ) ∈ Insert.insert {nodeId} (seenFrom g nodeId) := by
    intro x hx
    refine hK x ?_ (hlt x hx)
    by_contra hlow
    exact disjoint_left.mp hd₂ hx (mem_pbsLowerNodes.mpr (not_le.mp hlow))
  have hlevel : Level g {nodeId} found.1 (pbsLowerNodes nodeId ∪ {nodeId}) :=
    ⟨hd₁,disjoint_union_right.mpr ⟨hd₂,hd₁⟩,hlt⟩
  have hrest : Knows receiver P (Insert.insert {nodeId} (seenFrom g nodeId))
      (andThen (enumerateComplements g receiver nodeId {nodeId} found.2.1 found.1)
        (expandSubgraph g receiver nodeId g.nodeCount {nodeId} found.2.1 found.1
          (pbsLowerNodes nodeId ∪ {nodeId})) (receiver.foundSingleNode nodeId s).2).2 :=
    andThen_invariant
      (enumerateComplements_knows hg hP (Set.mem_insert _ _) hseeds)
      (expandSubgraph_knows hg hP hK g.nodeCount subset_union_left (by simp) hlevel)
      (hsg.insert hown)
  have hseed : enumerateSeed g receiver nodeId s =
      if (receiver.foundSingleNode nodeId s).1 then (true, (receiver.foundSingleNode nodeId s).2)
      else andThen (enumerateComplements g receiver nodeId {nodeId} found.2.1 found.1)
        (expandSubgraph g receiver nodeId g.nodeCount {nodeId} found.2.1 found.1
          (pbsLowerNodes nodeId ∪ {nodeId})) (receiver.foundSingleNode nodeId s).2 := rfl
  rw [hseed]
  split
  · exact ⟨hsg.1,fun h => by cases h⟩
  · exact ⟨hrest.1,fun _ => hrest.weaken⟩

theorem seed_after_prefix {n a : ℕ} {before after : List ℕ}
    (hl : (List.range n).reverse = before ++ a :: after) :
    n - before.length = a + 1 ∧ n - (before ++ [a]).length = a := by
  have hlen : n = before.length + (after.length + 1) := by
    have hlen := congrArg List.length hl
    simp only [List.length_reverse,List.length_range,List.length_append,List.length_cons] at hlen
    exact hlen
  have hget := congrArg (fun l => l[before.length]?) hl
  simp only [List.getElem?_append_right le_rfl,Nat.sub_self,List.getElem?_cons_zero] at hget
  rw [List.getElem?_reverse (by simp; omega),List.length_range,
    List.getElem?_range (by omega),Option.some.injEq] at hget
  rw [List.length_append,List.length_singleton]
  omega

/-- The invariant rule of the traversal. -/
theorem enumerate_preserves (hg : g.Adjacent) (hP : Preserved g receiver P) {s : σ} (hs : P s) :
    P (enumerate g receiver s).2 := by
  let handled := fun (before : List ℕ) (s' : σ) =>
    Knows receiver P (seenFrom g (g.nodeCount - before.length)) s'
  have hrule : if (enumerate g receiver s).1 then P (enumerate g receiver s).2
      else handled (List.range g.nodeCount).reverse (enumerate g receiver s).2 := by
    refine untilAbort_prefix_rule handled P ?_ ?_
    · refine ⟨hs,fun t ht => ?_⟩
      obtain ⟨x,hx,hlt,_⟩ := ht
      simp only [List.length_nil,tsub_zero] at hx
      omega
    · intro before a after s' hl hI
      have hsub := seed_after_prefix hl
      obtain ⟨h₁,h₂⟩ := enumerateSeed_knows hg hP s' (by rw [← hsub.1]; exact hI)
      split
      · exact h₁
      · rename_i hff
        have hff' : (enumerateSeed g receiver a s').1 = false := by simpa using hff
        show Knows receiver P (seenFrom g (g.nodeCount - (before ++ [a]).length)) _
        rw [hsub.2]
        exact h₂ hff'
  split at hrule
  · exact hrule
  · exact hrule.1

/-! ## The fuel suffices -/

private theorem cacheLt_complementGrown (hg : g.Adjacent) (p : σ × CNeighborhoodCache)
    (hp : CacheLt g p.2) : CacheLt g (complementGrown g receiver lowestNode base full neighborhood
      forbidden growBy p).2.2 := by
  have hsub : growBy ⊆ base ∪ growBy := subset_union_right
  simp only [complementGrown]
  split
  · exact hp
  · exact (pbsNeighborhood_lt hg forbidden full hsub hp).2

section

variable (hg : g.Adjacent) (hlevel : Level g base neighborhood forbidden)
  (hbase : ∀ x ∈ base, x < g.nodeCount)

include hlevel hbase

private theorem neighborhood_eq_empty (hcard : g.nodeCount ≤ base.card) : neighborhood = ∅ := by
  have hall : base = range g.nodeCount := by
    refine eq_of_subset_of_card_le (fun x hx => mem_range.mpr (hbase x hx)) ?_
    rw [card_range]
    exact hcard
  rw [eq_empty_iff_forall_notMem]
  intro x hx
  refine disjoint_left.mp hlevel.base_disjoint hx ?_
  rw [hall,mem_range]
  exact hlevel.lt x hx

include hg

private theorem growLoop_congr (full : Finset ℕ)
    (recurse : Finset ℕ → Finset ℕ → Finset ℕ → Finset ℕ → σ → Bool × σ) {recurse'}
    (heq : ∀ grown full' n' x', Level g grown n' x' → (∀ x ∈ grown, x < g.nodeCount) →
      base.card < grown.card → recurse grown full' n' x' = recurse' grown full' n' x')
    (p : σ × CNeighborhoodCache) (hp : CacheLt g p.2) :
    untilAbort (growInto g base neighborhood forbidden full recurse) (subsets neighborhood) p =
      untilAbort (growInto g base neighborhood forbidden full recurse')
        (subsets neighborhood) p := by
  refine untilAbort_congr (P := fun p => CacheLt g p.2)
    (fun growBy _ p hp => (Level.grow hg base neighborhood forbidden growBy full hp).2) ?_ hp
  intro growBy hgrow p hp
  obtain ⟨hnext,_⟩ := Level.grow hg base neighborhood forbidden growBy full hp
  have hlt : ∀ x ∈ base ∪ growBy, x < g.nodeCount := by
    intro x hx
    rcases mem_union.mp hx with hx | hx
    · exact hbase x hx
    · exact hlevel.lt x ((mem_subsets.mp hgrow).2 hx)
  simp only [growInto]
  rw [heq _ _ _ _ hnext hlt (hlevel.card_lt hgrow)]

theorem expandComplement_succ (fuel : ℕ) (hfuel : g.nodeCount ≤ base.card + fuel) :
    expandComplement g receiver l full (fuel + 1) base neighborhood forbidden =
      expandComplement g receiver l full fuel base neighborhood forbidden := by
  induction fuel generalizing base neighborhood forbidden with
  | zero =>
    rw [neighborhood_eq_empty hlevel hbase (by omega)]
    rfl
  | succ fuel ih =>
    have hloop := growLoop_congr hg hlevel hbase ∅
      (fun grown _ => expandComplement g receiver l full (fuel + 1) grown)
      fun grown _ n' x' hnext hlt hcard => ih hnext hlt (by omega)
    rw [expandComplement,expandComplement]
    congr 1
    funext s
    simp only [withCache]
    rw [hloop _ (cacheLt_ofNeighborhood neighborhood)]

theorem expandSubgraph_succ (fuel : ℕ) (hfuel : g.nodeCount ≤ base.card + fuel) :
    expandSubgraph g receiver lowestNode (fuel + 1) base full neighborhood forbidden =
      expandSubgraph g receiver lowestNode fuel base full neighborhood forbidden := by
  induction fuel generalizing base full neighborhood forbidden with
  | zero =>
    rw [neighborhood_eq_empty hlevel hbase (by omega)]
    rfl
  | succ fuel ih =>
    have hloop := growLoop_congr hg hlevel hbase full
      (expandSubgraph g receiver lowestNode (fuel + 1))
      fun grown full' n' x' hnext hlt hcard => ih hnext hlt (by omega)
    rw [expandSubgraph,expandSubgraph]
    funext s
    simp only [withCache,andThen]
    rw [hloop]
    refine untilAbort_invariant (P := fun p : σ × CNeighborhoodCache => CacheLt g p.2) ?_
      (cacheLt_ofNeighborhood neighborhood)
    intro growBy _ p hp
    exact cacheLt_complementGrown hg p hp

end

end CDPHyperEnumerator

end PgOrca
