import PgOrca.DPHyper.Enumerator

/-!
# What one neighbourhood computation guarantees

`Reason` says where a node of a neighbourhood comes from, found in the cache or afresh.
-/

namespace PgOrca

open Finset CNeighborhoodCache

variable {s full subgraph : Finset ℕ} {y : ℕ}

namespace CDPHyperGraph

variable {g : CDPHyperGraph}

theorem Adjacent.joins_valid (hg : g.Adjacent) {u v : Finset ℕ} (h : g.Joins u v) :
    u.Nonempty ∧ v.Nonempty ∧ Disjoint u v ∧ (∀ x ∈ u, x < g.nodeCount) ∧
      ∀ x ∈ v, x < g.nodeCount := by
  obtain ⟨d,hd,rfl,rfl⟩ := h
  have hv := hg.valid d hd
  exact ⟨hv.left_nonempty,hv.right_nonempty,hv.disjoint,hv.left_lt,hv.right_lt⟩

theorem Adjacent.mem_simpleNeighborhood (hg : g.Adjacent) (y x : ℕ) :
    x ∈ (g.node y).simpleNeighborhood ↔ g.Joins {y} {x} := by
  rw [hg.simpleNeighborhood]
  constructor
  · intro h
    obtain ⟨d,hd,hx⟩ := h
    obtain ⟨hlt,hsim,hy⟩ := (hg.simpleEdges y d).mp hd
    obtain ⟨a,ha⟩ := card_eq_one.mp hsim.1
    obtain ⟨b,hb⟩ := card_eq_one.mp hsim.2
    rw [ha,mem_singleton] at hy
    rw [hb,mem_singleton] at hx
    subst hy hx
    exact ⟨d,hlt,ha,hb⟩
  · intro h
    obtain ⟨d,hlt,hl,hr⟩ := h
    refine ⟨d,(hg.simpleEdges y d).mpr ⟨hlt,?_,?_⟩,?_⟩
    · simp [SEdge.Simple,hl,hr]
    · simp [hl]
    · simp [hr]

theorem Adjacent.simple_or_complex (hg : g.Adjacent) {d : ℕ} (hd : d < g.edges.length)
    (hy : y ∈ (g.edge d).left) :
    ((∃ x, (g.edge d).left = {y} ∧ (g.edge d).right = {x}) ∧ d ∈ (g.node y).simpleEdges) ∨
      d ∈ (g.node y).complexEdges := by
  by_cases hs : (g.edge d).Simple
  · left
    refine ⟨?_,(hg.simpleEdges y d).mpr ⟨hd,hs,hy⟩⟩
    obtain ⟨a,ha⟩ := card_eq_one.mp hs.1
    obtain ⟨b,hb⟩ := card_eq_one.mp hs.2
    rw [ha,mem_singleton] at hy
    subst hy
    exact ⟨b,ha,hb⟩
  · exact .inr ((hg.complexEdges y d).mpr ⟨hd,hs,hy⟩)

end CDPHyperGraph

namespace CDPHyperEnumerator

variable {g : CDPHyperGraph} {t c justGrown : Finset ℕ}
  {cache : CNeighborhoodCache}

/-- The edge starts inside the subgraph and its target touches no blocked node. -/
private def Open (g : CDPHyperGraph) (subgraph forbidden : Finset ℕ) (d : ℕ) : Prop :=
  (g.edge d).left ⊆ subgraph ∧ Disjoint (g.edge d).right subgraph ∧
    Disjoint (g.edge d).right forbidden

private theorem searchComplexEdge_cases (subgraph forbidden : Finset ℕ) (acc : Finset ℕ × Finset ℕ)
    (d : ℕ) :
    (¬ Open g subgraph forbidden d ∧ searchComplexEdge g subgraph forbidden acc d = acc) ∨
    (Open g subgraph forbidden d ∧ Disjoint (g.edge d).right acc.1 ∧
      searchComplexEdge g subgraph forbidden acc d =
        (acc.1 ∪ {lowestBit (g.edge d).right}, acc.2 ∪ (g.edge d).right)) ∨
    (Open g subgraph forbidden d ∧ ¬ Disjoint (g.edge d).right acc.1 ∧
      searchComplexEdge g subgraph forbidden acc d = (acc.1, acc.2 ∪ (g.edge d).right)) := by
  by_cases hopen : Open g subgraph forbidden d
  · have hskip : ¬ (¬ (g.edge d).left ⊆ subgraph ∨ ¬ Disjoint (g.edge d).right subgraph ∨
        ¬ Disjoint (g.edge d).right forbidden) := by
      simpa only [Open,not_or,not_not] using hopen
    right
    by_cases hdis : Disjoint (g.edge d).right acc.1
    · exact .inl ⟨hopen,hdis,by simp only [searchComplexEdge,if_neg hskip,if_pos hdis]⟩
    · exact .inr ⟨hopen,hdis,by simp only [searchComplexEdge,if_neg hskip,if_neg hdis]⟩
  · left
    refine ⟨hopen,?_⟩
    simp only [searchComplexEdge]
    rw [if_pos]
    simp only [Open] at hopen
    tauto

private theorem not_disjoint_mono {t' : Finset ℕ} (h : ¬ Disjoint s t) (ht : t ⊆ t') :
    ¬ Disjoint s t' := fun hd => h (hd.mono_right ht)

private theorem searchComplexEdges_spec (hg : g.Adjacent) (subgraph forbidden : Finset ℕ)
    (ds : List ℕ) (hds : ∀ d ∈ ds, d < g.edges.length) (acc : Finset ℕ × Finset ℕ) :
    let res := ds.foldl (searchComplexEdge g subgraph forbidden) acc
    (acc.1 ⊆ res.1 ∧ acc.2 ⊆ res.2) ∧
    (∀ d ∈ ds, Open g subgraph forbidden d →
      ¬ Disjoint (g.edge d).right res.1 ∧ (g.edge d).right ⊆ res.2) ∧
    ∀ x ∈ res.1, x ∈ acc.1 ∨ ∃ d ∈ ds, Open g subgraph forbidden d ∧
      x = lowestBit (g.edge d).right ∧ Disjoint (g.edge d).right acc.1 := by
  induction ds generalizing acc with
  | nil => simp
  | cons d ds ih =>
    obtain ⟨⟨hs₁,hs₂⟩,hopen,hmem⟩ := ih (fun e he => hds e (List.mem_cons_of_mem d he))
      (searchComplexEdge g subgraph forbidden acc d)
    have hne := (hg.valid d (hds d List.mem_cons_self)).right_nonempty
    simp only [List.foldl_cons]
    rcases searchComplexEdge_cases subgraph forbidden acc d with
      ⟨hno,heq⟩ | ⟨hyes,hdis,heq⟩ | ⟨hyes,hdis,heq⟩
    · rw [heq] at hs₁ hs₂ hopen hmem ⊢
      refine ⟨⟨hs₁,hs₂⟩,?_,?_⟩
      · intro e he hoe
        rcases List.mem_cons.mp he with rfl | he
        · exact absurd hoe hno
        · exact hopen e he hoe
      · intro x hx
        refine (hmem x hx).imp_right fun h => ?_
        obtain ⟨e,he,h⟩ := h
        exact ⟨e,List.mem_cons_of_mem d he,h⟩
    · rw [heq] at hs₁ hs₂ hopen hmem ⊢
      have hsub : acc.1 ⊆ acc.1 ∪ {lowestBit (g.edge d).right} := subset_union_left
      refine ⟨⟨hsub.trans hs₁,subset_union_left.trans hs₂⟩,?_,?_⟩
      · intro e he hoe
        rcases List.mem_cons.mp he with rfl | he
        · refine ⟨?_,subset_union_right.trans hs₂⟩
          rw [not_disjoint_iff]
          exact ⟨lowestBit (g.edge e).right,lowestBit_mem hne,
            hs₁ (mem_union_right _ (mem_singleton_self _))⟩
        · exact hopen e he hoe
      · intro x hx
        rcases hmem x hx with hx | ⟨e,he,hoe,hlow,hd⟩
        · rcases mem_union.mp hx with hx | hx
          · exact .inl hx
          · exact .inr ⟨d,List.mem_cons_self,hyes,mem_singleton.mp hx,hdis⟩
        · exact .inr ⟨e,List.mem_cons_of_mem d he,hoe,hlow,hd.mono_right hsub⟩
    · rw [heq] at hs₁ hs₂ hopen hmem ⊢
      refine ⟨⟨hs₁,subset_union_left.trans hs₂⟩,?_,?_⟩
      · intro e he hoe
        rcases List.mem_cons.mp he with rfl | he
        · exact ⟨not_disjoint_mono hdis hs₁,subset_union_right.trans hs₂⟩
        · exact hopen e he hoe
      · intro x hx
        refine (hmem x hx).imp_right fun h => ?_
        obtain ⟨e,he,h⟩ := h
        exact ⟨e,List.mem_cons_of_mem d he,h⟩

/-- Why `x` is in a neighbourhood of `c`: a simple edge leads there, or it stands for the target of
a complex edge that no simple edge of one of its own source nodes enters. -/
def Reason (g : CDPHyperGraph) (c : Finset ℕ) (x : ℕ) : Prop :=
  (∃ y ∈ c, g.Joins {y} {x}) ∨
    ∃ u v, g.Joins u v ∧ u ⊆ c ∧ lowestBit v = x ∧ ∃ y ∈ u, ∀ z ∈ v, ¬ g.Joins {y} {z}

theorem Reason.lt (hg : g.Adjacent) {x : ℕ} (h : Reason g c x) : x < g.nodeCount := by
  rcases h with ⟨y,_,hj⟩ | ⟨u,v,hj,_,hlow,_⟩
  · exact (hg.joins_valid hj).2.2.2.2 x (mem_singleton_self x)
  · obtain ⟨_,hv,_,_,hlt⟩ := hg.joins_valid hj
    rw [← hlow]
    exact hlt _ (lowestBit_mem hv)

private theorem searchNodes_spec (hg : g.Adjacent) (subgraph forbidden : Finset ℕ) (ns : List ℕ)
    (hns : ∀ y ∈ ns, y ∈ subgraph) (acc : Finset ℕ × Finset ℕ) :
    let res := ns.foldl (searchNode g subgraph forbidden) acc
    (acc.1 ⊆ res.1 ∧ acc.2 ⊆ res.2) ∧
    (∀ y ∈ ns, ∀ d < g.edges.length, y ∈ (g.edge d).left → Open g subgraph forbidden d →
      ¬ Disjoint (g.edge d).right res.1 ∧ (g.edge d).right ⊆ res.1 ∪ res.2) ∧
    ∀ x ∈ res.1, x ∈ acc.1 ∨ Reason g subgraph x := by
  induction ns generalizing acc with
  | nil => simpa using fun x hx => .inl hx
  | cons y ns ih =>
    obtain ⟨⟨hs₁,hs₂⟩,hopen,hmem⟩ := ih (fun e he => hns e (List.mem_cons_of_mem y he))
      (searchNode g subgraph forbidden acc y)
    have hlist : ∀ d ∈ (g.node y).complexEdges, d < g.edges.length := fun d hd =>
      ((hg.complexEdges y d).mp hd).1
    obtain ⟨⟨ht₁,ht₂⟩,hopen',hmem'⟩ := searchComplexEdges_spec hg subgraph forbidden
      (g.node y).complexEdges hlist (acc.1 ∪ (g.node y).simpleNeighborhood, acc.2)
    have hacc : acc.1 ⊆ (searchNode g subgraph forbidden acc y).1 :=
      subset_union_left.trans ht₁
    have hsim : (g.node y).simpleNeighborhood ⊆ (searchNode g subgraph forbidden acc y).1 :=
      subset_union_right.trans ht₁
    simp only [List.foldl_cons]
    refine ⟨⟨hacc.trans hs₁,ht₂.trans hs₂⟩,?_,?_⟩
    · intro y' hy' d hd hyd hod
      rcases List.mem_cons.mp hy' with rfl | hy'
      · rcases hg.simple_or_complex hd hyd with ⟨⟨x,hl,hr⟩,_⟩ | hc
        · have hx : x ∈ (g.node y').simpleNeighborhood :=
            (hg.mem_simpleNeighborhood y' x).mpr ⟨d,hd,hl,hr⟩
          rw [hr,disjoint_singleton_left,not_not,singleton_subset_iff]
          exact ⟨hs₁ (hsim hx),mem_union_left _ (hs₁ (hsim hx))⟩
        · obtain ⟨h₁,h₂⟩ := hopen' d hc hod
          exact ⟨not_disjoint_mono h₁ hs₁,(h₂.trans hs₂).trans subset_union_right⟩
      · exact hopen y' hy' d hd hyd hod
    · intro x hx
      rcases hmem x hx with hx | hx
      · rcases hmem' x hx with hx | ⟨d,hd,hod,hlow,hdis⟩
        · rcases mem_union.mp hx with hx | hx
          · exact .inl hx
          · have hj := (hg.mem_simpleNeighborhood y x).mp hx
            exact .inr (.inl ⟨y,hns y List.mem_cons_self,hj⟩)
        · -- the target was still untouched after the simple neighbours of `y` were added
          obtain ⟨hlt,_,hyl⟩ := (hg.complexEdges y d).mp hd
          refine .inr (.inr ⟨_,_,⟨d,hlt,rfl,rfl⟩,hod.1,hlow.symm,y,hyl,?_⟩)
          intro z hz hj
          refine disjoint_left.mp hdis hz (mem_union_right _ ?_)
          exact (hg.mem_simpleNeighborhood y z).mpr hj
      · exact .inr hx

theorem pbsNeighborhood_disjoint (subgraph forbidden justGrown : Finset ℕ)
    (cache : CNeighborhoodCache) (full : Finset ℕ) :
    Disjoint (pbsNeighborhood g subgraph forbidden justGrown cache full).1 subgraph ∧
      Disjoint (pbsNeighborhood g subgraph forbidden justGrown cache full).1 forbidden := by
  simp only [pbsNeighborhood]
  exact ⟨sdiff_disjoint.mono_left sdiff_subset,sdiff_disjoint⟩

private theorem mem_toSearch
    (hy : y ∈ bits (cache.pbsToSearch justGrown ∅ full).1) : y ∈ justGrown := by
  rw [mem_bits] at hy
  simp only [pbsToSearch] at hy
  split at hy
  · exact sdiff_subset hy
  · exact hy

section

variable (hg : g.Adjacent) {forbidden : Finset ℕ}

include hg

theorem reason_of_mem_pbsNeighborhood {x : ℕ} (hgr : justGrown ⊆ subgraph)
    (hx : x ∈ (pbsNeighborhood g subgraph forbidden justGrown cache full).1) :
    Reason g subgraph x ∨ x ∈ cache.lastNeighborhood := by
  have hspec := searchNodes_spec hg subgraph forbidden
    (bits (cache.pbsToSearch justGrown ∅ full).1) (fun _ hy => hgr (mem_toSearch hy))
    (cache.pbsToSearch justGrown ∅ full).2
  rcases hspec.2.2 x (sdiff_subset (sdiff_subset hx)) with hx | hx
  · right
    simp only [pbsToSearch] at hx
    split at hx
    · simpa using hx
    · cases notMem_empty x hx
  · exact .inl hx

end

end CDPHyperEnumerator

end PgOrca
