import PgOrca.Library.Hypergraph

/-!
# Graphs with edges between whole components

The extra edges between components join a set only as a whole component.
-/

namespace PgOrca

open Finset
open SimpleGraph.ConnectedComponent (eq exact mem_supp_iff)

variable {α : Type*} {G : SimpleGraph α} {s t : Set α} {x y : α}

def ClosedUnder (G : SimpleGraph α) (s : Set α) : Prop := ∀ x ∈ s, ∀ y, G.Adj x y → y ∈ s

theorem ClosedUnder.reachable (h : ClosedUnder G s) (hx : x ∈ s) (hxy : G.Reachable x y) :
    y ∈ s := by
  rw [SimpleGraph.reachable_iff_reflTransGen] at hxy
  induction hxy with
  | refl => exact hx
  | tail _ hadj ih => exact h _ ih _ hadj

theorem closedUnder_supp (c : G.ConnectedComponent) : ClosedUnder G c.supp :=
  fun _ hx _ hadj => c.mem_supp_of_adj_mem_supp hx hadj

theorem ClosedUnder.union (hs : ClosedUnder G s) (ht : ClosedUnder G t) :
    ClosedUnder G (s ∪ t) := by
  rintro x (hx | hx) y hadj
  · exact .inl (hs x hx y hadj)
  · exact .inr (ht x hx y hadj)

theorem ClosedUnder.sdiff (hs : ClosedUnder G s) (ht : ClosedUnder G t) : ClosedUnder G (s \ t) :=
  fun x hx y hadj => ⟨hs x hx.1 y hadj,fun hy => hx.2 (ht y hy x hadj.symm)⟩

theorem exists_components_iff :
    (∃ K : Set G.ConnectedComponent, K.Nonempty ∧ s = ⋃ c ∈ K, c.supp) ↔
      s.Nonempty ∧ ClosedUnder G s := by
  constructor
  · rintro ⟨K,⟨c,hc⟩,rfl⟩
    constructor
    · obtain ⟨x,hx⟩ := c.nonempty_supp
      exact ⟨x,Set.mem_biUnion hc hx⟩
    · intro x hx y hadj
      obtain ⟨d,hd,hxd⟩ := Set.mem_iUnion₂.mp hx
      exact Set.mem_biUnion hd (d.mem_supp_of_adj_mem_supp hxd hadj)
  · intro ⟨⟨x,hx⟩,hcl⟩
    refine ⟨G.connectedComponentMk '' s,⟨_,x,hx,rfl⟩,Set.Subset.antisymm ?_ ?_⟩
    · intro y hy
      exact Set.mem_biUnion ⟨y,hy,rfl⟩ rfl
    · intro y hy
      obtain ⟨c,⟨z,hz,rfl⟩,hyc⟩ := Set.mem_iUnion₂.mp hy
      exact hcl.reachable hz (exact hyc).symm

theorem eq_supp_of_connected {c : G.ConnectedComponent} (hs : (G.induce s).Connected)
    (hsub : c.supp ⊆ s) : s = c.supp := by
  refine Set.Subset.antisymm (fun x hx => ?_) hsub
  obtain ⟨y,hy⟩ := c.nonempty_supp
  have hre := hs.preconnected ⟨y,hsub hy⟩ ⟨x,hx⟩
  have hxy : G.Reachable y x := hre.map (SimpleGraph.Embedding.induce s).toHom
  exact (closedUnder_supp c).reachable hy hxy

variable [DecidableEq α] {E : Finset α → Finset α → Prop} {V S T : Finset α}

/-- The hyperedges: those of the graph, and one between any two components inside `V`. -/
structure ComponentEdges (G : SimpleGraph α) (V : Finset α) (E : Finset α → Finset α → Prop) :
    Prop where
  edge : ∀ a b, G.Adj a b → E {a} {b}
  bridge : ∀ (c d : G.ConnectedComponent) (u v : Finset α), c ≠ d → ↑u = c.supp → ↑v = d.supp →
    u ⊆ V → v ⊆ V → E u v
  only : ∀ u v, E u v → (∃ a b, G.Adj a b ∧ u = {a} ∧ v = {b}) ∨
    ∃ c d : G.ConnectedComponent, ↑u = c.supp ∧ ↑v = d.supp

namespace ComponentEdges

theorem connected_or_closed (h : ComponentEdges G V E) (hS : Constructible E S) :
    (G.induce (S : Set α)).Connected ∨ ClosedUnder G (S : Set α) := by
  induction hS with
  | singleton a =>
    left
    rw [coe_singleton]
    have : Subsingleton ({a} : Set α) := Set.subsingleton_coe _ |>.mpr Set.subsingleton_singleton
    have : Nonempty ({a} : Set α) := ⟨⟨a,rfl⟩⟩
    exact SimpleGraph.Connected.of_subsingleton
  | @union s t _ _ hd hconn ihs iht =>
    obtain ⟨u,v,he,hu,hv⟩ := hconn
    rw [coe_union]
    rcases h.only u v he with ⟨a,b,hadj,rfl,rfl⟩ | ⟨c,d,hc,hd'⟩
    · have ha : a ∈ s := singleton_subset_iff.mp hu
      have hb : b ∈ t := singleton_subset_iff.mp hv
      -- a set that no edge leaves would contain the far end of this one
      have hs := ihs.resolve_right fun hcl =>
        disjoint_left.mp hd (hcl a ha b hadj) hb
      have ht := iht.resolve_right fun hcl =>
        disjoint_left.mp hd ha (hcl b hb a hadj.symm)
      exact .inl (SimpleGraph.connected_induce_union hs.preconnected ht.preconnected ha hb hadj)
    · have hcl : ∀ {w w' : Finset α} {e : G.ConnectedComponent}, (w : Set α) = e.supp →
          w ⊆ w' → ((G.induce (w' : Set α)).Connected ∨ ClosedUnder G (w' : Set α)) →
            ClosedUnder G (w' : Set α) := by
        intro w w' e he hsub hw
        rcases hw with hw | hw
        · rw [eq_supp_of_connected hw (he ▸ coe_subset.mpr hsub)]
          exact closedUnder_supp e
        · exact hw
      exact .inr ((hcl hc hu ihs).union (hcl hd' hv iht))

omit [DecidableEq α] in
theorem exists_adj_leaving (hS : (G.induce (S : Set α)).Connected) (hT : T.Nonempty)
    (hTS : T ⊂ S) : ∃ a ∈ T, ∃ b ∈ S, b ∉ T ∧ G.Adj a b := by
  by_contra hno
  push Not at hno
  obtain ⟨x,hx⟩ := hT
  refine hTS.not_subset fun y hy => ?_
  have hre := hS.preconnected ⟨x,hTS.subset hx⟩ ⟨y,hy⟩
  have hcl : ClosedUnder (G.induce (S : Set α)) (Set.preimage Subtype.val (T : Set α)) := by
    intro a ha b hadj
    by_contra hb
    exact hno a ha b b.2 hb hadj
  exact hcl.reachable hx hre

theorem constructible_of_connected (h : ComponentEdges G V E)
    (hS : (G.induce (S : Set α)).Connected) : Constructible E S := by
  obtain ⟨⟨x,hx⟩⟩ := hS.nonempty
  -- grow from one node; the number of nodes still missing is the measure
  suffices hgrow : ∀ k, ∀ T ⊆ S, T.Nonempty → (S \ T).card = k → Constructible E T →
      Constructible E S from
    hgrow _ {x} (singleton_subset_iff.mpr hx) (singleton_nonempty x) rfl (.singleton x)
  intro k
  induction k with
  | zero =>
    intro T hsub _ hcard hT
    rw [card_eq_zero,sdiff_eq_empty_iff_subset] at hcard
    rwa [← Finset.Subset.antisymm hsub hcard]
  | succ k ih =>
    intro T hsub hne hcard hT
    have hss : T ⊂ S := by
      refine hsub.ssubset_of_ne fun heq => ?_
      rw [heq,Finset.sdiff_self,card_empty] at hcard
      omega
    obtain ⟨a,ha,b,hb,hbT,hadj⟩ := exists_adj_leaving hS hne hss
    have hgr : Constructible E (T ∪ {b}) := by
      refine .union hT (.singleton b) (disjoint_singleton_right.mpr hbT) ?_
      exact ⟨{a},{b},h.edge a b hadj,singleton_subset_iff.mpr ha,subset_rfl⟩
    refine ih (T ∪ {b}) ?_ (hne.mono subset_union_left) ?_ hgr
    · exact union_subset hsub (singleton_subset_iff.mpr hb)
    · have hmem : b ∈ S \ T := mem_sdiff.mpr ⟨hb,hbT⟩
      have herase : S \ (T ∪ {b}) = (S \ T).erase b := by
        ext z
        simp only [mem_sdiff,mem_union,mem_singleton,mem_erase]
        tauto
      rw [herase,card_erase_of_mem hmem,hcard,Nat.add_sub_cancel]

omit [DecidableEq α] in
open Classical in
theorem exists_component (hS : ClosedUnder G (S : Set α)) (hx : x ∈ S) :
    ∃ C ⊆ S, (C : Set α) = (G.connectedComponentMk x).supp := by
  refine ⟨S.filter (G.Reachable x),filter_subset _ _,Set.ext fun y => ?_⟩
  rw [mem_coe,mem_filter,mem_supp_iff,eq,SimpleGraph.reachable_comm]
  constructor
  · exact fun h => h.2
  · exact fun h => ⟨hS.reachable hx h.symm,h⟩

theorem constructible_of_closed (h : ComponentEdges G V E) (hne : S.Nonempty)
    (hS : ClosedUnder G (S : Set α)) (hV : S ⊆ V) : Constructible E S := by
  induction hk : S.card using Nat.strongRecOn generalizing S with
  | ind k ih =>
    obtain ⟨x,hx⟩ := hne
    obtain ⟨C,hCS,hC⟩ := exists_component hS hx
    have hxC : x ∈ C := by
      rw [← mem_coe,hC]
      rfl
    have hconn : Constructible E C := by
      apply h.constructible_of_connected
      rw [hC]
      exact (G.connectedComponentMk x).connected_toSimpleGraph
    rcases (S \ C).eq_empty_or_nonempty with hemp | hrest
    · rw [sdiff_eq_empty_iff_subset] at hemp
      rwa [← Finset.Subset.antisymm hCS hemp]
    · -- the other components together are constructible, and one of them is bridged to `C`
      have hcl : ClosedUnder G ((S \ C : Finset α) : Set α) := by
        rw [coe_sdiff]
        exact hS.sdiff (hC ▸ closedUnder_supp _)
      have hlt : (S \ C).card < k := by
        rw [← hk]
        exact card_lt_card (sdiff_ssubset hCS ⟨x,hxC⟩)
      have hos := ih _ hlt hrest hcl (sdiff_subset.trans hV) rfl
      obtain ⟨y,hy⟩ := hrest
      obtain ⟨D,hDS,hD⟩ := exists_component hcl hy
      have hne : G.connectedComponentMk x ≠ G.connectedComponentMk y := by
        intro heq
        have hyC : y ∈ C := by
          rw [← mem_coe,hC,heq]
          rfl
        exact (mem_sdiff.mp hy).2 hyC
      have hbri := h.bridge _ _ C D hne hC hD (hCS.trans hV) (hDS.trans (sdiff_subset.trans hV))
      have hun : Constructible E (C ∪ S \ C) :=
        .union hconn hos disjoint_sdiff ⟨C,D,hbri,subset_rfl,hDS⟩
      rwa [union_sdiff_of_subset hCS] at hun

theorem constructible_iff (h : ComponentEdges G V E) (hV : S ⊆ V) :
    Constructible E S ↔ (G.induce (S : Set α)).Connected ∨
      ∃ K : Set G.ConnectedComponent, K.Nonempty ∧ (S : Set α) = ⋃ c ∈ K, c.supp := by
  rw [exists_components_iff]
  constructor
  · intro hS
    exact (h.connected_or_closed hS).imp_right fun hcl => ⟨hS.nonempty,hcl⟩
  · rintro (hS | ⟨hne,hS⟩)
    · exact h.constructible_of_connected hS
    · exact h.constructible_of_closed hne hS hV

end ComponentEdges

end PgOrca
