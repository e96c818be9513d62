import PgOrca.DPHyper.Graph
import PgOrca.JoinRegion.Request
import PgOrca.Library.Loop
import PgOrca.Library.UnionFind

/-!
# Building the hypergraph of a region

A mixed region has one edge per original join; another one has edges for the conjuncts, for sibling
dependencies and for what is still unconnected. `Build` gives up when its budget is spent.
-/

namespace PgOrca

open Finset
open CDPHyperGraph (ofEdges)
open List (mem_append not_mem_nil foldl_append map_append)

/-- The members of the region that `Build` fills. -/
structure SRegionGraph where
  graph : CDPHyperGraph
  predicateCovers : List (Finset ℕ)
  equalityEdges : List Bool
  generatedEdges : ℕ
  dependencyEdges : ℕ
  cartesianEdges : ℕ
  edgeBudgetExhausted : Bool
  deriving DecidableEq

/-- The two-element sublists, in the order of a loop over the second below one over the first. -/
def orderedPairs {α : Type*} : List α → List (α × α)
  | [] => []
  | x :: xs => xs.map (x, ·) ++ orderedPairs xs

/-- All ways to add `nodes` to the two sides that leave the right side nonempty. -/
def partitionsFrom : List ℕ → Finset ℕ → Finset ℕ → List (Finset ℕ × Finset ℕ)
  | [], left, right => if right.card = 0 then [] else [(left, right)]
  | node :: nodes, left, right =>
    partitionsFrom nodes (insert node left) right ++ partitionsFrom nodes left (insert node right)

namespace SRegionGraph

def new (nodeCount : ℕ) : SRegionGraph :=
  ⟨CDPHyperGraph.ofNodeCount nodeCount, [], [], 0, 0, 0, false⟩

/-- The flag of a step says that the source returns false. -/
def generateEdge (edgeBudget : ℕ) (left right : Finset ℕ) (edgeId : ℕ) (s : SRegionGraph) :
    Bool × SRegionGraph :=
  if edgeBudget ≤ s.generatedEdges then (true, { s with edgeBudgetExhausted := true })
  else
    (false, { s with
      graph := s.graph.addEdge ⟨left, right, edgeId⟩
      generatedEdges := s.generatedEdges + 1 })

def pushEquality (equality : Bool) (s : SRegionGraph) : Bool × SRegionGraph :=
  (false, { s with equalityEdges := s.equalityEdges ++ [equality] })

def pushCover (cover : Finset ℕ) (s : SRegionGraph) : Bool × SRegionGraph :=
  (false, { s with predicateCovers := s.predicateCovers ++ [cover] })

variable (s : SRegionGraph)

def countDependency : Bool × SRegionGraph :=
  (false, { s with dependencyEdges := s.dependencyEdges + 1 })

def countCartesian : Bool × SRegionGraph :=
  (false, { s with cartesianEdges := s.cartesianEdges + 1 })

def addPredicatePartitionsRecursive (edgeBudget predicateId : ℕ) :
    List ℕ → Finset ℕ → Finset ℕ → SRegionGraph → Bool × SRegionGraph
  | [], left, right =>
    if right.card = 0 then proceed else generateEdge edgeBudget left right predicateId
  | node :: nodes, left, right =>
    andThen
      (addPredicatePartitionsRecursive edgeBudget predicateId nodes (insert node left) right)
      (addPredicatePartitionsRecursive edgeBudget predicateId nodes left (insert node right))

/-- The lowest node is pinned to the left side. -/
def addPredicatePartitions (edgeBudget predicateId : ℕ) (cover : Finset ℕ) :
    SRegionGraph → Bool × SRegionGraph :=
  addPredicatePartitionsRecursive edgeBudget predicateId (bits cover).tail {lowestBit cover} ∅

def fPredicateCrosses (left right : Finset ℕ) : Bool :=
  s.predicateCovers.any fun cover =>
    1 < cover.card ∧ cover ⊆ left ∪ right ∧ ¬ Disjoint left cover ∧ ¬ Disjoint right cover

end SRegionGraph

namespace CDPHyperJoinRegion

variable {P : Type*} [ScalarPredicate P] (region : CDPHyperJoinRegion P)
  (fContainsEquality : P → Bool) (edgeBudget : ℕ)

open SRegionGraph

def skeletonEdges : List (Finset ℕ × Finset ℕ) :=
  match region.spec with
  | none => []
  | some spec => spec.edges.map fun edge => (edge.left, edge.right)

def addPredicate (predicate : P × ℕ) : SRegionGraph → Bool × SRegionGraph :=
  let cover := CJoinRegionSpec.pbsPredicateCover region.components predicate.1
  andThen (pushEquality (fContainsEquality predicate.1)) <|
    andThen (pushCover cover) <|
      if 1 < cover.card then addPredicatePartitions edgeBudget predicate.2 cover else proceed

def addDependencyEdge (spec : CJoinRegionSpec P) (dependent : ℕ) (s : SRegionGraph) :
    Bool × SRegionGraph :=
  if (spec.dependenciesOf dependent).card = 0 then proceed s
  else
    andThen (generateEdge edgeBudget (spec.dependenciesOf dependent) {dependent}
      (region.conjuncts.length + s.dependencyEdges)) countDependency s

def addDependencyEdges : SRegionGraph → Bool × SRegionGraph :=
  match region.spec with
  | none => proceed
  | some spec =>
    if spec.hasDependencies then
      untilAbort (region.addDependencyEdge edgeBudget spec) (List.range spec.nodeCount)
    else proceed

variable (edge : Finset ℕ × Finset ℕ) (s : SRegionGraph)

/-- An edge that is no predicate's; it is numbered after the conjuncts and the dependencies. -/
def addCartesianEdge : Bool × SRegionGraph :=
  andThen (generateEdge edgeBudget edge.1 edge.2
    (region.conjuncts.length + s.dependencyEdges + s.cartesianEdges)) countCartesian s

def addMissingSkeletonEdge : Bool × SRegionGraph :=
  if s.fPredicateCrosses edge.1 edge.2 then proceed s
  else region.addCartesianEdge edgeBudget edge s

def addMissingSkeletonEdges : SRegionGraph → Bool × SRegionGraph :=
  untilAbort (region.addMissingSkeletonEdge edgeBudget) region.skeletonEdges

def linksOf (nodes : Finset ℕ) : List (ℕ × ℕ) := (bits nodes).tail.map (lowestBit nodes, ·)

variable (predicateCovers : List (Finset ℕ))

/-- The pairs that the two loops before the component scan hand to the union-find. -/
def connectivityLinks : List (ℕ × ℕ) :=
  (predicateCovers.filter fun cover => ¬ cover.card < 2).flatMap linksOf ++
    region.skeletonEdges.flatMap fun edge => linksOf (edge.1 ∪ edge.2)

def connectedComponents : List (Finset ℕ) :=
  let nodeCount := region.components.length
  let links := region.connectivityLinks predicateCovers
  UnionFind.classes (UnionFind.unions (List.range nodeCount) links) nodeCount

def addCartesianComponentEdges : Bool × SRegionGraph :=
  untilAbort (region.addCartesianEdge edgeBudget)
    (orderedPairs (region.connectedComponents s.predicateCovers)) s

/-- The edge of an original join: its TES, cut by the two sides. -/
def addTesEdge (edge : CEdge P × ℕ) (s : SRegionGraph) : Bool × SRegionGraph :=
  let tes := edge.1.tes.getD ∅
  andThen (generateEdge edgeBudget (tes ∩ edge.1.left) (tes ∩ edge.1.right) edge.2)
    (pushEquality (fContainsEquality edge.1.predicate)) s

def build : Bool × SRegionGraph :=
  let s := SRegionGraph.new region.components.length
  let (failed, s) :=
    match region.complexSpec with
    | some spec =>
      untilAbort (addTesEdge fContainsEquality edgeBudget) spec.edges.zipIdx s
    | none =>
      andThen
        (untilAbort (region.addPredicate fContainsEquality edgeBudget) region.conjuncts.zipIdx)
        (andThen (region.addDependencyEdges edgeBudget)
          (andThen (region.addMissingSkeletonEdges edgeBudget)
            (region.addCartesianComponentEdges edgeBudget))) s
  (!failed, s)

end CDPHyperJoinRegion

/-! ## What a successful step adds -/

namespace SEdge

def sides (e : SEdge) : Finset ℕ × Finset ℕ := (e.left, e.right)

end SEdge

variable {predicateId n : ℕ} {u v : Finset ℕ}

namespace SRegionGraph

variable {left right cover : Finset ℕ}

structure Adds (s : SRegionGraph) (es : List SEdge) (s' : SRegionGraph) : Prop where
  graph : s'.graph = es.foldl CDPHyperGraph.addEdge s.graph
  covers : s'.predicateCovers = s.predicateCovers

variable {s s' s'' : SRegionGraph} {es es' : List SEdge} {edgeBudget : ℕ}

theorem Adds.refl (s : SRegionGraph) : Adds s [] s := ⟨rfl,rfl⟩

theorem Adds.trans (h : Adds s es s') (h' : Adds s' es' s'') : Adds s (es ++ es') s'' := by
  refine ⟨?_,h'.covers.trans h.covers⟩
  rw [foldl_append,← h.graph,h'.graph]

theorem generateEdge_adds {edgeId : ℕ}
    (h : (s.generateEdge edgeBudget left right edgeId).1 = false) :
    Adds s [⟨left, right, edgeId⟩] (s.generateEdge edgeBudget left right edgeId).2 := by
  unfold generateEdge at h ⊢
  split at h
  · cases h
  case isFalse hbu =>
    rw [if_neg hbu]
    exact ⟨rfl,rfl⟩

def partitionEdges (predicateId : ℕ) (nodes : List ℕ) (left right : Finset ℕ) : List SEdge :=
  (partitionsFrom nodes left right).map fun sides => ⟨sides.1, sides.2, predicateId⟩

theorem addPredicatePartitionsRecursive_adds (nodes : List ℕ) (left right : Finset ℕ)
    (s : SRegionGraph)
    (h : (addPredicatePartitionsRecursive edgeBudget predicateId nodes left right s).1 = false) :
    Adds s (partitionEdges predicateId nodes left right)
      (addPredicatePartitionsRecursive edgeBudget predicateId nodes left right s).2 := by
  induction nodes generalizing left right s with
  | nil =>
    simp only [addPredicatePartitionsRecursive,partitionEdges,partitionsFrom] at h ⊢
    split
    · exact Adds.refl s
    case isFalse hne =>
      rw [if_neg hne] at h
      exact generateEdge_adds h
  | cons node nodes ih =>
    simp only [addPredicatePartitionsRecursive] at h ⊢
    obtain ⟨h₁,h₂,heq⟩ := andThen_succeeds h
    rw [heq]
    have hboth := (ih _ _ _ h₁).trans (ih _ _ _ h₂)
    rw [partitionEdges,partitionEdges,← map_append] at hboth
    exact hboth

theorem mem_partitionsFrom {nodes : List ℕ} (hnd : nodes.Nodup) (hd : Disjoint left right)
    (hns : ∀ node ∈ nodes, node ∉ left ∪ right) :
    (u, v) ∈ partitionsFrom nodes left right ↔
      v.Nonempty ∧ left ⊆ u ∧ right ⊆ v ∧ Disjoint u v ∧
        u ∪ v = left ∪ right ∪ nodes.toFinset := by
  induction nodes generalizing left right with
  | nil =>
    rw [partitionsFrom,List.toFinset_nil,union_empty]
    split
    case isTrue hemp =>
      simp only [not_mem_nil,false_iff]
      intro ⟨⟨x,hx⟩,hu,hv,hdisj,hun⟩
      have hin : x ∈ left ∪ right := hun ▸ mem_union_right _ hx
      rw [card_eq_zero.mp hemp,union_empty] at hin
      exact disjoint_left.mp hdisj (hu hin) hx
    case isFalse hne =>
      rw [List.mem_singleton,Prod.mk.injEq]
      constructor
      · rintro ⟨rfl,rfl⟩
        exact ⟨card_ne_zero.mp hne,subset_rfl,subset_rfl,hd,rfl⟩
      · intro ⟨_,hu,hv,hdisj,hun⟩
        constructor
        · refine Finset.Subset.antisymm (fun x hx => ?_) hu
          rcases mem_union.mp (hun ▸ mem_union_left v hx) with h | h
          · exact h
          · exact absurd (hv h) (disjoint_left.mp hdisj hx)
        · refine Finset.Subset.antisymm (fun x hx => ?_) hv
          rcases mem_union.mp (hun ▸ mem_union_right u hx) with h | h
          · exact absurd hx (disjoint_left.mp hdisj (hu h))
          · exact h
  | cons node nodes ih =>
    obtain ⟨hnode,hnd⟩ := List.nodup_cons.mp hnd
    have hfr := hns node List.mem_cons_self
    rw [mem_union,not_or] at hfr
    have hrest : ∀ n ∈ nodes, n ≠ node ∧ n ∉ left ∪ right := fun n hn =>
      ⟨fun heq => hnode (heq ▸ hn),hns n (List.mem_cons_of_mem _ hn)⟩
    rw [partitionsFrom,mem_append,ih hnd,ih hnd]
    case hd => exact disjoint_insert_right.mpr ⟨hfr.1,hd⟩
    case hd => exact disjoint_insert_left.mpr ⟨hfr.2,hd⟩
    case hns =>
      intro n hn
      rw [union_insert,mem_insert,not_or]
      exact hrest n hn
    case hns =>
      intro n hn
      rw [insert_union,mem_insert,not_or]
      exact hrest n hn
    have hall : ∀ w : Finset ℕ, insert node w ∪ nodes.toFinset = w ∪ (node :: nodes).toFinset := by
      intro w
      rw [List.toFinset_cons,insert_union,union_insert]
    rw [insert_union,union_insert,hall,insert_subset_iff,insert_subset_iff]
    constructor
    · rintro (⟨hv,⟨_,hu⟩,hr,hdisj,hun⟩ | ⟨hv,hu,⟨_,hr⟩,hdisj,hun⟩)
      · exact ⟨hv,hu,hr,hdisj,hun⟩
      · exact ⟨hv,hu,hr,hdisj,hun⟩
    · intro ⟨hv,hu,hr,hdisj,hun⟩
      have hin : node ∈ u ∪ v := by
        rw [hun,List.toFinset_cons]
        exact mem_union_right _ (mem_insert_self _ _)
      rcases mem_union.mp hin with hin | hin
      · exact .inl ⟨hv,⟨hin,hu⟩,hr,hdisj,hun⟩
      · exact .inr ⟨hv,hu,⟨hin,hr⟩,hdisj,hun⟩

/-- Both sides of a partition of `cover`, the one with the lowest member first. -/
def coverEdges (predicateId : ℕ) (cover : Finset ℕ) : List SEdge :=
  if 1 < cover.card then partitionEdges predicateId (bits cover).tail {lowestBit cover} ∅ else []

theorem mem_bits_tail {x : ℕ} : x ∈ (bits cover).tail ↔ x ∈ cover ∧ x ≠ lowestBit cover := by
  have hnd := bits_nodup cover
  rw [← mem_bits]
  unfold lowestBit
  cases hbits : bits cover with
  | nil => simp
  | cons y ys =>
    rw [hbits] at hnd
    have hy := (List.nodup_cons.mp hnd).1
    simp only [List.tail_cons,List.mem_cons,List.headD_cons]
    constructor
    · intro hx
      exact ⟨.inr hx,fun heq => hy (heq ▸ hx)⟩
    · rintro ⟨hx | hx,hne⟩
      · exact absurd hx hne
      · exact hx

theorem mem_coverEdges {e : SEdge} :
    e ∈ coverEdges predicateId cover ↔
      e.edgeId = predicateId ∧ e.right.Nonempty ∧ lowestBit cover ∈ e.left ∧
        Disjoint e.left e.right ∧ e.left ∪ e.right = cover := by
  have hsp : ∀ u v : Finset ℕ, cover.Nonempty →
      ((u, v) ∈ partitionsFrom (bits cover).tail {lowestBit cover} ∅ ↔
        v.Nonempty ∧ lowestBit cover ∈ u ∧ Disjoint u v ∧ u ∪ v = cover) := by
    intro u v hne
    have hall : {lowestBit cover} ∪ ∅ ∪ (bits cover).tail.toFinset = cover := by
      ext x
      simp only [union_empty,mem_union,mem_singleton,List.mem_toFinset,mem_bits_tail]
      constructor
      · rintro (rfl | hx)
        · exact lowestBit_mem hne
        · exact hx.1
      · intro hx
        by_cases heq : x = lowestBit cover
        · exact .inl heq
        · exact .inr ⟨hx,heq⟩
    rw [mem_partitionsFrom ((bits_nodup cover).sublist (List.tail_sublist _))
      (disjoint_empty_right _),hall,singleton_subset_iff]
    · simp only [empty_subset,true_and]
    · intro node hnode
      rw [union_empty,mem_singleton]
      exact (mem_bits_tail.mp hnode).2
  have hedge : e.edgeId = predicateId ∧ (e.left, e.right) ∈ partitionsFrom (bits cover).tail
      {lowestBit cover} ∅ ↔ e ∈ partitionEdges predicateId (bits cover).tail {lowestBit cover} ∅ := by
    unfold partitionEdges
    rw [List.mem_map]
    constructor
    · rintro ⟨rfl,hmem⟩
      exact ⟨_,hmem,rfl⟩
    · rintro ⟨sides,hmem,rfl⟩
      exact ⟨rfl,hmem⟩
  unfold coverEdges
  split
  case isTrue hcard =>
    have hne : cover.Nonempty := card_pos.mp (by omega)
    rw [← hedge,hsp _ _ hne]
  case isFalse hcard =>
    simp only [not_mem_nil,false_iff]
    rintro ⟨_,hr,hleft,hdisj,rfl⟩
    have hpos := card_pos.mpr hr
    have hpos' := card_pos.mpr ⟨_,hleft⟩
    rw [card_union_of_disjoint hdisj] at hcard
    omega

end SRegionGraph

theorem mem_of_mem_orderedPairs {α : Type*} {xs : List α} {x y : α}
    (h : (x, y) ∈ orderedPairs xs) : x ∈ xs ∧ y ∈ xs := by
  induction xs with
  | nil => cases h
  | cons z zs ih =>
    rw [orderedPairs,mem_append] at h
    rcases h with h | h
    · obtain ⟨w,hw,heq⟩ := List.mem_map.mp h
      obtain ⟨rfl,rfl⟩ := Prod.mk.inj heq
      exact ⟨List.mem_cons_self,List.mem_cons_of_mem _ hw⟩
    · obtain ⟨hx,hy⟩ := ih h
      exact ⟨List.mem_cons_of_mem _ hx,List.mem_cons_of_mem _ hy⟩

theorem mem_orderedPairs_or {α : Type*} {xs : List α} {x y : α} (hx : x ∈ xs) (hy : y ∈ xs)
    (hne : x ≠ y) : (x, y) ∈ orderedPairs xs ∨ (y, x) ∈ orderedPairs xs := by
  induction xs with
  | nil => cases hx
  | cons z zs ih =>
    rw [orderedPairs,mem_append,mem_append]
    rcases List.mem_cons.mp hx with rfl | hx' <;> rcases List.mem_cons.mp hy with rfl | hy'
    · exact absurd rfl hne
    · exact .inl (.inl (List.mem_map.mpr ⟨y,hy',rfl⟩))
    · exact .inr (.inl (List.mem_map.mpr ⟨x,hx',rfl⟩))
    · exact (ih hx' hy').imp .inr .inr

namespace CDPHyperGraph

theorem edges_foldl_addEdge (es : List SEdge) (g : CDPHyperGraph) :
    (es.foldl addEdge g).edges = g.edges ++ es.flatMap fun e => [e, e.mirror] := by
  induction es generalizing g with
  | nil => rw [List.foldl_nil,List.flatMap_nil,List.append_nil]
  | cons e es ih =>
    rw [List.foldl_cons,ih,List.flatMap_cons,← List.append_assoc]
    rfl

theorem joins_iff_mem {g : CDPHyperGraph} :
    g.Joins u v ↔ ∃ e ∈ g.edges, e.left = u ∧ e.right = v := by
  unfold Joins edge
  constructor
  · intro ⟨d,hd,hl,hr⟩
    rw [List.getD_eq_getElem _ _ hd] at hl hr
    exact ⟨_,List.getElem_mem hd,hl,hr⟩
  · intro ⟨e,he,hl,hr⟩
    obtain ⟨d,hd,rfl⟩ := List.getElem_of_mem he
    refine ⟨d,hd,?_⟩
    rw [List.getD_eq_getElem _ _ hd]
    exact ⟨hl,hr⟩

theorem mem_edges_ofEdges {es : List SEdge} {d : SEdge} :
    d ∈ (ofEdges n es).edges ↔ ∃ e ∈ es, d = e ∨ d = e.mirror := by
  have hes : (ofEdges n es).edges = es.flatMap fun e => [e,e.mirror] := by
    rw [ofEdges,edges_foldl_addEdge]
    rfl
  simp only [hes,List.mem_flatMap,List.mem_cons,not_mem_nil,or_false]

theorem joins_ofEdges {es : List SEdge} :
    (ofEdges n es).Joins u v ↔ ∃ e ∈ es, e.sides = (u, v) ∨ e.sides = (v, u) := by
  rw [joins_iff_mem]
  simp only [mem_edges_ofEdges,SEdge.sides,Prod.mk.injEq]
  constructor
  · rintro ⟨d,⟨e,he,hd | hd⟩,hl,hr⟩
    · exact ⟨e,he,.inl ⟨hd ▸ hl,hd ▸ hr⟩⟩
    · subst hd
      exact ⟨e,he,.inr ⟨hr,hl⟩⟩
  · rintro ⟨e,he,⟨hl,hr⟩ | ⟨hl,hr⟩⟩
    · exact ⟨e,⟨e,he,.inl rfl⟩,hl,hr⟩
    · exact ⟨e.mirror,⟨e,he,.inr rfl⟩,hr,hl⟩

end CDPHyperGraph

/-! ## What a successful `Build` adds -/

namespace CDPHyperJoinRegion

variable {P : Type*} [ScalarPredicate P] {region : CDPHyperJoinRegion P}
  {fContainsEquality : P → Bool} {edgeBudget : ℕ} {s : SRegionGraph}

open SRegionGraph

def predicateCover (region : CDPHyperJoinRegion P) (predicate : P) : Finset ℕ :=
  CJoinRegionSpec.pbsPredicateCover region.components predicate

private theorem addPredicate_spec {predicate : P × ℕ}
    (h : (region.addPredicate fContainsEquality edgeBudget predicate s).1 = false) :
    (region.addPredicate fContainsEquality edgeBudget predicate s).2.graph =
        (coverEdges predicate.2 (region.predicateCover predicate.1)).foldl
          CDPHyperGraph.addEdge s.graph ∧
      (region.addPredicate fContainsEquality edgeBudget predicate s).2.predicateCovers =
        s.predicateCovers ++ [region.predicateCover predicate.1] := by
  unfold addPredicate at h ⊢
  obtain ⟨_,h,heq⟩ := andThen_succeeds h
  rw [heq]
  obtain ⟨_,h,heq⟩ := andThen_succeeds h
  rw [heq]
  unfold coverEdges predicateCover
  split
  case isTrue hcard =>
    rw [if_pos hcard] at h
    have hadds := addPredicatePartitionsRecursive_adds _ _ _ _ h
    exact ⟨hadds.graph,hadds.covers⟩
  case isFalse => exact ⟨rfl,rfl⟩

private theorem addPredicates_spec
    (h : (untilAbort (region.addPredicate fContainsEquality edgeBudget) region.conjuncts.zipIdx
      s).1 = false) :
    (untilAbort (region.addPredicate fContainsEquality edgeBudget) region.conjuncts.zipIdx
        s).2.graph =
      (region.conjuncts.zipIdx.flatMap fun predicate =>
        coverEdges predicate.2 (region.predicateCover predicate.1)).foldl
          CDPHyperGraph.addEdge s.graph ∧
    (untilAbort (region.addPredicate fContainsEquality edgeBudget) region.conjuncts.zipIdx
        s).2.predicateCovers =
      s.predicateCovers ++ region.conjuncts.zipIdx.map fun predicate =>
        region.predicateCover predicate.1 := by
  refine untilAbort_succeeds (fun before t => t.graph = (before.flatMap fun predicate : P × ℕ =>
      coverEdges predicate.2 (region.predicateCover predicate.1)).foldl
        CDPHyperGraph.addEdge s.graph ∧
    t.predicateCovers = s.predicateCovers ++ before.map fun predicate =>
      region.predicateCover predicate.1) h ⟨rfl,(List.append_nil _).symm⟩ ?_
  intro before predicate after t _ ⟨hg,hcv⟩ hok
  obtain ⟨hg',hcv'⟩ := addPredicate_spec hok
  constructor
  · rw [hg',hg,List.flatMap_append,foldl_append,List.flatMap_singleton]
  · rw [hcv',hcv,map_append,List.append_assoc]
    rfl

omit [ScalarPredicate P] in
private theorem addCartesianEdge_adds {edge : Finset ℕ × Finset ℕ}
    (h : (region.addCartesianEdge edgeBudget edge s).1 = false) :
    ∃ e : SEdge, e.sides = edge ∧ Adds s [e] (region.addCartesianEdge edgeBudget edge s).2 := by
  unfold addCartesianEdge at h ⊢
  obtain ⟨h,_,heq⟩ := andThen_succeeds h
  rw [heq]
  have hadds := generateEdge_adds h
  exact ⟨_,rfl,hadds.graph,hadds.covers⟩

omit [ScalarPredicate P] in
private theorem addMissingSkeletonEdges_adds
    (h : (region.addMissingSkeletonEdges edgeBudget s).1 = false) :
    ∃ es : List SEdge, Adds s es (region.addMissingSkeletonEdges edgeBudget s).2 ∧
      (∀ e ∈ es, e.sides ∈ region.skeletonEdges) ∧
      ∀ edge ∈ region.skeletonEdges,
        s.fPredicateCrosses edge.1 edge.2 = true ∨ ∃ e ∈ es, e.sides = edge := by
  refine untilAbort_succeeds (fun before t => ∃ es : List SEdge, Adds s es t ∧
    (∀ e ∈ es, e.sides ∈ region.skeletonEdges) ∧ ∀ edge ∈ before,
      s.fPredicateCrosses edge.1 edge.2 = true ∨ ∃ e ∈ es, e.sides = edge) h
    ⟨[],Adds.refl s,fun _ he => absurd he not_mem_nil,fun _ he => absurd he not_mem_nil⟩ ?_
  intro before edge after t hsp ⟨es,hadds,hfrom,hall⟩ hok
  have hedge : edge ∈ region.skeletonEdges := by
    rw [hsp]
    exact List.mem_append_right _ List.mem_cons_self
  have hcro : t.fPredicateCrosses edge.1 edge.2 = s.fPredicateCrosses edge.1 edge.2 := by
    rw [fPredicateCrosses,fPredicateCrosses,hadds.covers]
  unfold addMissingSkeletonEdge at hok ⊢
  split
  case isTrue hcr =>
    refine ⟨es,hadds,hfrom,fun other hoth => ?_⟩
    rcases mem_append.mp hoth with hoth | hoth
    · exact hall other hoth
    · rw [List.mem_singleton.mp hoth]
      exact .inl (hcro ▸ hcr)
  case isFalse hcr =>
    rw [if_neg hcr] at hok
    obtain ⟨e,he,hadds'⟩ := addCartesianEdge_adds hok
    refine ⟨es ++ [e],hadds.trans hadds',?_,?_⟩
    · intro e' he'
      rcases mem_append.mp he' with he' | he'
      · exact hfrom e' he'
      · rw [List.mem_singleton.mp he',he]
        exact hedge
    · intro other hoth
      rcases mem_append.mp hoth with hoth | hoth
      · refine (hall other hoth).imp_right fun ⟨e',he',hsd⟩ => ?_
        exact ⟨e',List.mem_append_left _ he',hsd⟩
      · rw [List.mem_singleton.mp hoth]
        exact .inr ⟨e,List.mem_append_right _ (List.mem_singleton_self e),he⟩

omit [ScalarPredicate P] in
private theorem addCartesianComponentEdges_adds
    (h : (region.addCartesianComponentEdges edgeBudget s).1 = false) :
    ∃ es : List SEdge, Adds s es (region.addCartesianComponentEdges edgeBudget s).2 ∧
      es.map SEdge.sides = orderedPairs (region.connectedComponents s.predicateCovers) := by
  refine untilAbort_succeeds (fun before t => ∃ es : List SEdge, Adds s es t ∧
    es.map SEdge.sides = before) h ⟨[],Adds.refl s,rfl⟩ ?_
  rintro before edge after t _ ⟨es,hadds,rfl⟩ hok
  obtain ⟨e,he,hadds'⟩ := addCartesianEdge_adds hok
  refine ⟨es ++ [e],hadds.trans hadds',?_⟩
  rw [map_append,List.map_singleton,he]

/-- The edges of a region without non-inner joins and sibling dependencies: the partitions of
the covers, the uncrossed original cuts and the pairs of unconnected components. -/
structure PredicateEdges (region : CDPHyperJoinRegion P) (s : SRegionGraph)
    (skeleton cartesian : List SEdge) : Prop where
  graph : s.graph = ofEdges region.components.length
    ((region.conjuncts.zipIdx.flatMap fun predicate =>
      coverEdges predicate.2 (region.predicateCover predicate.1)) ++ skeleton ++ cartesian)
  skeleton_from : ∀ e ∈ skeleton, e.sides ∈ region.skeletonEdges
  skeleton_all : ∀ edge ∈ region.skeletonEdges,
    (∃ predicate ∈ region.conjuncts, 1 < (region.predicateCover predicate).card ∧
      region.predicateCover predicate ⊆ edge.1 ∪ edge.2 ∧
      ¬ Disjoint edge.1 (region.predicateCover predicate) ∧
      ¬ Disjoint edge.2 (region.predicateCover predicate)) ∨ ∃ e ∈ skeleton, e.sides = edge
  cartesian_sides : cartesian.map SEdge.sides =
    orderedPairs (region.connectedComponents (region.conjuncts.map region.predicateCover))

theorem build_predicateEdges (hcx : region.complexSpec = none)
    (hfree : ∀ spec, region.spec = some spec → spec.hasDependencies = false)
    (h : (region.build fContainsEquality edgeBudget).1 = true) :
    ∃ skeleton cartesian,
      region.PredicateEdges (region.build fContainsEquality edgeBudget).2 skeleton cartesian := by
  have hdeps : region.addDependencyEdges edgeBudget = proceed := by
    unfold addDependencyEdges
    split
    · rfl
    case h_2 spec hspec =>
      rw [if_neg]
      rw [hfree spec hspec]
      exact Bool.false_ne_true
  unfold build at h ⊢
  rw [hcx] at h ⊢
  dsimp only at h ⊢
  rw [hdeps,Bool.not_eq_true'] at h
  rw [hdeps]
  obtain ⟨h₁,h,heq⟩ := andThen_succeeds h
  rw [heq]
  obtain ⟨hg,hcv⟩ := addPredicates_spec h₁
  obtain ⟨_,h,heq⟩ := andThen_succeeds h
  rw [heq]
  obtain ⟨h₂,h₃,heq⟩ := andThen_succeeds h
  rw [heq]
  obtain ⟨skeleton,hsk,hfrom,hall⟩ := addMissingSkeletonEdges_adds h₂
  obtain ⟨cartesian,hcar,hsd⟩ := addCartesianComponentEdges_adds h₃
  have hmap : (region.conjuncts.zipIdx.map fun predicate => region.predicateCover predicate.1) =
      region.conjuncts.map region.predicateCover := by
    have hcomp := List.map_map (f := Prod.fst) (g := region.predicateCover)
      (l := region.conjuncts.zipIdx)
    rw [List.zipIdx_map_fst] at hcomp
    exact hcomp.symm
  have hcv' : (untilAbort (region.addPredicate fContainsEquality edgeBudget)
      region.conjuncts.zipIdx (SRegionGraph.new region.components.length)).2.predicateCovers =
        region.conjuncts.map region.predicateCover := by
    rw [hcv,hmap]
    rfl
  refine ⟨skeleton,cartesian,?_,hfrom,?_,?_⟩
  · rw [hcar.graph,hsk.graph,ofEdges,foldl_append,foldl_append]
    dsimp only [proceed]
    rw [hg]
    rfl
  · intro edge hedge
    refine (hall edge hedge).imp_left fun hcr => ?_
    unfold fPredicateCrosses at hcr
    dsimp only [proceed] at hcr
    rw [hcv',List.any_map,List.any_eq_true] at hcr
    obtain ⟨predicate,hmem,hcr⟩ := hcr
    exact ⟨predicate,hmem,of_decide_eq_true hcr⟩
  · rw [hsd,hsk.covers]
    exact congrArg _ (congrArg _ hcv')

def tesEdge (edge : CEdge P × ℕ) : SEdge :=
  ⟨edge.1.tes.getD ∅ ∩ edge.1.left, edge.1.tes.getD ∅ ∩ edge.1.right, edge.2⟩

theorem build_tesEdges {spec : CJoinRegionSpec P} (hcx : region.complexSpec = some spec)
    (h : (region.build fContainsEquality edgeBudget).1 = true) :
    (region.build fContainsEquality edgeBudget).2.graph =
      ofEdges region.components.length (spec.edges.zipIdx.map tesEdge) := by
  unfold build at h ⊢
  rw [hcx] at h ⊢
  rw [Bool.not_eq_true'] at h
  refine untilAbort_succeeds (fun before s => s.graph =
    ofEdges region.components.length (before.map tesEdge)) h rfl ?_
  intro before edge after s _ hg hok
  unfold addTesEdge at hok ⊢
  obtain ⟨hadd,_,heq⟩ := andThen_succeeds hok
  rw [heq,map_append,ofEdges,foldl_append,← ofEdges,← hg]
  exact (generateEdge_adds hadd).graph

end CDPHyperJoinRegion

end PgOrca
