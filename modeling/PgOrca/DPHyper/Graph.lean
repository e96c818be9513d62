import PgOrca.Library.BitSet
import PgOrca.Library.Hypergraph

/-!
# The DPHyper hypergraph

Every hyperedge is kept as two directed edges. `Adjacent` states what the node lists hold after any
history of insertions and replacements; the traversal proofs use the graph only through it.
-/

namespace PgOrca

open List

structure SEdge where
  left : Finset ℕ
  right : Finset ℕ
  edgeId : ℕ
  deriving DecidableEq

structure SNode where
  simpleNeighborhood : Finset ℕ
  simpleEdges : List ℕ
  complexEdges : List ℕ
  deriving DecidableEq

namespace SNode

def empty : SNode := ⟨∅, [], []⟩

end SNode

structure CDPHyperGraph where
  nodes : List SNode
  edges : List SEdge
  deriving DecidableEq

variable {n forward reverse i : ℕ}

namespace SEdge

variable (e : SEdge)

def Simple : Prop := e.left.card = 1 ∧ e.right.card = 1

instance (e : SEdge) : Decidable e.Simple := inferInstanceAs (Decidable (_ ∧ _))

def mirror : SEdge := ⟨e.right, e.left, e.edgeId⟩

@[simp] theorem mirror_left : e.mirror.left = e.right := rfl
@[simp] theorem mirror_right : e.mirror.right = e.left := rfl

theorem mirror_simple {e : SEdge} : e.mirror.Simple ↔ e.Simple := and_comm

/-- What the assertions of `AddEdge` and `ReplaceEdge` demand in a graph with `n` nodes. -/
structure Valid (n : ℕ) (e : SEdge) : Prop where
  left_nonempty : e.left.Nonempty
  right_nonempty : e.right.Nonempty
  disjoint : Disjoint e.left e.right
  left_lt : ∀ x ∈ e.left, x < n
  right_lt : ∀ x ∈ e.right, x < n

instance (n : ℕ) (e : SEdge) : Decidable (e.Valid n) :=
  decidable_of_iff (e.left.Nonempty ∧ e.right.Nonempty ∧ Disjoint e.left e.right ∧
      (∀ x ∈ e.left, x < n) ∧ ∀ x ∈ e.right, x < n)
    ⟨fun ⟨h1, h2, h3, h4, h5⟩ => ⟨h1, h2, h3, h4, h5⟩,
      fun ⟨h1, h2, h3, h4, h5⟩ => ⟨h1, h2, h3, h4, h5⟩⟩

theorem Valid.mirror {e : SEdge} (h : e.Valid n) : e.mirror.Valid n :=
  ⟨h.right_nonempty,h.left_nonempty,h.disjoint.symm,h.right_lt,h.left_lt⟩

end SEdge

namespace CDPHyperGraph

variable {g : CDPHyperGraph}

def ofNodeCount (nodeCount : ℕ) : CDPHyperGraph :=
  ⟨List.replicate nodeCount SNode.empty, []⟩

def nodeCount (g : CDPHyperGraph) : ℕ := g.nodes.length

def directedEdgeCount (g : CDPHyperGraph) : ℕ := g.edges.length

def logicalEdgeCount (g : CDPHyperGraph) : ℕ := g.edges.length / 2

def node (g : CDPHyperGraph) (nodeId : ℕ) : SNode := g.nodes.getD nodeId SNode.empty

def edge (g : CDPHyperGraph) (edgeIdx : ℕ) : SEdge := g.edges.getD edgeIdx ⟨∅, ∅, 0⟩

private def attachSimple (nodes : List SNode) (v : ℕ) (other : Finset ℕ) (edgeIdx : ℕ) :
    List SNode :=
  nodes.modify v fun n => { n with
    simpleNeighborhood := n.simpleNeighborhood ∪ other
    simpleEdges := n.simpleEdges ++ [edgeIdx] }

private def attachComplex (nodes : List SNode) (vs : List ℕ) (edgeIdx : ℕ) : List SNode :=
  vs.foldl (fun ns v => ns.modify v fun n => { n with
    complexEdges := n.complexEdges ++ [edgeIdx] }) nodes

def attachEdgeToNodes (nodes : List SNode) (forward reverse : ℕ) (left right : Finset ℕ) :
    List SNode :=
  if left.card = 1 ∧ right.card = 1 then
    attachSimple (attachSimple nodes (lowestBit left) right forward) (lowestBit right) left reverse
  else
    attachComplex (attachComplex nodes (bits left) forward) (bits right) reverse

/-- The neighbourhood mask recomputed from the remaining simple edges of a node. -/
def rebuildSimpleNeighborhood (edges : List SEdge) (n : SNode) : SNode :=
  { n with simpleNeighborhood :=
      n.simpleEdges.foldl (fun acc d => acc ∪ (edges.getD d ⟨∅, ∅, 0⟩).right) ∅ }

private def detachSimple (edges : List SEdge) (nodes : List SNode) (v edgeIdx : ℕ) : List SNode :=
  nodes.modify v fun n =>
    rebuildSimpleNeighborhood edges { n with simpleEdges := n.simpleEdges.filter (· ≠ edgeIdx) }

private def detachComplex (nodes : List SNode) (vs : List ℕ) (edgeIdx : ℕ) : List SNode :=
  vs.foldl (fun ns v => ns.modify v fun n => { n with
    complexEdges := n.complexEdges.filter (· ≠ edgeIdx) }) nodes

def detachEdgeFromNodes (edges : List SEdge) (nodes : List SNode) (forward reverse : ℕ)
    (left right : Finset ℕ) : List SNode :=
  if left.card = 1 ∧ right.card = 1 then
    detachSimple edges (detachSimple edges nodes (lowestBit left) forward) (lowestBit right) reverse
  else
    detachComplex (detachComplex nodes (bits left) forward) (bits right) reverse

def addEdge (g : CDPHyperGraph) (e : SEdge) : CDPHyperGraph :=
  ⟨attachEdgeToNodes g.nodes g.edges.length (g.edges.length + 1) e.left e.right,
    g.edges ++ [e, e.mirror]⟩

/-- Both directions of one logical edge get new sides and keep their edge id. The edge is
detached while the old sides are still in the edge table. -/
def replaceEdge (g : CDPHyperGraph) (logicalEdge : ℕ) (left right : Finset ℕ) : CDPHyperGraph :=
  let forward := logicalEdge * 2
  let reverse := forward + 1
  let old := g.edge forward
  let detached := detachEdgeFromNodes g.edges g.nodes forward reverse old.left old.right
  ⟨attachEdgeToNodes detached forward reverse left right,
    (g.edges.set forward ⟨left, right, old.edgeId⟩).set reverse ⟨right, left, old.edgeId⟩⟩

/-! ## Node tables -/

private theorem getD_modify (nodes : List SNode) (i j : ℕ) (f : SNode → SNode) :
    (nodes.modify i f).getD j SNode.empty =
      if i = j ∧ j < nodes.length then f (nodes.getD j SNode.empty)
      else nodes.getD j SNode.empty := by
  rw [getD_eq_getElem?_getD,getD_eq_getElem?_getD,List.getElem?_modify]
  by_cases hj : j < nodes.length
  · rw [List.getElem?_eq_getElem hj]
    by_cases hij : i = j <;> simp [hij,hj]
  · rw [List.getElem?_eq_none (by omega)]
    simp [hj]

private theorem length_foldl_modify (f : SNode → SNode) (vs : List ℕ) (nodes : List SNode) :
    (vs.foldl (fun ns v => ns.modify v f) nodes).length = nodes.length := by
  induction vs generalizing nodes with
  | nil => rfl
  | cons v vs ih =>
    rw [foldl_cons,ih,length_modify]

private theorem getD_foldl_modify (f : SNode → SNode) (vs : List ℕ) (hnd : vs.Nodup)
    (nodes : List SNode) (j : ℕ) :
    (vs.foldl (fun ns v => ns.modify v f) nodes).getD j SNode.empty =
      if j ∈ vs ∧ j < nodes.length then f (nodes.getD j SNode.empty)
      else nodes.getD j SNode.empty := by
  induction vs generalizing nodes with
  | nil => simp
  | cons v vs ih =>
    have hv : v ∉ vs := (nodup_cons.mp hnd).1
    rw [foldl_cons,ih (nodup_cons.mp hnd).2,length_modify,getD_modify]
    by_cases hjv : v = j
    · subst hjv
      simp [hv]
    · simp [hjv,Ne.symm hjv]

private theorem modify_lowestBit {s : Finset ℕ} (h : s.card = 1) (f : SNode → SNode)
    (nodes : List SNode) :
    nodes.modify (lowestBit s) f = (bits s).foldl (fun ns v => ns.modify v f) nodes := by
  obtain ⟨a,rfl⟩ := Finset.card_eq_one.mp h
  have hbits : bits {a} = [a] :=
    perm_singleton.mp ((perm_ext_iff_of_nodup (bits_nodup _) (nodup_singleton a)).mpr
      fun x => by simp)
  rw [lowestBit_singleton,hbits]
  rfl

theorem length_attachEdgeToNodes (nodes : List SNode) (forward reverse : ℕ)
    (left right : Finset ℕ) :
    (attachEdgeToNodes nodes forward reverse left right).length = nodes.length := by
  unfold attachEdgeToNodes attachSimple attachComplex
  split_ifs
  · rw [length_modify,length_modify]
  · rw [length_foldl_modify,length_foldl_modify]

theorem length_detachEdgeFromNodes (edges : List SEdge) (nodes : List SNode) (forward reverse : ℕ)
    (left right : Finset ℕ) :
    (detachEdgeFromNodes edges nodes forward reverse left right).length = nodes.length := by
  unfold detachEdgeFromNodes detachSimple detachComplex
  split_ifs
  · rw [length_modify,length_modify]
  · rw [length_foldl_modify,length_foldl_modify]

section

variable {nodes : List SNode} {e : SEdge}

/-- The nodes of the two sides of an edge are changed, each side in its own way. -/
private theorem getD_sides (he : e.Valid nodes.length) (f g : SNode → SNode) (v : ℕ) :
    ((bits e.right).foldl (fun ns v => ns.modify v g)
      ((bits e.left).foldl (fun ns v => ns.modify v f) nodes)).getD v SNode.empty =
      if v ∈ e.left then f (nodes.getD v SNode.empty)
      else if v ∈ e.right then g (nodes.getD v SNode.empty) else nodes.getD v SNode.empty := by
  rw [getD_foldl_modify _ _ (bits_nodup _),getD_foldl_modify _ _ (bits_nodup _),length_foldl_modify]
  by_cases hl : v ∈ e.left
  · simp [hl,Finset.disjoint_left.mp he.disjoint hl,he.left_lt v hl]
  · by_cases hr : v ∈ e.right
    · simp [hl,hr,he.right_lt v hr]
    · simp [hl,hr]

private theorem getD_attachEdgeToNodes (he : e.Valid nodes.length) (forward reverse v : ℕ) :
    let attached (n : SNode) (d : ℕ) (other : Finset ℕ) : SNode :=
      if e.Simple then ⟨n.simpleNeighborhood ∪ other,n.simpleEdges ++ [d],n.complexEdges⟩
      else ⟨n.simpleNeighborhood,n.simpleEdges,n.complexEdges ++ [d]⟩
    (attachEdgeToNodes nodes forward reverse e.left e.right).getD v SNode.empty =
      if v ∈ e.left then attached (nodes.getD v SNode.empty) forward e.right
      else if v ∈ e.right then attached (nodes.getD v SNode.empty) reverse e.left
      else nodes.getD v SNode.empty := by
  intro attached
  by_cases hs : e.Simple
  · have hs' : e.left.card = 1 ∧ e.right.card = 1 := hs
    simp only [attached,if_pos hs,attachEdgeToNodes,if_pos hs',attachSimple,
      modify_lowestBit hs.1,modify_lowestBit hs.2,getD_sides he]
  · have hs' : ¬ (e.left.card = 1 ∧ e.right.card = 1) := hs
    simp only [attached,if_neg hs,attachEdgeToNodes,if_neg hs',attachComplex,getD_sides he]

private theorem getD_detachEdgeFromNodes (he : e.Valid nodes.length) (edges : List SEdge)
    (forward reverse v : ℕ) : let detached (n : SNode) (d : ℕ) : SNode :=
      if e.Simple then
        rebuildSimpleNeighborhood edges { n with simpleEdges := n.simpleEdges.filter (· ≠ d) }
      else { n with complexEdges := n.complexEdges.filter (· ≠ d) }
    (detachEdgeFromNodes edges nodes forward reverse e.left e.right).getD v SNode.empty =
      if v ∈ e.left then detached (nodes.getD v SNode.empty) forward
      else if v ∈ e.right then detached (nodes.getD v SNode.empty) reverse
      else nodes.getD v SNode.empty := by
  intro detached
  by_cases hs : e.Simple
  · have hs' : e.left.card = 1 ∧ e.right.card = 1 := hs
    simp only [detached,if_pos hs,detachEdgeFromNodes,if_pos hs',detachSimple,
      modify_lowestBit hs.1,modify_lowestBit hs.2,getD_sides he]
  · have hs' : ¬ (e.left.card = 1 ∧ e.right.card = 1) := hs
    simp only [detached,if_neg hs,detachEdgeFromNodes,if_neg hs',detachComplex,getD_sides he]

private theorem mem_rebuild (edges : List SEdge) (ds : List ℕ) (acc : Finset ℕ) (w : ℕ) :
    w ∈ ds.foldl (fun acc d => acc ∪ (edges.getD d ⟨∅, ∅, 0⟩).right) acc ↔
      w ∈ acc ∨ ∃ d ∈ ds, w ∈ (edges.getD d ⟨∅, ∅, 0⟩).right := by
  induction ds generalizing acc with
  | nil => simp
  | cons d ds ih =>
    rw [foldl_cons,ih,Finset.mem_union,or_assoc]
    simp only [mem_cons,exists_eq_or_imp]

private theorem rebuild_exact (edges : List SEdge) (n : SNode) (w : ℕ) :
    w ∈ (rebuildSimpleNeighborhood edges n).simpleNeighborhood ↔
      ∃ d ∈ (rebuildSimpleNeighborhood edges n).simpleEdges,
        w ∈ (edges.getD d ⟨∅, ∅, 0⟩).right := by
  simp only [rebuildSimpleNeighborhood,mem_rebuild,Finset.notMem_empty,false_or]

/-- The nodes list exactly the directed edges in `P`. -/
structure Lists (edges : ℕ → SEdge) (P : ℕ → Prop) (nodes : List SNode) : Prop where
  simpleEdges : ∀ v d, d ∈ (nodes.getD v SNode.empty).simpleEdges ↔
    P d ∧ (edges d).Simple ∧ v ∈ (edges d).left
  complexEdges : ∀ v d, d ∈ (nodes.getD v SNode.empty).complexEdges ↔
    P d ∧ ¬ (edges d).Simple ∧ v ∈ (edges d).left
  simpleNeighborhood : ∀ v w, w ∈ (nodes.getD v SNode.empty).simpleNeighborhood ↔
    ∃ d ∈ (nodes.getD v SNode.empty).simpleEdges, w ∈ (edges d).right

variable {edges : ℕ → SEdge} {P : ℕ → Prop}

theorem Lists.attach (h : Lists edges P nodes) (he : e.Valid nodes.length) (forward reverse : ℕ)
    (edges' : ℕ → SEdge) (hes : ∀ d, P d → edges' d = edges d) (hf : edges' forward = e)
    (hr : edges' reverse = e.mirror) :
    Lists edges' (fun d => P d ∨ d = forward ∨ d = reverse)
      (attachEdgeToNodes nodes forward reverse e.left e.right) := by
  have hdisj : ∀ v ∈ e.left, v ∉ e.right := fun _ h => Finset.disjoint_left.mp he.disjoint h
  have hmir := SEdge.mirror_simple (e := e)
  have hdir (Q : SEdge → Prop) (d : ℕ) : (P d ∨ d = forward ∨ d = reverse) ∧ Q (edges' d) ↔
      P d ∧ Q (edges d) ∨ d = forward ∧ Q e ∨ d = reverse ∧ Q e.mirror := by
    grind
  have hsim (v d : ℕ) : d ∈ ((attachEdgeToNodes nodes forward reverse e.left e.right).getD v
      SNode.empty).simpleEdges ↔ (P d ∨ d = forward ∨ d = reverse) ∧ (edges' d).Simple ∧
        v ∈ (edges' d).left := by
    rw [hdir fun e => e.Simple ∧ v ∈ e.left,← h.simpleEdges,getD_attachEdgeToNodes he]
    grind [SEdge.mirror]
  refine ⟨hsim,fun v d => ?_,fun v w => ?_⟩
  · rw [hdir fun e => ¬ e.Simple ∧ v ∈ e.left,← h.complexEdges,getD_attachEdgeToNodes he]
    grind [SEdge.mirror]
  · have hold := h.simpleNeighborhood v w
    simp only [h.simpleEdges,and_assoc] at hold
    simp only [hsim,and_assoc,hdir fun e => e.Simple ∧ v ∈ e.left ∧ w ∈ e.right,exists_or,
      exists_eq_left,← hold]
    rw [getD_attachEdgeToNodes he]
    grind [SEdge.mirror]

theorem Lists.detach {table : List SEdge} (h : Lists (fun d => table.getD d ⟨∅, ∅, 0⟩) P nodes)
    (he : e.Valid nodes.length) (hf : table.getD forward ⟨∅, ∅, 0⟩ = e)
    (hr : table.getD reverse ⟨∅, ∅, 0⟩ = e.mirror) :
    Lists (fun d => table.getD d ⟨∅, ∅, 0⟩) (fun d => P d ∧ d ≠ forward ∧ d ≠ reverse)
      (detachEdgeFromNodes table nodes forward reverse e.left e.right) := by
  have hdisj : ∀ v ∈ e.left, v ∉ e.right := fun _ h => Finset.disjoint_left.mp he.disjoint h
  have hmir := SEdge.mirror_simple (e := e)
  refine ⟨fun v d => ?_,fun v d => ?_,fun v w => ?_⟩
  · have hold := h.simpleEdges v d
    rw [getD_detachEdgeFromNodes he]
    grind [SEdge.mirror,rebuildSimpleNeighborhood]
  · have hold := h.complexEdges v d
    rw [getD_detachEdgeFromNodes he]
    grind [SEdge.mirror,rebuildSimpleNeighborhood]
  · have hold := h.simpleNeighborhood v w
    rw [getD_detachEdgeFromNodes he]
    split_ifs <;> first | exact rebuild_exact table _ w | exact hold

def Once (nodes : List SNode) : Prop :=
  ∀ v, (nodes.getD v SNode.empty).simpleEdges.Nodup ∧ (nodes.getD v SNode.empty).complexEdges.Nodup

theorem Once.attach (h : Once nodes) (hls : Lists edges P nodes) (he : e.Valid nodes.length)
    (hf : ¬ P forward) (hr : ¬ P reverse) :
    Once (attachEdgeToNodes nodes forward reverse e.left e.right) := by
  intro v
  have hv := h v
  have hsim := hls.simpleEdges v
  have hcx := hls.complexEdges v
  rw [getD_attachEdgeToNodes he]
  generalize nodes.getD v SNode.empty = node at hv hsim hcx ⊢
  split_ifs <;> grind [nodup_append]

theorem Once.detach (h : Once nodes) (he : e.Valid nodes.length) (table : List SEdge)
    (forward reverse : ℕ) :
    Once (detachEdgeFromNodes table nodes forward reverse e.left e.right) := by
  intro v
  have hv := h v
  rw [getD_detachEdgeFromNodes he]
  generalize nodes.getD v SNode.empty = node at hv ⊢
  split_ifs <;> simp [rebuildSimpleNeighborhood,hv,Nodup.filter]

end

/-! ## The adjacency invariant -/

/-- What the node lists hold: the two directions of an edge are mirror images at neighbouring
positions, and every node lists exactly the directed edges whose left side contains it. -/
structure Adjacent (g : CDPHyperGraph) : Prop where
  even : g.edges.length % 2 = 0
  mirrored : ∀ i, i * 2 + 1 < g.edges.length → g.edge (i * 2 + 1) = (g.edge (i * 2)).mirror
  valid : ∀ d < g.edges.length, (g.edge d).Valid g.nodeCount
  simpleEdges : ∀ v d, d ∈ (g.node v).simpleEdges ↔
    d < g.edges.length ∧ (g.edge d).Simple ∧ v ∈ (g.edge d).left
  complexEdges : ∀ v d, d ∈ (g.node v).complexEdges ↔
    d < g.edges.length ∧ ¬ (g.edge d).Simple ∧ v ∈ (g.edge d).left
  simpleNeighborhood : ∀ v w, w ∈ (g.node v).simpleNeighborhood ↔
    ∃ d ∈ (g.node v).simpleEdges, w ∈ (g.edge d).right

private theorem node_ofNodeCount (n v : ℕ) : (ofNodeCount n).node v = SNode.empty := by
  simp only [node,ofNodeCount,getD_eq_getElem?_getD,List.getElem?_replicate]
  split_ifs <;> rfl

theorem adjacent_ofNodeCount (n : ℕ) : (ofNodeCount n).Adjacent := by
  refine ⟨rfl,?_,?_,?_,?_,?_⟩
  · intro i hi
    simp [ofNodeCount] at hi
  · intro d hd
    simp [ofNodeCount] at hd
  · intro v d
    rw [node_ofNodeCount]
    simp [SNode.empty,ofNodeCount]
  · intro v d
    rw [node_ofNodeCount]
    simp [SNode.empty,ofNodeCount]
  · intro v w
    simp [node_ofNodeCount,SNode.empty]

@[simp] theorem nodeCount_ofNodeCount (n : ℕ) : (ofNodeCount n).nodeCount = n := by
  simp [nodeCount,ofNodeCount]

@[simp] theorem nodeCount_addEdge (g : CDPHyperGraph) (e : SEdge) :
    (g.addEdge e).nodeCount = g.nodeCount :=
  length_attachEdgeToNodes _ _ _ _ _

@[simp] theorem nodeCount_replaceEdge (g : CDPHyperGraph) (i : ℕ) (left right : Finset ℕ) :
    (g.replaceEdge i left right).nodeCount = g.nodeCount := by
  simp only [nodeCount,replaceEdge,length_attachEdgeToNodes,length_detachEdgeFromNodes]

private theorem edge_addEdge (g : CDPHyperGraph) (e : SEdge) (d : ℕ) :
    (g.addEdge e).edge d = if d = g.edges.length then e
      else if d = g.edges.length + 1 then e.mirror else g.edge d := by
  simp only [edge,addEdge,getD_eq_getElem?_getD,List.getElem?_append]
  by_cases hlt : d < g.edges.length
  · have h1 : d ≠ g.edges.length := by omega
    have h2 : d ≠ g.edges.length + 1 := by omega
    simp [hlt,h1,h2]
  · simp only [hlt,if_false]
    by_cases h1 : d = g.edges.length
    · simp [h1]
    · by_cases h2 : d = g.edges.length + 1
      · simp [h2]
      · have h3 : 2 ≤ d - g.edges.length := by omega
        rw [List.getElem?_eq_none (by simpa using h3),List.getElem?_eq_none (by omega)]
        simp [h1,h2]

theorem Adjacent.lists (hg : g.Adjacent) : Lists g.edge (· < g.edges.length) g.nodes :=
  ⟨hg.simpleEdges,hg.complexEdges,hg.simpleNeighborhood⟩

theorem Adjacent.addEdge (hg : g.Adjacent) {e : SEdge}
    (he : e.Valid g.nodeCount) : (g.addEdge e).Adjacent := by
  have hlen : (g.addEdge e).edges.length = g.edges.length + 2 := by
    simp [CDPHyperGraph.addEdge]
  have hlt (d : ℕ) : d < (g.addEdge e).edges.length ↔
      d < g.edges.length ∨ d = g.edges.length ∨ d = g.edges.length + 1 := by
    omega
  have heven := hg.even
  have hls := hg.lists.attach he g.edges.length (g.edges.length + 1) (g.addEdge e).edge
    (fun d hd => by rw [edge_addEdge,if_neg (by omega),if_neg (by omega)])
    (by simp [edge_addEdge]) (by simp [edge_addEdge])
  simp only [← hlt] at hls
  refine ⟨by omega,?_,?_,hls.simpleEdges,hls.complexEdges,hls.simpleNeighborhood⟩
  · intro i hi
    rw [hlen] at hi
    rw [edge_addEdge,edge_addEdge]
    by_cases hlast : i * 2 = g.edges.length
    · simp [hlast]
    · have hlt : i * 2 + 1 < g.edges.length := by omega
      have h1 : i * 2 + 1 ≠ g.edges.length := by omega
      have h2 : i * 2 ≠ g.edges.length + 1 := by omega
      have h3 : i * 2 + 1 ≠ g.edges.length + 1 := by omega
      simp only [h1,h2,h3,hlast,if_false]
      exact hg.mirrored i hlt
  · intro d hd
    rw [hlen] at hd
    rw [edge_addEdge,nodeCount_addEdge]
    split_ifs with h1 h2
    · exact he
    · exact he.mirror
    · exact hg.valid d (by omega)

private theorem edge_replaceEdge (g : CDPHyperGraph) (i : ℕ) (left right : Finset ℕ)
    (hi : i * 2 + 1 < g.edges.length) (d : ℕ) :
    (g.replaceEdge i left right).edge d =
      if d = i * 2 then ⟨left, right, (g.edge (i * 2)).edgeId⟩
      else if d = i * 2 + 1 then ⟨right, left, (g.edge (i * 2)).edgeId⟩ else g.edge d := by
  simp only [edge,replaceEdge,getD_eq_getElem?_getD,List.getElem?_set,length_set]
  by_cases h1 : d = i * 2
  · have h0 : i * 2 < g.edges.length := by omega
    simp [h1,h0]
  · by_cases h2 : d = i * 2 + 1
    · simp [h2,hi]
    · simp [h1,h2,Ne.symm h1,Ne.symm h2]

@[simp] theorem edges_length_replaceEdge (g : CDPHyperGraph) (i : ℕ) (left right : Finset ℕ) :
    (g.replaceEdge i left right).edges.length = g.edges.length := by
  simp [replaceEdge]

theorem edge_replaceEdge_forward (g : CDPHyperGraph) (i j : ℕ) (left right : Finset ℕ)
    (hi : i * 2 + 1 < g.edges.length) :
    (g.replaceEdge i left right).edge (j * 2) =
      if j = i then ⟨left, right, (g.edge (j * 2)).edgeId⟩ else g.edge (j * 2) := by
  rw [edge_replaceEdge g i left right hi]
  by_cases hij : j = i
  · simp [hij]
  · have h1 : j * 2 ≠ i * 2 := by omega
    have h2 : j * 2 ≠ i * 2 + 1 := by omega
    rw [if_neg h1,if_neg h2,if_neg hij]

theorem Adjacent.replaceEdge (hg : g.Adjacent) (hi : i * 2 + 1 < g.edges.length)
    {left right : Finset ℕ} (hv : SEdge.Valid g.nodeCount ⟨left, right, (g.edge (i * 2)).edgeId⟩) :
    (g.replaceEdge i left right).Adjacent := by
  have hedge := edge_replaceEdge g i left right hi
  have hdet := hg.lists.detach (hg.valid (i * 2) (by omega)) rfl (hg.mirrored i hi)
  have hls := hdet.attach (by rw [length_detachEdgeFromNodes]; exact hv) (i * 2) (i * 2 + 1)
    (g.replaceEdge i left right).edge
    (fun d hd => by rw [hedge,if_neg hd.2.1,if_neg hd.2.2]; rfl)
    (by simp [hedge]) (by simp [hedge,SEdge.mirror])
  have hlt (d : ℕ) : (d < g.edges.length ∧ d ≠ i * 2 ∧ d ≠ i * 2 + 1) ∨ d = i * 2 ∨ d = i * 2 + 1 ↔
      d < (g.replaceEdge i left right).edges.length := by
    rw [edges_length_replaceEdge]
    omega
  simp only [hlt] at hls
  refine ⟨?_,?_,?_,hls.simpleEdges,hls.complexEdges,hls.simpleNeighborhood⟩
  · rw [edges_length_replaceEdge]
    exact hg.even
  · intro j hj
    rw [edges_length_replaceEdge] at hj
    rw [hedge,hedge]
    by_cases hji : j = i
    · simp [hji,SEdge.mirror]
    · have h1 : j * 2 ≠ i * 2 := by omega
      have h2 : j * 2 ≠ i * 2 + 1 := by omega
      have h3 : j * 2 + 1 ≠ i * 2 := by omega
      have h4 : j * 2 + 1 ≠ i * 2 + 1 := by omega
      simp only [h1,h2,h3,h4,if_false]
      exact hg.mirrored j hj
  · intro d hd
    rw [edges_length_replaceEdge] at hd
    rw [hedge,nodeCount_replaceEdge]
    split_ifs with h1 h2
    · exact hv
    · exact hv.mirror
    · exact hg.valid d hd

/-- The graphs that insertions and replacements of edges reach from `n` isolated nodes, with the
assertions of `AddEdge` and `ReplaceEdge` met. -/
inductive Built (n : ℕ) : CDPHyperGraph → Prop
  | empty : Built n (ofNodeCount n)
  | addEdge {g : CDPHyperGraph} {e : SEdge} : Built n g → e.Valid n → Built n (g.addEdge e)
  | replaceEdge {g : CDPHyperGraph} {i : ℕ} {left right : Finset ℕ} : Built n g →
      i * 2 + 1 < g.edges.length → SEdge.Valid n ⟨left, right, (g.edge (i * 2)).edgeId⟩ →
      Built n (g.replaceEdge i left right)

theorem Built.adjacent (h : Built n g) : g.Adjacent ∧ g.nodeCount = n := by
  induction h with
  | empty => exact ⟨adjacent_ofNodeCount n,nodeCount_ofNodeCount n⟩
  | addEdge _ hv ih =>
    refine ⟨ih.1.addEdge (by rw [ih.2]; exact hv),?_⟩
    rw [nodeCount_addEdge,ih.2]
  | replaceEdge _ hi hv ih =>
    refine ⟨ih.1.replaceEdge hi (by rw [ih.2]; exact hv),?_⟩
    rw [nodeCount_replaceEdge,ih.2]

/-- The graph with `n` nodes after one `AddEdge` call for each listed edge. -/
def ofEdges (n : ℕ) (es : List SEdge) : CDPHyperGraph := es.foldl addEdge (ofNodeCount n)

theorem built_ofEdges {es : List SEdge} (h : ∀ e ∈ es, e.Valid n) : Built n (ofEdges n es) := by
  suffices hgen : ∀ g, Built n g → Built n (es.foldl addEdge g) from hgen _ .empty
  induction es with
  | nil => exact fun g hg => hg
  | cons e es ih =>
    intro g hg
    have hrest := ih fun e' he' => h e' (mem_cons_of_mem e he')
    exact hrest _ (hg.addEdge (h e mem_cons_self))

theorem Built.once (h : Built n g) : Once g.nodes := by
  induction h with
  | empty =>
    intro v
    change ((ofNodeCount _).node v).simpleEdges.Nodup ∧ ((ofNodeCount _).node v).complexEdges.Nodup
    simp [node_ofNodeCount,SNode.empty]
  | addEdge hb hv ih =>
    obtain ⟨hadj,hn⟩ := hb.adjacent
    exact ih.attach hadj.lists (by rw [← hn] at hv; exact hv) (by simp) (by simp)
  | @replaceEdge g i left right hb hi hv ih =>
    obtain ⟨hadj,hn⟩ := hb.adjacent
    have hvld := hadj.valid (i * 2) (by omega)
    have hdet := hadj.lists.detach hvld rfl (hadj.mirrored i hi)
    rw [← hn] at hv
    refine (ih.detach hvld _ _ _).attach hdet (e := ⟨left,right,(g.edge (i * 2)).edgeId⟩)
      ?_ (by simp) (by simp)
    rw [length_detachEdgeFromNodes]
    exact hv

/-- What the lists of node `v` have to hold. -/
structure NodeExact (g : CDPHyperGraph) (v : ℕ) : Prop where
  simple_nodup : (g.node v).simpleEdges.Nodup
  mem_simple : ∀ d, d ∈ (g.node v).simpleEdges ↔
    d < g.directedEdgeCount ∧ (g.edge d).Simple ∧ (g.edge d).left = {v}
  neighborhood : (g.node v).simpleNeighborhood =
    (g.node v).simpleEdges.toFinset.biUnion fun d => (g.edge d).right
  complex_nodup : (g.node v).complexEdges.Nodup
  mem_complex : ∀ d, d ∈ (g.node v).complexEdges ↔
    d < g.directedEdgeCount ∧ ¬ (g.edge d).Simple ∧ v ∈ (g.edge d).left

theorem Built.nodeExact (h : Built n g) (v : ℕ) : g.NodeExact v := by
  obtain ⟨hadj,-⟩ := h.adjacent
  refine ⟨(h.once v).1,fun d => ?_,?_,(h.once v).2,hadj.complexEdges v⟩
  · rw [hadj.simpleEdges]
    refine and_congr_right fun _ => and_congr_right fun hsim => ?_
    obtain ⟨w,hw⟩ := Finset.card_eq_one.mp hsim.1
    simp [hw,eq_comm]
  · ext w
    simp [hadj.simpleNeighborhood]

/-- The same edges, listed at every node up to their order. -/
structure SameLists (g g' : CDPHyperGraph) : Prop where
  edges : g'.edges = g.edges
  simpleEdges : ∀ v, (g'.node v).simpleEdges.Perm (g.node v).simpleEdges
  simpleNeighborhood : ∀ v, (g'.node v).simpleNeighborhood = (g.node v).simpleNeighborhood
  complexEdges : ∀ v, (g'.node v).complexEdges.Perm (g.node v).complexEdges

theorem Built.sameLists {g' : CDPHyperGraph} (h : Built n g) (h' : Built n g')
    (hes : g'.edges = g.edges) : SameLists g g' := by
  have hsim (v : ℕ) : (g'.node v).simpleEdges.Perm (g.node v).simpleEdges := by
    rw [perm_ext_iff_of_nodup (h'.nodeExact v).simple_nodup (h.nodeExact v).simple_nodup]
    simp [(h.nodeExact v).mem_simple,(h'.nodeExact v).mem_simple,directedEdgeCount,edge,hes]
  refine ⟨hes,hsim,fun v => ?_,fun v => ?_⟩
  · rw [(h.nodeExact v).neighborhood,(h'.nodeExact v).neighborhood,toFinset_eq_of_perm _ _ (hsim v)]
    simp only [edge,hes]
  · rw [perm_ext_iff_of_nodup (h'.nodeExact v).complex_nodup (h.nodeExact v).complex_nodup]
    simp [(h.nodeExact v).mem_complex,(h'.nodeExact v).mem_complex,directedEdgeCount,edge,hes]

private theorem edges_replaceEdge_back (hg : g.Adjacent) (hi : i * 2 + 1 < g.edges.length)
    (left right : Finset ℕ) : ((g.replaceEdge i left right).replaceEdge i (g.edge (i * 2)).left
      (g.edge (i * 2)).right).edges = g.edges := by
  have hback (d : ℕ) : ((g.replaceEdge i left right).replaceEdge i (g.edge (i * 2)).left
      (g.edge (i * 2)).right).edge d = g.edge d := by
    rw [edge_replaceEdge _ i _ _ (by simpa using hi)]
    simp only [edge_replaceEdge g i left right hi,if_true]
    split_ifs with h1 h2
    · rw [h1]
    · rw [h2,hg.mirrored i hi]
      rfl
    · rfl
  apply List.ext_getElem (by simp)
  intro d hd hd'
  simpa [edge,hd,hd'] using hback d

/-- The lists are exact after every history of calls, and replacing an edge by its old sides
restores them. -/
theorem Built.adjacency_exact {n : ℕ} (h : Built n g) :
    g.directedEdgeCount = g.logicalEdgeCount * 2 ∧
    (∀ i < g.logicalEdgeCount, g.edge (i * 2 + 1) = (g.edge (i * 2)).mirror) ∧
    (∀ v, g.NodeExact v) ∧
    ∀ i < g.logicalEdgeCount, ∀ left right, SEdge.Valid n ⟨left, right, (g.edge (i * 2)).edgeId⟩ →
      SameLists g ((g.replaceEdge i left right).replaceEdge i (g.edge (i * 2)).left
        (g.edge (i * 2)).right) := by
  obtain ⟨hadj,hn⟩ := h.adjacent
  have heven := hadj.even
  simp only [logicalEdgeCount,directedEdgeCount]
  refine ⟨by omega,fun i hi => hadj.mirrored i (by omega),h.nodeExact,?_⟩
  intro i hi left right hv
  have hlt : i * 2 + 1 < g.edges.length := by omega
  have hold := hadj.valid (i * 2) (by omega)
  rw [hn] at hold
  refine h.sameLists (.replaceEdge (h.replaceEdge hlt hv) (by simpa using hlt) ?_)
    (edges_replaceEdge_back hadj hlt left right)
  exact ⟨hold.left_nonempty,hold.right_nonempty,hold.disjoint,hold.left_lt,hold.right_lt⟩

theorem widened_parallel_edge :
    ((ofEdges 3 [⟨{0}, {1}, 0⟩, ⟨{0}, {1}, 1⟩]).replaceEdge 0 {0, 2} {1}).NodeExact 0 :=
  (Built.replaceEdge (built_ofEdges (by decide)) (by decide) (by decide)).adjacency_exact.2.2.1 0

/-! ## The edge relation of a graph -/

def Joins (g : CDPHyperGraph) (u v : Finset ℕ) : Prop :=
  ∃ d < g.edges.length, (g.edge d).left = u ∧ (g.edge d).right = v

theorem Adjacent.exists_mirror (hg : g.Adjacent) {d : ℕ}
    (hd : d < g.edges.length) : ∃ d' < g.edges.length, g.edge d' = (g.edge d).mirror := by
  have heven := hg.even
  obtain ⟨i,rfl | rfl⟩ : ∃ i, d = i * 2 ∨ d = i * 2 + 1 := ⟨d / 2,by omega⟩
  · exact ⟨i * 2 + 1,by omega,hg.mirrored i (by omega)⟩
  · refine ⟨i * 2,by omega,?_⟩
    rw [hg.mirrored i hd]
    rfl

theorem Adjacent.joins_symm (hg : g.Adjacent) (u v : Finset ℕ) (h : g.Joins u v) : g.Joins v u := by
  obtain ⟨d,hd,rfl,rfl⟩ := h
  obtain ⟨d',hd',he⟩ := hg.exists_mirror hd
  exact ⟨d',hd',by rw [he]; rfl,by rw [he]; rfl⟩

end CDPHyperGraph

end PgOrca
