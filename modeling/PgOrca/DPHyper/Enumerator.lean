import PgOrca.Library.Loop
import PgOrca.DPHyper.Graph

/-!
# The DPHyper enumerator

The receiver of the connecting edges owns the state and can stop the traversal. The recursion
carries fuel; `expandComplement_succ` and `expandSubgraph_succ` show that it is enough.
-/

namespace PgOrca

/-- `IDPHyperReceiver`. The flag of a callback asks for an early abort. -/
structure IDPHyperReceiver (σ : Type*) where
  foundSingleNode : ℕ → σ → Bool × σ
  hasSeen : σ → Finset ℕ → Bool
  foundSubgraphPair : Finset ℕ → Finset ℕ → ℕ → σ → Bool × σ

structure CNeighborhoodCache where
  taboo : Finset ℕ
  lastGrown : Finset ℕ
  lastNeighborhood : Finset ℕ
  lastFullNeighborhood : Finset ℕ
  initialized : Bool

namespace CNeighborhoodCache

def ofNeighborhood (neighborhood : Finset ℕ) : CNeighborhoodCache :=
  ⟨if 0 < neighborhood.card then {lowestBit neighborhood} else ∅, ∅, ∅, ∅, false⟩

variable (cache : CNeighborhoodCache)

/-- The cached result serves a set that contains the one it was computed for. -/
def Hits (justGrown : Finset ℕ) : Prop :=
  cache.initialized = true ∧ cache.lastGrown ⊆ justGrown

instance (cache : CNeighborhoodCache) (justGrown : Finset ℕ) : Decidable (cache.Hits justGrown) :=
  inferInstanceAs (Decidable (_ ∧ _))

variable (justGrown neighborhood fullNeighborhood : Finset ℕ)

def pbsToSearch : Finset ℕ × Finset ℕ × Finset ℕ :=
  if cache.Hits justGrown then
    (justGrown \ cache.lastGrown, neighborhood ∪ cache.lastNeighborhood,
      fullNeighborhood ∪ cache.lastFullNeighborhood)
  else (justGrown, neighborhood, fullNeighborhood)

def store : CNeighborhoodCache :=
  if Disjoint justGrown cache.taboo then
    ⟨cache.taboo, justGrown, neighborhood, fullNeighborhood, true⟩
  else cache

end CNeighborhoodCache

namespace CDPHyperEnumerator

def pbsLowerNodes (upperBound : ℕ) : Finset ℕ := Finset.range upperBound

@[simp] theorem mem_pbsLowerNodes {x upperBound : ℕ} :
    x ∈ pbsLowerNodes upperBound ↔ x < upperBound := Finset.mem_range

variable {σ : Type*} (g : CDPHyperGraph) (receiver : IDPHyperReceiver σ)

/-- One complex edge in the loop of `PbsNeighborhood`; the accumulator holds the neighbourhood and
the full neighbourhood. -/
def searchComplexEdge (subgraph forbidden : Finset ℕ) (acc : Finset ℕ × Finset ℕ) (edgeIdx : ℕ) :
    Finset ℕ × Finset ℕ :=
  let edge := g.edge edgeIdx
  if ¬ edge.left ⊆ subgraph ∨ ¬ Disjoint edge.right subgraph ∨ ¬ Disjoint edge.right forbidden then
    acc
  else
    (if Disjoint edge.right acc.1 then acc.1 ∪ {lowestBit edge.right} else acc.1,
      acc.2 ∪ edge.right)

def searchNode (subgraph forbidden : Finset ℕ) (acc : Finset ℕ × Finset ℕ) (nodeId : ℕ) :
    Finset ℕ × Finset ℕ :=
  (g.node nodeId).complexEdges.foldl (searchComplexEdge g subgraph forbidden)
    (acc.1 ∪ (g.node nodeId).simpleNeighborhood, acc.2)

/-- Returns the neighbourhood, the extended full neighbourhood and the cache. -/
def pbsNeighborhood (subgraph forbidden justGrown : Finset ℕ) (cache : CNeighborhoodCache)
    (fullNeighborhood : Finset ℕ) : Finset ℕ × Finset ℕ × CNeighborhoodCache :=
  let start := cache.pbsToSearch justGrown ∅ fullNeighborhood
  let found := (bits start.1).foldl (searchNode g subgraph forbidden) start.2
  let neighborhood := (found.1 \ subgraph) \ forbidden
  let full := found.2 ∪ neighborhood
  (neighborhood, full, cache.store justGrown neighborhood full)

variable (subgraph complement : Finset ℕ)

def reportEdge (test : SEdge → Bool) (edgeIdx : ℕ) : σ → Bool × σ :=
  if test (g.edge edgeIdx) then
    receiver.foundSubgraphPair subgraph complement (g.edge edgeIdx).edgeId
  else proceed

def reportEdges (test : SEdge → Bool) (edges : List ℕ) : σ → Bool × σ :=
  untilAbort (reportEdge g receiver subgraph complement test) edges

def connectNode (nodeId : ℕ) : σ → Bool × σ :=
  andThen
    (if ¬ Disjoint (g.node nodeId).simpleNeighborhood subgraph then
      reportEdges g receiver subgraph complement
        (fun edge => ¬ Disjoint edge.right subgraph ∧ ¬ Disjoint edge.left complement)
        (g.node nodeId).simpleEdges
    else proceed)
    (reportEdges g receiver subgraph complement
      (fun edge => nodeId = lowestBit edge.left ∧ edge.left ⊆ complement ∧ edge.right ⊆ subgraph)
      (g.node nodeId).complexEdges)

def tryConnecting (subgraph subgraphFullNeighborhood complement : Finset ℕ) : σ → Bool × σ :=
  untilAbort (connectNode g receiver subgraph complement)
    (bits (complement ∩ subgraphFullNeighborhood))

/-- Run a loop that carries a neighbourhood cache and drop the cache at its end. -/
def withCache (cache : CNeighborhoodCache)
    (loop : σ × CNeighborhoodCache → Bool × σ × CNeighborhoodCache) (s : σ) : Bool × σ :=
  ((loop (s, cache)).1, (loop (s, cache)).2.1)

/-- One subset in the second loop of `ExpandComplement` and `ExpandSubgraph`: compute the grown
neighbourhood and recurse with the nodes not taken forbidden. -/
def growInto (base neighborhood forbidden full : Finset ℕ)
    (recurse : Finset ℕ → Finset ℕ → Finset ℕ → Finset ℕ → σ → Bool × σ) (growBy : Finset ℕ)
    (s : σ × CNeighborhoodCache) : Bool × σ × CNeighborhoodCache :=
  let grown := base ∪ growBy
  let newForbidden := (forbidden ∪ neighborhood) \ grown
  let found := pbsNeighborhood g grown newForbidden growBy s.2 full
  let result := recurse grown found.2.1 found.1 newForbidden s.1
  (result.1, result.2, found.2.2)

def expandComplement (subgraph subgraphFullNeighborhood : Finset ℕ) :
    ℕ → Finset ℕ → Finset ℕ → Finset ℕ → σ → Bool × σ
  | 0, _, _, _ => proceed
  | fuel + 1, complement, neighborhood, forbidden =>
    andThen
      (untilAbort (fun growBy s =>
        if receiver.hasSeen s (complement ∪ growBy) then
          tryConnecting g receiver subgraph subgraphFullNeighborhood (complement ∪ growBy) s
        else proceed s)
        (subsets neighborhood))
      (withCache (.ofNeighborhood neighborhood)
        (untilAbort (growInto g complement neighborhood forbidden ∅
          fun grown _ newNeighborhood newForbidden =>
            expandComplement subgraph subgraphFullNeighborhood fuel grown newNeighborhood
              newForbidden)
          (subsets neighborhood)))

def reportSeed (subgraph : Finset ℕ) (seedId : ℕ) : σ → Bool × σ :=
  andThen
    (if ¬ Disjoint (g.node seedId).simpleNeighborhood subgraph then
      reportEdges g receiver subgraph {seedId} (fun edge => ¬ Disjoint edge.right subgraph)
        (g.node seedId).simpleEdges
    else proceed)
    (reportEdges g receiver subgraph {seedId}
      (fun edge => edge.left = {seedId} ∧ edge.right ⊆ subgraph) (g.node seedId).complexEdges)

variable (lowestNode : ℕ)

def complementSeed (subgraph fullNeighborhood neighborhood : Finset ℕ) (seedId : ℕ)
    (s : σ × CNeighborhoodCache) : Bool × σ × CNeighborhoodCache :=
  let reported := reportSeed g receiver subgraph seedId s.1
  if reported.1 then (true, reported.2, s.2)
  else
    let newForbidden :=
      (pbsLowerNodes lowestNode ∪ subgraph) ∪ (pbsLowerNodes seedId ∩ neighborhood)
    let found := pbsNeighborhood g {seedId} newForbidden {seedId} s.2 ∅
    let result := expandComplement g receiver subgraph fullNeighborhood g.nodeCount {seedId}
      found.1 newForbidden reported.2
    (result.1, result.2, found.2.2)

def enumerateComplements (subgraph fullNeighborhood inputNeighborhood : Finset ℕ) : σ → Bool × σ :=
  let neighborhood := inputNeighborhood \ subgraph
  withCache (.ofNeighborhood neighborhood)
    (untilAbort (complementSeed g receiver lowestNode subgraph fullNeighborhood neighborhood)
      (bits neighborhood).reverse)

/-- One subset in the first loop of `ExpandSubgraph`. -/
def complementGrown (subgraph fullNeighborhood neighborhood forbidden growBy :
    Finset ℕ) (s : σ × CNeighborhoodCache) : Bool × σ × CNeighborhoodCache :=
  let grown := subgraph ∪ growBy
  if ¬ receiver.hasSeen s.1 grown then (false, s)
  else
    let found := pbsNeighborhood g grown forbidden growBy s.2 fullNeighborhood
    let highNodes := pbsLowerNodes g.nodeCount \ pbsLowerNodes lowestNode
    let newNeighborhood := (found.1 ∪ (forbidden ∩ highNodes)) ∪ neighborhood
    let result := enumerateComplements g receiver lowestNode grown found.2.1 newNeighborhood s.1
    (result.1, result.2, found.2.2)

def expandSubgraph (lowestNode : ℕ) :
    ℕ → Finset ℕ → Finset ℕ → Finset ℕ → Finset ℕ → σ → Bool × σ
  | 0, _, _, _, _ => proceed
  | fuel + 1, subgraph, fullNeighborhood, neighborhood, forbidden =>
    withCache (.ofNeighborhood neighborhood) (andThen
      (untilAbort (complementGrown g receiver lowestNode subgraph fullNeighborhood neighborhood
        forbidden) (subsets neighborhood))
      (untilAbort (growInto g subgraph neighborhood forbidden fullNeighborhood
        (expandSubgraph lowestNode fuel)) (subsets neighborhood)))

def enumerateSeed (nodeId : ℕ) : σ → Bool × σ :=
  let found := pbsNeighborhood g {nodeId} (pbsLowerNodes nodeId) {nodeId} (.ofNeighborhood ∅) ∅
  andThen (receiver.foundSingleNode nodeId)
    (andThen (enumerateComplements g receiver nodeId {nodeId} found.2.1 found.1)
      (expandSubgraph g receiver nodeId g.nodeCount {nodeId} found.2.1 found.1
        (pbsLowerNodes nodeId ∪ {nodeId})))

/-- `true` exactly when the receiver asked for an early abort. -/
def enumerate : σ → Bool × σ :=
  untilAbort (enumerateSeed g receiver) (List.range g.nodeCount).reverse

end CDPHyperEnumerator

end PgOrca
