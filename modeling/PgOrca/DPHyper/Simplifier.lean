import PgOrca.DPHyper.Plan

/-!
# The hypergraph simplifier

A step widens one side of an edge so that it has to wait for a neighbouring edge. Steps wait in a
priority queue and can be taken back and replayed.
-/

namespace PgOrca

/-- `m_reachable`: for every edge the edges that have to come after it, itself included. -/
structure CDPHyperOrderConstraints where
  reachable : List (Finset ℕ)
  deriving DecidableEq

variable (order : CDPHyperOrderConstraints)

namespace CDPHyperOrderConstraints

def new (edgeCount : ℕ) : CDPHyperOrderConstraints :=
  ⟨(List.range edgeCount).map fun edge => {edge}⟩

def wouldCreateCycle (before after : ℕ) : Bool :=
  before ∈ order.reachable.getD after ∅

def tryAdd (before after : ℕ) : Bool × CDPHyperOrderConstraints :=
  if order.wouldCreateCycle before after then (false, order)
  else if after ∈ order.reachable.getD before ∅ then (true, order)
  else
    (true, ⟨order.reachable.map fun r =>
      if before ∈ r then r ∪ order.reachable.getD after ∅ else r⟩)

end CDPHyperOrderConstraints

structure SEdgeChange where
  edge : ℕ
  oldLeft : Finset ℕ
  oldRight : Finset ℕ
  newLeft : Finset ℕ
  newRight : Finset ℕ
  deriving DecidableEq

structure SSimplificationStep (κ : Type*) where
  benefit : κ
  before : ℕ
  after : ℕ
  change : SEdgeChange
  deriving DecidableEq

/-- `bestNeighbor` is `none` where the source has -1. -/
structure SBestSimplification (κ : Type*) where
  bestNeighbor : Option ℕ
  step : Option (SSimplificationStep κ)
  inQueue : Bool
  deriving DecidableEq

/-- What the simplifier is given from outside: the cost of a join, where there is one, the filter on
edge ids, the arithmetic of costs, and the entry that the priority queue returns first. Nothing is
assumed about the order or the arithmetic. -/
structure Oracles (κ : Type*) where
  joinCost : Finset ℕ → Finset ℕ → Option κ
  edgeFilter : ℕ → Bool
  lt : κ → κ → Bool
  le : κ → κ → Bool
  zero : κ
  div : κ → κ → κ
  maxValue : κ
  top : List (ℕ × Option κ) → Option ℕ
  top_mem : ∀ entries i, top entries = some i → i ∈ entries.map Prod.fst
  top_isSome : ∀ entries, entries ≠ [] → (top entries).isSome

structure CDPHyperGraphSimplifier (κ : Type*) where
  graph : CDPHyperGraph
  order : CDPHyperOrderConstraints
  best : List (SBestSimplification κ)
  queue : List ℕ
  applied : List (SSimplificationStep κ)
  unapplied : List (SSimplificationStep κ)
  deriving DecidableEq

namespace CDPHyperGraphSimplifier

variable {κ : Type*} (o : Oracles κ) (s : CDPHyperGraphSimplifier κ)

def bestAt (i : ℕ) : SBestSimplification κ :=
  s.best.getD i ⟨none, none, false⟩

def setBest (i : ℕ) (b : SBestSimplification κ) : CDPHyperGraphSimplifier κ :=
  { s with best := s.best.set i b }

def between (first last : ℕ) : List ℕ := List.range' first (last - first)

def edge (e : ℕ) : SEdge := s.graph.edge (e * 2)

def pbsUsedNodes (e : ℕ) : Finset ℕ :=
  (s.edge e).left ∪ (s.edge e).right

def fTryGetSuperset (left right : Finset ℕ) : Option (Finset ℕ) :=
  if left ⊆ right then some right else if right ⊆ left then some left else none

def pchange (e : ℕ) (newLeft newRight : Finset ℕ) : SEdgeChange :=
  ⟨e, (s.edge e).left, (s.edge e).right, newLeft, newRight⟩

/-- Join `set1` and `set2` by `edge1` first: the left side of `edge2` then needs both. -/
def threeLeftJoin (set1 : Finset ℕ) (edge1 : ℕ) (set2 : Finset ℕ) (edge2 : ℕ)
    (set3 : Finset ℕ) : Option (SSimplificationStep κ) :=
  let newLeft := set1 ∪ set2
  if ¬ Disjoint set1 set2 ∨ ¬ Disjoint newLeft set3 then none
  else match o.joinCost set1 set2, o.joinCost newLeft set3 with
    | some _, some totalCost => some ⟨totalCost, edge1, edge2, s.pchange edge2 newLeft set3⟩
    | _, _ => none

/-- Join `set2` and `set3` by `edge2` first: the right side of `edge1` then needs both. -/
def threeRightJoin (set1 : Finset ℕ) (edge1 : ℕ) (set2 : Finset ℕ) (edge2 : ℕ)
    (set3 : Finset ℕ) : Option (SSimplificationStep κ) :=
  let newRight := set2 ∪ set3
  if ¬ Disjoint set2 set3 ∨ ¬ Disjoint set1 newRight then none
  else match o.joinCost set2 set3, o.joinCost set1 newRight with
    | some _, some totalCost => some ⟨totalCost, edge2, edge1, s.pchange edge1 set1 newRight⟩
    | _, _ => none

def orderJoin (edge1Before2 edge2Before1 : SSimplificationStep κ) : SSimplificationStep κ :=
  let cost1 := edge1Before2.benefit
  let cost2 := edge2Before1.benefit
  let selected := if o.lt cost1 cost2 then edge1Before2 else edge2Before1
  let lower := if o.lt cost2 cost1 then cost2 else cost1
  let higher := if o.lt cost1 cost2 then cost2 else cost1
  { selected with benefit := if o.lt o.zero lower then o.div higher lower else o.maxValue }

variable (edge1 edge2 : ℕ)

/-- The two candidate steps for a pair of edges, by the sides on which they overlap. -/
def candidates : Option (SSimplificationStep κ) × Option (SSimplificationStep κ) :=
  let left1 := (s.edge edge1).left
  let right1 := (s.edge edge1).right
  let left2 := (s.edge edge2).left
  let right2 := (s.edge edge2).right
  let overlap (side1 side2 other1 other2 : Finset ℕ) : Option (Finset ℕ) :=
    if Disjoint other1 other2 then fTryGetSuperset side1 side2 else none
  match overlap left1 left2 right1 right2 with
  | some common =>
    (s.threeLeftJoin o common edge1 right1 edge2 right2,
      s.threeLeftJoin o common edge2 right2 edge1 right1)
  | none =>
    match overlap left1 right2 left2 right1 with
    | some common =>
      (s.threeRightJoin o left2 edge2 common edge1 right1,
        s.threeLeftJoin o left2 edge2 common edge1 right1)
    | none =>
      match overlap right1 left2 left1 right2 with
      | some common =>
        (s.threeLeftJoin o left1 edge1 common edge2 right2,
          s.threeRightJoin o left1 edge1 common edge2 right2)
      | none =>
        match overlap right1 right2 left1 left2 with
        | some common =>
          (s.threeRightJoin o left2 edge2 left1 edge1 common,
            s.threeRightJoin o left1 edge1 left2 edge2 common)
        | none => (none, none)

def makeStep : Option (SSimplificationStep κ) :=
  let used1 := s.pbsUsedNodes edge1
  let used2 := s.pbsUsedNodes edge2
  if used1 ⊆ used2 ∨ used2 ⊆ used1 ∨ s.order.wouldCreateCycle edge1 edge2 ∨
      s.order.wouldCreateCycle edge2 edge1 ∨ ¬ o.edgeFilter (s.edge edge1).edgeId ∨
      ¬ o.edgeFilter (s.edge edge2).edgeId then none
  else match s.candidates o edge1 edge2 with
    | (some first, some second) => some (orderJoin o first second)
    | _ => none

def updateQueue (i : ℕ) : CDPHyperGraphSimplifier κ :=
  let best := s.bestAt i
  if ¬ best.inQueue then
    if best.bestNeighbor.isSome then
      { s.setBest i ⟨best.bestNeighbor, best.step, true⟩ with queue := s.queue ++ [i] }
    else s
  else
    let rebuilt := s.queue.filter (· ≠ i)
    if best.bestNeighbor.isNone then
      { s.setBest i ⟨best.bestNeighbor, best.step, false⟩ with queue := rebuilt }
    else { s with queue := rebuilt ++ [i] }

variable (step : SSimplificationStep κ)

def trySetStep (i neighbor : ℕ) : Bool × CDPHyperGraphSimplifier κ :=
  let best := s.bestAt i
  if best.bestNeighbor.isNone ∨ ¬ best.inQueue ∨
      (∃ old ∈ best.step, o.le old.benefit step.benefit) then
    (true, (s.setBest i ⟨some neighbor, some step, best.inQueue⟩).updateQueue i)
  else (false, s)

/-- Offer the step for a pair of edges to the entry `i`, whose other edge is `neighbor`. -/
def tryPair (edge1 edge2 i neighbor : ℕ) : Bool × CDPHyperGraphSimplifier κ :=
  match s.makeStep o edge1 edge2 with
  | some step => s.trySetStep o step i neighbor
  | none => (false, s)

/-- The second half of `ProcessNeighbors`: recompute the best step among the later edges. -/
def processLater (edge1 first last : ℕ) : CDPHyperGraphSimplifier κ :=
  let best := s.bestAt edge1
  let cleared := s.setBest edge1 ⟨none, best.step, best.inQueue⟩
  ((between (max first (edge1 + 1)) last).foldl
    (fun s edge2 => (s.tryPair o edge1 edge2 edge1 edge2).2) cleared).updateQueue edge1

/-- One earlier edge in the first half of `ProcessNeighbors`. The recursive call of the source has
no earlier edges of its own, so it is `processLater`. -/
def processEarlier (edge1 : ℕ) (s : CDPHyperGraphSimplifier κ) (edge2 : ℕ) :
    CDPHyperGraphSimplifier κ :=
  let tried := s.tryPair o edge1 edge2 edge2 edge1
  if tried.1 then tried.2
  else if (tried.2.bestAt edge2).bestNeighbor = some edge1 then
    tried.2.processLater o edge2 (edge2 + 1) tried.2.graph.logicalEdgeCount
  else tried.2

def processNeighbors (edge1 first last : ℕ) : CDPHyperGraphSimplifier κ :=
  ((between first (min last edge1)).foldl (processEarlier o edge1) s).processLater o edge1 first
    last

def extractDependency : CDPHyperGraphSimplifier κ :=
  if s.pbsUsedNodes edge1 ⊆ s.pbsUsedNodes edge2 then
    { s with order := (s.order.tryAdd edge1 edge2).2 }
  else if s.pbsUsedNodes edge2 ⊆ s.pbsUsedNodes edge1 then
    { s with order := (s.order.tryAdd edge2 edge1).2 }
  else s

def extractJoinDependencies : CDPHyperGraphSimplifier κ :=
  (List.range s.graph.logicalEdgeCount).foldl (fun s edge1 =>
    (between (edge1 + 1) s.graph.logicalEdgeCount).foldl
      (fun s edge2 => s.extractDependency edge1 edge2) s) s

def initFirstStep : CDPHyperGraphSimplifier κ :=
  (List.range s.graph.logicalEdgeCount).foldl
    (fun s edge => s.processNeighbors o edge (edge + 1) s.graph.logicalEdgeCount)
    s.extractJoinDependencies

def new (graph : CDPHyperGraph) : CDPHyperGraphSimplifier κ :=
  initFirstStep o ⟨graph,.new graph.logicalEdgeCount,
    List.replicate graph.logicalEdgeCount ⟨none, none, false⟩,[],[],[]⟩

/-- The loop of `FetchStep` over the queue, with a bound on its iterations. -/
def fetchFromQueue : ℕ → CDPHyperGraphSimplifier κ →
    Option (SSimplificationStep κ) × CDPHyperGraphSimplifier κ
  | 0, s => (none, s)
  | fuel + 1, s =>
    match o.top (s.queue.map fun i => (i, (s.bestAt i).step.map (·.benefit))) with
    | none => (none, s)
    | some i =>
      let best := s.bestAt i
      let popped := { s.setBest i ⟨best.bestNeighbor, best.step, false⟩ with
        queue := s.queue.filter (· ≠ i) }
      match best.bestNeighbor, best.step with
      | some _, some step =>
        let added := popped.order.tryAdd step.before step.after
        if added.1 then (some step, { popped with order := added.2 })
        else
          fetchFromQueue fuel
            (popped.processNeighbors o step.after 0 popped.graph.logicalEdgeCount)
      | _, _ => fetchFromQueue fuel popped

def fetchStep (fuel : ℕ) (s : CDPHyperGraphSimplifier κ) :
    Option (SSimplificationStep κ) × CDPHyperGraphSimplifier κ :=
  match s.unapplied with
  | step :: rest => (some step, { s with unapplied := rest })
  | [] => fetchFromQueue o fuel s

def modifyEdge (apply : Bool) : CDPHyperGraphSimplifier κ :=
  let change := step.change
  let left := if apply then change.newLeft else change.oldLeft
  let right := if apply then change.newRight else change.oldRight
  { s with graph := s.graph.replaceEdge change.edge left right }

def applyStep (fuel : ℕ) (s : CDPHyperGraphSimplifier κ) : Bool × CDPHyperGraphSimplifier κ :=
  let fresh := s.unapplied.isEmpty
  match fetchStep o fuel s with
  | (none, s') => (false, s')
  | (some step, s') =>
    let modified := { s'.modifyEdge step true with applied := step :: s'.applied }
    (true, if fresh then
      modified.processNeighbors o step.after 0 modified.graph.logicalEdgeCount else modified)

def unapplyStep : Bool × CDPHyperGraphSimplifier κ :=
  match s.applied with
  | [] => (false, s)
  | step :: rest =>
    let modified := { s with applied := rest }.modifyEdge step false
    (true, { modified with unapplied := step :: modified.unapplied })

def applyUpTo (fuel count : ℕ) : ℕ → CDPHyperGraphSimplifier κ → Bool × CDPHyperGraphSimplifier κ
  | 0, s => (true, s)
  | rounds + 1, s =>
    if count ≤ s.applied.length then (true, s)
    else if (applyStep o fuel s).1 then applyUpTo fuel count rounds (applyStep o fuel s).2
    else (false, (applyStep o fuel s).2)

def unapplyDownTo (count : ℕ) : ℕ → CDPHyperGraphSimplifier κ → CDPHyperGraphSimplifier κ
  | 0, s => s
  | rounds + 1, s =>
    if s.applied.length ≤ count then s else unapplyDownTo count rounds (unapplyStep s).2

def applySteps (fuel count : ℕ) (s : CDPHyperGraphSimplifier κ) :
    Bool × CDPHyperGraphSimplifier κ :=
  let up := applyUpTo o fuel count (count - s.applied.length) s
  if up.1 then (true, unapplyDownTo count (up.2.applied.length - count) up.2) else (false, up.2)

end CDPHyperGraphSimplifier

end PgOrca
