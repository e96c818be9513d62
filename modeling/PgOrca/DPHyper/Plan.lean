import PgOrca.DPHyper.Soundness

/-!
# The plan that records the enumeration

The recorded list is what the materialisation replays: every side of a pair has to be a single node
or the union of an earlier pair. Hash buckets are searches by equality here.
-/

namespace PgOrca

open List
open CDPHyperEnumerator (enumerate enumerate_preserves)

structure SPair where
  left : Finset ℕ
  right : Finset ℕ
  connectingEdges : List ℕ
  deriving DecidableEq

variable (pair : SPair) {e i : ℕ}

namespace SPair

def addConnectingEdge (connectingEdge : ℕ) : SPair :=
  if connectingEdge ∈ pair.connectingEdges then pair
  else { pair with connectingEdges := pair.connectingEdges ++ [connectingEdge] }

def sides : Finset ℕ × Finset ℕ := (pair.left, pair.right)

@[simp] theorem sides_addConnectingEdge (e : ℕ) :
    (pair.addConnectingEdge e).sides = pair.sides := by
  simp only [addConnectingEdge]
  split <;> rfl

theorem mem_addConnectingEdge {pair : SPair} {e' : ℕ} :
    e' ∈ (pair.addConnectingEdge e).connectingEdges → e' ∈ pair.connectingEdges ∨ e' = e := by
  simp only [addConnectingEdge]
  split
  · exact .inl
  · simp

end SPair

abbrev PairFilter := Finset ℕ → Finset ℕ → ℕ → Bool

structure CDPHyperPlan where
  pairBudget : ℕ
  budgetExhausted : Bool
  pairFilter : Option PairFilter
  seen : List (Finset ℕ)
  pairs : List SPair

variable {sides : List (Finset ℕ × Finset ℕ)}

namespace CDPHyperPlan

variable {t nodes : Finset ℕ}

def new (pairBudget : ℕ) (pairFilter : Option PairFilter) : CDPHyperPlan :=
  ⟨pairBudget, false, pairFilter, [], []⟩

def hasSeen (plan : CDPHyperPlan) (nodes : Finset ℕ) : Bool := nodes ∈ plan.seen

def recordSeen (plan : CDPHyperPlan) (nodes : Finset ℕ) : Bool × CDPHyperPlan :=
  if plan.hasSeen nodes then (false, plan)
  else (true, { plan with seen := plan.seen ++ [nodes] })

def foundSingleNode (nodeId : ℕ) (plan : CDPHyperPlan) : Bool × CDPHyperPlan :=
  (false, (plan.recordSeen {nodeId}).2)

def ppair (plan : CDPHyperPlan) (left right : Finset ℕ) : Option ℕ :=
  plan.pairs.findIdx? fun pair =>
    (pair.left = left ∧ pair.right = right) ∨ (pair.left = right ∧ pair.right = left)

def passesFilter (filter : Option PairFilter) (left right : Finset ℕ) (edgeId : ℕ) : Bool :=
  match filter with
  | none => true
  | some accept => accept left right edgeId

def foundSubgraphPair (left right : Finset ℕ) (edgeId : ℕ) (plan : CDPHyperPlan) :
    Bool × CDPHyperPlan :=
  if ¬ passesFilter plan.pairFilter left right edgeId then (false, plan)
  else match plan.ppair left right with
    | some i =>
      (false, { plan with pairs := plan.pairs.modify i (·.addConnectingEdge edgeId) })
    | none =>
      if plan.pairBudget ≤ plan.pairs.length then (true, { plan with budgetExhausted := true })
      else
        (false, (recordSeen { plan with pairs := plan.pairs ++ [⟨left, right, [edgeId]⟩] }
          (left ∪ right)).2)

def complete (plan : CDPHyperPlan) (nodeCount : ℕ) : Bool :=
  if plan.budgetExhausted ∨ nodeCount = 0 then false else plan.hasSeen (Finset.range nodeCount)

def pairCount (plan : CDPHyperPlan) : ℕ := plan.pairs.length

def seenCount (plan : CDPHyperPlan) : ℕ := plan.seen.length

def receiver : IDPHyperReceiver CDPHyperPlan := ⟨foundSingleNode, hasSeen, foundSubgraphPair⟩

@[simp] theorem hasSeen_eq_true {plan : CDPHyperPlan} : plan.hasSeen t = true ↔ t ∈ plan.seen := by
  simp [hasSeen]

@[simp] theorem mem_seen_recordSeen {plan : CDPHyperPlan} :
    t ∈ (plan.recordSeen nodes).2.seen ↔ t ∈ plan.seen ∨ t = nodes := by
  simp only [recordSeen]
  split
  · rename_i h
    rw [hasSeen_eq_true] at h
    constructor
    · exact .inl
    · intro ht
      rcases ht with ht | rfl
      · exact ht
      · exact h
  · simp

@[simp] theorem pairs_recordSeen (plan : CDPHyperPlan) (nodes : Finset ℕ) :
    (plan.recordSeen nodes).2.pairs = plan.pairs := by
  simp only [recordSeen]
  split <;> rfl

@[simp] theorem pairBudget_recordSeen (plan : CDPHyperPlan) (nodes : Finset ℕ) :
    (plan.recordSeen nodes).2.pairBudget = plan.pairBudget := by
  simp only [recordSeen]
  split <;> rfl

@[simp] theorem pairFilter_recordSeen (plan : CDPHyperPlan) (nodes : Finset ℕ) :
    (plan.recordSeen nodes).2.pairFilter = plan.pairFilter := by
  simp only [recordSeen]
  split <;> rfl

/-- What one call of `FoundSubgraphPair` can do to the plan. -/
theorem foundSubgraphPair_cases (left right : Finset ℕ) (edgeId : ℕ) (plan : CDPHyperPlan) :
    (foundSubgraphPair left right edgeId plan).2 = plan ∨
    (passesFilter plan.pairFilter left right edgeId = true ∧ ∃ i pair, plan.pairs[i]? = some pair ∧
        (pair.sides = (left, right) ∨ pair.sides = (right, left)) ∧
        (foundSubgraphPair left right edgeId plan).2 =
          { plan with pairs := plan.pairs.modify i (·.addConnectingEdge edgeId) }) ∨
    (foundSubgraphPair left right edgeId plan).2 = { plan with budgetExhausted := true } ∨
    (passesFilter plan.pairFilter left right edgeId = true ∧ plan.pairs.length < plan.pairBudget ∧
      (∀ pair ∈ plan.pairs, pair.sides ≠ (left, right) ∧ pair.sides ≠ (right, left)) ∧
      (foundSubgraphPair left right edgeId plan).2 =
        (recordSeen { plan with pairs := plan.pairs ++ [⟨left, right, [edgeId]⟩] }
          (left ∪ right)).2) := by
  by_cases hfil : passesFilter plan.pairFilter left right edgeId = true
  · cases hfind : plan.ppair left right with
    | some i =>
      right; left
      obtain ⟨hi,hsame,_⟩ := findIdx?_eq_some_iff_getElem.mp hfind
      refine ⟨hfil,i,plan.pairs[i],List.getElem?_eq_getElem hi,?_,?_⟩
      · simpa [SPair.sides,Prod.ext_iff] using hsame
      · simp [foundSubgraphPair,hfil,hfind]
    | none =>
      right; right
      have hnew := findIdx?_eq_none_iff.mp hfind
      by_cases hbu : plan.pairBudget ≤ plan.pairs.length
      · left
        simp [foundSubgraphPair,hfil,hfind,hbu]
      · right
        refine ⟨hfil,not_le.mp hbu,?_,?_⟩
        · intro pair hpair
          have := hnew pair hpair
          simpa [SPair.sides,Prod.ext_iff] using this
        · simp [foundSubgraphPair,hfil,hfind,hbu]
  · left
    simp [foundSubgraphPair,hfil]

/-! ## What a recorded list guarantees -/

def Available (before : List (Finset ℕ × Finset ℕ)) (t : Finset ℕ) : Prop :=
  (∃ v, t = {v}) ∨ ∃ p ∈ before, t = p.1 ∪ p.2

theorem Available.mono {before before' : List (Finset ℕ × Finset ℕ)} (h : Available before t)
    (hsub : ∀ p ∈ before, p ∈ before') : Available before' t := by
  rcases h with h | ⟨p,hp,ht⟩
  · exact .inl h
  · exact .inr ⟨p,hsub p hp,ht⟩

def TopologicallyOrdered (sides : List (Finset ℕ × Finset ℕ)) : Prop :=
  ∀ before p after, sides = before ++ p :: after → Available before p.1 ∧ Available before p.2

theorem topologicallyOrdered_append {p : Finset ℕ × Finset ℕ} (h : TopologicallyOrdered sides)
    (h₁ : Available sides p.1)
    (h₂ : Available sides p.2) : TopologicallyOrdered (sides ++ [p]) := by
  intro before q after heq
  rcases eq_nil_or_concat after with rfl | ⟨after',r,rfl⟩
  · obtain ⟨hs,hq⟩ := append_inj' heq rfl
    cases hq
    subst hs
    exact ⟨h₁,h₂⟩
  · rw [concat_eq_append,← cons_append,← append_assoc] at heq
    exact h before q after' (append_inj' heq rfl).1

/-- A recorded edge id names a logical edge with one side in each set, and the filter let it pass
for these two sets. -/
def EdgeFits (g : CDPHyperGraph) (filter : Option PairFilter) (pair : SPair) (edgeId : ℕ) : Prop :=
  (∃ i < g.logicalEdgeCount, (g.edge (i * 2)).edgeId = edgeId ∧
    (((g.edge (i * 2)).left ⊆ pair.left ∧ (g.edge (i * 2)).right ⊆ pair.right) ∨
      ((g.edge (i * 2)).left ⊆ pair.right ∧ (g.edge (i * 2)).right ⊆ pair.left))) ∧
  (passesFilter filter pair.left pair.right edgeId = true ∨
    passesFilter filter pair.right pair.left edgeId = true)

/-- The invariant of the plan while the traversal runs. -/
structure Recorded (g : CDPHyperGraph) (budget : ℕ) (filter : Option PairFilter)
    (plan : CDPHyperPlan) : Prop where
  budget_eq : plan.pairBudget = budget
  filter_eq : plan.pairFilter = filter
  seen : ∀ t ∈ plan.seen, Available (plan.pairs.map SPair.sides) t
  disjoint : ∀ pair ∈ plan.pairs, Disjoint pair.left pair.right
  edges : ∀ pair ∈ plan.pairs, ∀ e ∈ pair.connectingEdges, EdgeFits g filter pair e
  ordered : TopologicallyOrdered (plan.pairs.map SPair.sides)
  distinct : (plan.pairs.map SPair.sides).Pairwise fun p q => p ≠ q ∧ p ≠ q.swap
  within : plan.pairs.length ≤ budget

variable {g : CDPHyperGraph} {budget : ℕ} {filter : Option PairFilter} {plan : CDPHyperPlan}
  {E : Finset ℕ → Finset ℕ → Prop}

theorem recorded_new : Recorded g budget filter (new budget filter) where
  budget_eq := rfl
  filter_eq := rfl
  seen := by simp [new]
  disjoint := by simp [new]
  edges := by simp [new]
  ordered := by simp [new,TopologicallyOrdered]
  distinct := by simp [new]
  within := by simp [new]

theorem Recorded.recordSeen (h : Recorded g budget filter plan)
    (hns : Available (plan.pairs.map SPair.sides) nodes) :
    Recorded g budget filter (plan.recordSeen nodes).2 where
  budget_eq := by rw [pairBudget_recordSeen]; exact h.budget_eq
  filter_eq := by rw [pairFilter_recordSeen]; exact h.filter_eq
  seen := by
    intro t ht
    rw [pairs_recordSeen]
    rcases mem_seen_recordSeen.mp ht with ht | rfl
    · exact h.seen t ht
    · exact hns
  disjoint := by rw [pairs_recordSeen]; exact h.disjoint
  edges := by rw [pairs_recordSeen]; exact h.edges
  ordered := by rw [pairs_recordSeen]; exact h.ordered
  distinct := by rw [pairs_recordSeen]; exact h.distinct
  within := by rw [pairs_recordSeen]; exact h.within

private theorem map_sides_modify (pairs : List SPair) (i e : ℕ) :
    (pairs.modify i (·.addConnectingEdge e)).map SPair.sides = pairs.map SPair.sides := by
  apply ext_getElem?
  intro j
  simp only [List.getElem?_map,List.getElem?_modify]
  cases pairs[j]? with
  | none => rfl
  | some pair => by_cases hij : i = j <;> simp [hij]

private theorem mem_modify {pairs : List SPair} {pair : SPair}
    (h : pair ∈ pairs.modify i (·.addConnectingEdge e)) :
    pair ∈ pairs ∨ ∃ old, pairs[i]? = some old ∧ pair = old.addConnectingEdge e := by
  obtain ⟨j,hj⟩ := mem_iff_getElem?.mp h
  rw [List.getElem?_modify] at hj
  obtain ⟨old,hold,hpair⟩ := Option.map_eq_some_iff.mp hj
  by_cases hij : i = j
  · subst hij
    rw [if_pos rfl] at hpair
    exact .inr ⟨old,hold,hpair.symm⟩
  · rw [if_neg hij] at hpair
    left
    rw [← hpair]
    exact mem_of_getElem? hold

theorem Recorded.addConnectingEdge (h : Recorded g budget filter plan) {old : SPair}
    (hold : plan.pairs[i]? = some old) (hfits : EdgeFits g filter old e) :
    Recorded g budget filter
      { plan with pairs := plan.pairs.modify i (·.addConnectingEdge e) } := by
  have hmem : old ∈ plan.pairs := mem_of_getElem? hold
  have hsd := old.sides_addConnectingEdge e
  simp only [SPair.sides,Prod.mk.injEq] at hsd
  have hsame : ∀ e', EdgeFits g filter old e' →
      EdgeFits g filter (old.addConnectingEdge e) e' := by
    intro e' he'
    simp only [EdgeFits,hsd.1,hsd.2]
    exact he'
  refine ⟨h.budget_eq,h.filter_eq,?_,?_,?_,?_,?_,?_⟩
  · rw [map_sides_modify]
    exact h.seen
  · intro pair hpair
    rcases mem_modify hpair with hpair | ⟨old',hold',rfl⟩
    · exact h.disjoint pair hpair
    · cases hold.symm.trans hold'
      rw [hsd.1,hsd.2]
      exact h.disjoint old hmem
  · intro pair hpair e' he'
    rcases mem_modify hpair with hpair | ⟨old',hold',rfl⟩
    · exact h.edges pair hpair e' he'
    · cases hold.symm.trans hold'
      rcases SPair.mem_addConnectingEdge he' with he' | rfl
      · exact hsame e' (h.edges old hmem e' he')
      · exact hsame e' hfits
  · rw [map_sides_modify]
    exact h.ordered
  · rw [map_sides_modify]
    exact h.distinct
  · simpa using h.within

theorem Recorded.append (h : Recorded g budget filter plan) {l : Finset ℕ}
    (hl : Available (plan.pairs.map SPair.sides) l) (ht : Available (plan.pairs.map SPair.sides) t)
    (hdis : Disjoint l t) (hfits : EdgeFits g filter ⟨l, t, [e]⟩ e)
    (hroom : plan.pairs.length < plan.pairBudget)
    (hnew : ∀ pair ∈ plan.pairs, pair.sides ≠ (l, t) ∧ pair.sides ≠ (t, l)) :
    Recorded g budget filter { plan with pairs := plan.pairs ++ [⟨l, t, [e]⟩] } := by
  have hmap : (plan.pairs ++ [(⟨l,t,[e]⟩ : SPair)]).map SPair.sides =
      plan.pairs.map SPair.sides ++ [(l, t)] := by simp [SPair.sides]
  refine ⟨h.budget_eq,h.filter_eq,?_,?_,?_,?_,?_,?_⟩
  · intro t' ht'
    rw [hmap]
    exact (h.seen t' ht').mono fun p hp => mem_append_left _ hp
  · intro pair hpair
    rcases mem_append.mp hpair with hpair | hpair
    · exact h.disjoint pair hpair
    · rw [List.mem_singleton.mp hpair]
      exact hdis
  · intro pair hpair e' he'
    rcases mem_append.mp hpair with hpair | hpair
    · exact h.edges pair hpair e' he'
    · rw [List.mem_singleton.mp hpair] at he' ⊢
      rw [List.mem_singleton.mp he']
      exact hfits
  · rw [hmap]
    exact topologicallyOrdered_append h.ordered hl ht
  · rw [hmap,pairwise_append]
    refine ⟨h.distinct,pairwise_singleton _ _,?_⟩
    intro p hp q hq
    obtain ⟨pair,hpair,rfl⟩ := List.mem_map.mp hp
    rw [List.mem_singleton.mp hq]
    exact hnew pair hpair
  · have := h.budget_eq
    simp only [length_append,length_singleton]
    omega

private theorem single_seen (v : ℕ) (plan : CDPHyperPlan) :
    receiver.hasSeen (receiver.foundSingleNode v plan).2 {v} = true := by
  simp [receiver,foundSingleNode]

private theorem single_mono (v : ℕ) (plan : CDPHyperPlan) (t : Finset ℕ)
    (ht : receiver.hasSeen plan t = true) :
    receiver.hasSeen (receiver.foundSingleNode v plan).2 t = true := by
  simp only [receiver,foundSingleNode,hasSeen_eq_true,mem_seen_recordSeen] at ht ⊢
  exact .inl ht

private theorem pair_mono (l t : Finset ℕ) (e : ℕ) (plan : CDPHyperPlan) (t' : Finset ℕ)
    (ht' : receiver.hasSeen plan t' = true) :
    receiver.hasSeen (receiver.foundSubgraphPair l t e plan).2 t' = true := by
  simp only [receiver,hasSeen_eq_true] at ht' ⊢
  rcases foundSubgraphPair_cases l t e plan with
    heq | ⟨_,_,_,_,_,heq⟩ | heq | ⟨_,_,_,heq⟩ <;> rw [heq]
  · exact ht'
  · exact ht'
  · exact ht'
  · exact mem_seen_recordSeen.mpr (.inl ht')

theorem preserved_recorded (hg : g.Adjacent) :
    CDPHyperEnumerator.Preserved g receiver (Recorded g budget filter) where
  single v plan h := h.recordSeen (.inl ⟨v,rfl⟩)
  single_seen := single_seen
  single_mono := single_mono
  pair_mono := pair_mono
  pair l t d plan h hd hleft hr hdis hl ht := by
    simp only [receiver,hasSeen_eq_true] at hl ht ⊢
    have hlg : ∃ i < g.logicalEdgeCount, (g.edge (i * 2)).edgeId = (g.edge d).edgeId ∧
        (((g.edge (i * 2)).left ⊆ l ∧ (g.edge (i * 2)).right ⊆ t) ∨
          ((g.edge (i * 2)).left ⊆ t ∧ (g.edge (i * 2)).right ⊆ l)) := by
      have heven := hg.even
      obtain ⟨i,rfl | rfl⟩ : ∃ i, d = i * 2 ∨ d = i * 2 + 1 := ⟨d / 2,by omega⟩
      · exact ⟨i,by simp only [CDPHyperGraph.logicalEdgeCount]; omega,rfl,Or.inr ⟨hleft,hr⟩⟩
      · rw [hg.mirrored i hd] at hleft hr ⊢
        exact ⟨i,by simp only [CDPHyperGraph.logicalEdgeCount]; omega,rfl,Or.inl ⟨hr,hleft⟩⟩
    rcases foundSubgraphPair_cases l t (g.edge d).edgeId plan with
      heq | ⟨hpass,i,old,hold,hsd,heq⟩ | heq | ⟨hpass,hroom,hnew,heq⟩ <;> rw [heq]
    · exact h
    · rw [h.filter_eq] at hpass
      refine h.addConnectingEdge hold ⟨?_,?_⟩
      · obtain ⟨j,hj,hid,hfit⟩ := hlg
        simp only [SPair.sides,Prod.mk.injEq] at hsd
        refine ⟨j,hj,hid,?_⟩
        rcases hsd with ⟨h₁,h₂⟩ | ⟨h₁,h₂⟩ <;> rw [h₁,h₂]
        · exact hfit
        · exact hfit.symm
      · simp only [SPair.sides,Prod.mk.injEq] at hsd
        rcases hsd with ⟨h₁,h₂⟩ | ⟨h₁,h₂⟩ <;> rw [h₁,h₂]
        · exact .inl hpass
        · exact .inr hpass
    · exact ⟨h.budget_eq,h.filter_eq,h.seen,h.disjoint,h.edges,h.ordered,h.distinct,h.within⟩
    · rw [h.filter_eq] at hpass
      have hap := h.append (h.seen l hl) (h.seen t ht) hdis ⟨hlg,.inl hpass⟩ hroom hnew
      refine hap.recordSeen (.inr ⟨(l, t),?_,rfl⟩)
      simp [SPair.sides]

/-- Whatever the graph, the filter and the budget, the recorded list is sound, free of duplicates,
topologically ordered and within the budget. -/
theorem enumerate_recorded {n : ℕ} {g : CDPHyperGraph} (hg : CDPHyperGraph.Built n g) (budget : ℕ)
    (filter : Option PairFilter) :
    let plan := (enumerate g receiver (new budget filter)).2
    (∀ pair ∈ plan.pairs, Disjoint pair.left pair.right ∧
      ∀ e ∈ pair.connectingEdges, EdgeFits g filter pair e) ∧
    TopologicallyOrdered (plan.pairs.map SPair.sides) ∧
    ((plan.pairs.map SPair.sides).Pairwise fun p q => p ≠ q ∧ p ≠ q.swap) ∧
    plan.pairs.length ≤ budget := by
  have h : Recorded g budget filter
      (enumerate g receiver (new budget filter)).2 :=
    enumerate_preserves hg.adjacent.1 (preserved_recorded hg.adjacent.1) recorded_new
  exact ⟨fun pair hpair => ⟨h.disjoint pair hpair,h.edges pair hpair⟩,h.ordered,h.distinct,
    h.within⟩

theorem enumerate_recorded_triangle :
    let g := CDPHyperGraph.ofEdges 3 [⟨{0},{1},0⟩,⟨{1},{2},1⟩,⟨{0},{2},2⟩]
    let plan := (enumerate g receiver (new 2 none)).2
    plan.pairs = [⟨{1},{2},[1]⟩,⟨{0},{2},[2]⟩] ∧
      TopologicallyOrdered (plan.pairs.map SPair.sides) ∧ plan.pairs.length ≤ 2 := by
  have hbuilt : CDPHyperGraph.Built 3
      (CDPHyperGraph.ofEdges 3 [⟨{0},{1},0⟩,⟨{1},{2},1⟩,⟨{0},{2},2⟩]) :=
    CDPHyperGraph.built_ofEdges (by decide)
  obtain ⟨_,hor,_,hwi⟩ := enumerate_recorded hbuilt 2 none
  exact ⟨by decide +kernel,hor,hwi⟩

/-! ## Replaying a recorded list -/

/-- The sides of the pairs are proper disjoint node sets, produced before they are used. -/
structure Replayable (n : ℕ) (sides : List (Finset ℕ × Finset ℕ)) : Prop where
  disjoint : ∀ p ∈ sides, Disjoint p.1 p.2
  nonempty : ∀ p ∈ sides, p.1.Nonempty ∧ p.2.Nonempty
  within : ∀ p ∈ sides, p.1 ∪ p.2 ⊆ Finset.range n
  ordered : TopologicallyOrdered sides

structure Growing (n : ℕ) (plan : CDPHyperPlan) : Prop where
  replayable : Replayable n (plan.pairs.map SPair.sides)
  seen : ∀ t ∈ plan.seen, Available (plan.pairs.map SPair.sides) t

section

variable {n : ℕ} {l r : Finset ℕ}

theorem growing_new (n budget : ℕ) (filter : Option PairFilter) : Growing n (new budget filter) :=
  ⟨⟨nofun,nofun,nofun,by simp [new,TopologicallyOrdered]⟩,nofun⟩

theorem Growing.recordSeen (h : Growing n plan)
    (hns : Available (plan.pairs.map SPair.sides) nodes) : Growing n (plan.recordSeen nodes).2 := by
  refine ⟨?_,?_⟩
  · rw [pairs_recordSeen]
    exact h.replayable
  · intro t ht
    rw [pairs_recordSeen]
    rcases mem_seen_recordSeen.mp ht with ht | rfl
    · exact h.seen t ht
    · exact hns

theorem Replayable.append (h : Replayable n sides) (hl : Available sides l) (hr : Available sides r)
    (hdis : Disjoint l r) (hnl : l.Nonempty) (hnr : r.Nonempty)
    (hwi : l ∪ r ⊆ Finset.range n) : Replayable n (sides ++ [(l, r)]) := by
  have hcs : ∀ p ∈ sides ++ [(l, r)], p ∈ sides ∨ p = (l, r) := by
    intro p hp
    rw [mem_append,List.mem_singleton] at hp
    exact hp
  refine ⟨?_,?_,?_,topologicallyOrdered_append h.ordered hl hr⟩ <;> intro p hp <;>
    rcases hcs p hp with hp | rfl
  · exact h.disjoint p hp
  · exact hdis
  · exact h.nonempty p hp
  · exact ⟨hnl,hnr⟩
  · exact h.within p hp
  · exact hwi

theorem Growing.foundSubgraphPair (h : Growing n plan) (hl : l ∈ plan.seen) (hr : r ∈ plan.seen)
    (hdis : Disjoint l r) (hnl : l.Nonempty) (hnr : r.Nonempty) (hwi : l ∪ r ⊆ Finset.range n)
    (edgeId : ℕ) : Growing n (foundSubgraphPair l r edgeId plan).2 := by
  rcases foundSubgraphPair_cases l r edgeId plan with
    heq | ⟨_,_,_,_,_,heq⟩ | heq | ⟨_,_,_,heq⟩ <;> rw [heq]
  · exact h
  · refine ⟨?_,?_⟩ <;> rw [map_sides_modify]
    · exact h.replayable
    · exact h.seen
  · exact ⟨h.replayable,h.seen⟩
  · have hmap : (plan.pairs ++ [(⟨l,r,[edgeId]⟩ : SPair)]).map SPair.sides =
        plan.pairs.map SPair.sides ++ [(l, r)] := by simp [SPair.sides]
    apply Growing.recordSeen
    · refine ⟨?_,?_⟩ <;> rw [hmap]
      · exact h.replayable.append (h.seen l hl) (h.seen r hr) hdis hnl hnr hwi
      · exact fun t ht => (h.seen t ht).mono fun p hp => mem_append_left _ hp
    · rw [hmap]
      exact .inr ⟨(l, r),mem_append_right _ (List.mem_singleton_self _),rfl⟩

theorem Growing.lt_of_seen (h : Growing n plan) {u : Finset ℕ} (ht : t ∈ plan.seen) (hu : u ⊆ t)
    (hne : u.Nonempty) (hlt : ∀ x ∈ u, x < n) : t ⊆ Finset.range n := by
  rcases h.seen t ht with ⟨v,rfl⟩ | ⟨p,hp,rfl⟩
  · obtain ⟨x,hx⟩ := hne
    rw [Finset.singleton_subset_iff,Finset.mem_range,← Finset.mem_singleton.mp (hu hx)]
    exact hlt x hx
  · exact h.replayable.within p hp

theorem preserved_growing (hg : g.Adjacent) :
    CDPHyperEnumerator.Preserved g receiver (Growing g.nodeCount) where
  single v plan h := h.recordSeen (.inl ⟨v,rfl⟩)
  single_seen := single_seen
  single_mono := single_mono
  pair_mono := pair_mono
  pair l t d plan h hd hleft hr hdis hl ht := by
    simp only [receiver,hasSeen_eq_true] at hl ht ⊢
    have hv := hg.valid d hd
    exact h.foundSubgraphPair hl ht hdis (hv.right_nonempty.mono hr)
      (hv.left_nonempty.mono hleft)
      (Finset.union_subset (h.lt_of_seen hl hr hv.right_nonempty hv.right_lt)
        (h.lt_of_seen ht hleft hv.left_nonempty hv.left_lt)) _

theorem enumerate_replayable (hg : CDPHyperGraph.Built n g) (budget : ℕ)
    (filter : Option PairFilter) :
    Replayable n
      ((enumerate g receiver (new budget filter)).2.pairs.map SPair.sides) := by
  obtain ⟨hadj,hcnt⟩ := hg.adjacent
  have h := enumerate_preserves hadj (preserved_growing hadj)
    (growing_new g.nodeCount budget filter)
  rw [← hcnt]
  exact h.replayable

end

/-! ## Recorded pairs are connected -/

structure Connected (E : Finset ℕ → Finset ℕ → Prop) (plan : CDPHyperPlan) : Prop where
  seen : ∀ t ∈ plan.seen, Constructible E t
  pairs : ∀ p ∈ plan.pairs.map SPair.sides, ConnectedPair E p.1 p.2

theorem Connected.recordSeen (h : Connected E plan) (hns : Constructible E nodes) :
    Connected E (plan.recordSeen nodes).2 := by
  refine ⟨fun t ht => ?_,?_⟩
  · rcases mem_seen_recordSeen.mp ht with ht | rfl
    · exact h.seen t ht
    · exact hns
  · rw [pairs_recordSeen]
    exact h.pairs

theorem preserved_connected (hg : g.Adjacent) :
    CDPHyperEnumerator.Preserved g receiver (Connected g.Joins) where
  single v plan h := h.recordSeen (.singleton v)
  single_seen := single_seen
  single_mono := single_mono
  pair_mono := pair_mono
  pair l t d plan h hd hleft hr hdis hl ht := by
    simp only [receiver,hasSeen_eq_true] at hl ht ⊢
    have hpair : ConnectedPair g.Joins l t := .symm hg.joins_symm
      ⟨h.seen t ht,h.seen l hl,hdis.symm,_,_,⟨d,hd,rfl,rfl⟩,hleft,hr⟩
    rcases foundSubgraphPair_cases l t (g.edge d).edgeId plan with
      heq | ⟨_,_,_,_,_,heq⟩ | heq | ⟨_,_,_,heq⟩ <;> rw [heq]
    · exact h
    · refine ⟨h.seen,?_⟩
      rw [map_sides_modify]
      exact h.pairs
    · exact ⟨h.seen,h.pairs⟩
    · refine Connected.recordSeen ⟨h.seen,?_⟩ (.union hpair.left hpair.right hdis hpair.connects)
      rw [map_append,forall_mem_append]
      exact ⟨h.pairs,forall_mem_singleton.mpr hpair⟩

end CDPHyperPlan

end PgOrca
