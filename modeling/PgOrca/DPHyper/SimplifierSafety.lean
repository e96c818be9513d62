import PgOrca.DPHyper.Simplifier

/-!
# Simplification only removes join orders

Every stored step sets the sides of its edge to supersets of the original sides.
-/

namespace PgOrca

open List

variable (i : ℕ)

namespace CDPHyperGraphSimplifier

open CDPHyperGraph

variable {κ : Type*} {o : Oracles κ} {g₀ : CDPHyperGraph} {s : CDPHyperGraphSimplifier κ}
  {common set1 set2 set3 : Finset ℕ}

/-- Sides that an edge of the original graph may have been given. -/
structure Widens (g₀ : CDPHyperGraph) (i : ℕ) (left right : Finset ℕ) : Prop where
  left_subset : (g₀.edge (i * 2)).left ⊆ left
  right_subset : (g₀.edge (i * 2)).right ⊆ right
  valid : SEdge.Valid g₀.nodeCount ⟨left, right, (g₀.edge (i * 2)).edgeId⟩

/-- A step whose change is harmless in both directions. -/
structure Fits (g₀ : CDPHyperGraph) (step : SSimplificationStep κ) : Prop where
  bound : step.change.edge * 2 + 1 < g₀.edges.length
  old : Widens g₀ step.change.edge step.change.oldLeft step.change.oldRight
  new : Widens g₀ step.change.edge step.change.newLeft step.change.newRight

/-- The edges have only been widened, and every stored step is harmless. -/
structure Safe (g₀ : CDPHyperGraph) (s : CDPHyperGraphSimplifier κ) : Prop where
  adjacent : s.graph.Adjacent
  nodeCount : s.graph.nodeCount = g₀.nodeCount
  length : s.graph.edges.length = g₀.edges.length
  widens : ∀ i, i * 2 + 1 < g₀.edges.length → Widens g₀ i (s.edge i).left (s.edge i).right
  edgeId : ∀ i, i * 2 + 1 < g₀.edges.length → (s.edge i).edgeId = (g₀.edge (i * 2)).edgeId
  best : ∀ b ∈ s.best, ∀ step ∈ b.step, Fits g₀ step
  applied : ∀ step ∈ s.applied, Fits g₀ step
  unapplied : ∀ step ∈ s.unapplied, Fits g₀ step

/-! ## New steps -/

theorem fTryGetSuperset_spec {left right : Finset ℕ}
    (h : fTryGetSuperset left right = some common) :
    left ⊆ common ∧ right ⊆ common ∧ (common = left ∨ common = right) := by
  simp only [fTryGetSuperset] at h
  split at h
  · cases h
    exact ⟨by assumption,subset_rfl,.inr rfl⟩
  · split at h
    · cases h
      exact ⟨subset_rfl,by assumption,.inl rfl⟩
    · cases h

theorem Safe.bound (hs : Safe g₀ s) {i : ℕ} (h : ¬ s.pbsUsedNodes i ⊆ ∅) :
    i * 2 + 1 < g₀.edges.length := by
  by_contra hlen
  apply h
  have heven := hs.adjacent.even
  have hlength := hs.length
  have hout : s.graph.edges.length ≤ i * 2 := by omega
  have hedge : s.edge i = ⟨∅,∅,0⟩ := by
    simp [edge,CDPHyperGraph.edge,hout]
  simp [pbsUsedNodes,hedge]

variable {edge1 edge2 : ℕ} {step : SSimplificationStep κ}

/-- A step for two edges that puts `before` in front of `after`, which gets the nodes of both. -/
structure Orders (s : CDPHyperGraphSimplifier κ) (before after : ℕ)
    (step : SSimplificationStep κ) : Prop where
  before_eq : step.before = before
  after_eq : step.after = after
  edge : step.change.edge = after
  oldLeft : step.change.oldLeft = (s.edge after).left
  oldRight : step.change.oldRight = (s.edge after).right
  left_subset : (s.edge after).left ⊆ step.change.newLeft
  right_subset : (s.edge after).right ⊆ step.change.newRight
  disjoint : Disjoint step.change.newLeft step.change.newRight
  nodes : step.change.newLeft ∪ step.change.newRight = s.pbsUsedNodes before ∪ s.pbsUsedNodes after

theorem threeLeftJoin_orders (hl : (s.edge edge2).left ⊆ set1 ∪ set2)
    (hr : (s.edge edge2).right ⊆ set3)
    (hns : set1 ∪ set2 ∪ set3 = s.pbsUsedNodes edge1 ∪ s.pbsUsedNodes edge2)
    (h : s.threeLeftJoin o set1 edge1 set2 edge2 set3 = some step) : Orders s edge1 edge2 step := by
  simp only [threeLeftJoin] at h
  split at h
  · cases h
  · rename_i hdis
    rw [not_or,not_not,not_not] at hdis
    split at h
    · cases h
      exact ⟨rfl,rfl,rfl,rfl,rfl,hl,hr,hdis.2,hns⟩
    · cases h

theorem threeRightJoin_orders (hl : (s.edge edge1).left ⊆ set1)
    (hr : (s.edge edge1).right ⊆ set2 ∪ set3)
    (hns : set1 ∪ (set2 ∪ set3) = s.pbsUsedNodes edge2 ∪ s.pbsUsedNodes edge1)
    (h : s.threeRightJoin o set1 edge1 set2 edge2 set3 = some step) : Orders s edge2 edge1 step := by
  simp only [threeRightJoin] at h
  split at h
  · cases h
  · rename_i hdis
    rw [not_or,not_not,not_not] at hdis
    split at h
    · cases h
      exact ⟨rfl,rfl,rfl,rfl,rfl,hl,hr,hdis.2,hns⟩
    · cases h

private theorem overlap_spec {side1 side2 other1 other2 : Finset ℕ}
    (h : (if Disjoint other1 other2 then fTryGetSuperset side1 side2 else none) = some common) :
    side1 ⊆ common ∧ side2 ⊆ common ∧ (common = side1 ∨ common = side2) := by
  split at h
  · exact fTryGetSuperset_spec h
  · cases h

theorem candidates_order (s : CDPHyperGraphSimplifier κ) (edge1 edge2 : ℕ) :
    (∀ step ∈ (s.candidates o edge1 edge2).1, Orders s edge1 edge2 step) ∧
      ∀ step ∈ (s.candidates o edge1 edge2).2, Orders s edge2 edge1 step := by
  simp only [candidates]
  split
  · rename_i common hover
    have hc := overlap_spec hover
    constructor <;> intro step h <;> apply threeLeftJoin_orders _ _ _ h <;> grind [pbsUsedNodes]
  split
  · rename_i common hover
    have hc := overlap_spec hover
    constructor <;> intro step h
    · apply threeRightJoin_orders _ _ _ h <;> grind [pbsUsedNodes]
    · apply threeLeftJoin_orders _ _ _ h <;> grind [pbsUsedNodes]
  split
  · rename_i common hover
    have hc := overlap_spec hover
    constructor <;> intro step h
    · apply threeLeftJoin_orders _ _ _ h <;> grind [pbsUsedNodes]
    · apply threeRightJoin_orders _ _ _ h <;> grind [pbsUsedNodes]
  split
  · rename_i common hover
    have hc := overlap_spec hover
    constructor <;> intro step h <;> apply threeRightJoin_orders _ _ _ h <;> grind [pbsUsedNodes]
  · exact ⟨nofun,nofun⟩

structure Made (s : CDPHyperGraphSimplifier κ) (edge1 edge2 : ℕ) (step : SSimplificationStep κ) :
    Prop where
  not_subset : ¬ s.pbsUsedNodes edge1 ⊆ s.pbsUsedNodes edge2
  not_subset' : ¬ s.pbsUsedNodes edge2 ⊆ s.pbsUsedNodes edge1
  no_cycle : s.order.wouldCreateCycle edge1 edge2 = false
  no_cycle' : s.order.wouldCreateCycle edge2 edge1 = false
  orders : Orders s edge1 edge2 step ∨ Orders s edge2 edge1 step

theorem made_of_makeStep (h : s.makeStep o edge1 edge2 = some step) : Made s edge1 edge2 step := by
  simp only [makeStep] at h
  split at h
  · cases h
  rename_i hgu
  simp only [not_or,Bool.not_eq_true] at hgu
  obtain ⟨hsub1,hsub2,hcy1,hcy2,_⟩ := hgu
  refine ⟨hsub1,hsub2,hcy1,hcy2,?_⟩
  have hcand := candidates_order (o := o) s edge1 edge2
  split at h
  case h_2 => cases h
  case h_1 first second heq =>
    rw [heq] at hcand
    cases h
    by_cases hlt : o.lt first.benefit second.benefit = true
    · simp only [orderJoin,hlt,if_true]
      exact .inl { hcand.1 first rfl with }
    · simp only [orderJoin,hlt]
      exact .inr { hcand.2 second rfl with }

theorem Made.bounds (h : Made s edge1 edge2 step) (hs : Safe g₀ s) :
    edge1 * 2 + 1 < g₀.edges.length ∧ edge2 * 2 + 1 < g₀.edges.length :=
  ⟨hs.bound fun hemp => h.not_subset (hemp.trans (Finset.empty_subset _)),
    hs.bound fun hemp => h.not_subset' (hemp.trans (Finset.empty_subset _))⟩

private def Within (g₀ : CDPHyperGraph) (t : Finset ℕ) : Prop := ∀ x ∈ t, x < g₀.nodeCount

theorem Orders.fits {before after : ℕ} (h : Orders s before after step) (hs : Safe g₀ s)
    (hb : before * 2 + 1 < g₀.edges.length) (ha : after * 2 + 1 < g₀.edges.length) :
    Fits g₀ step := by
  have hold := hs.widens after ha
  have hwi : Within g₀ (step.change.newLeft ∪ step.change.newRight) := by
    intro x hx
    rw [h.nodes,Finset.mem_union] at hx
    rcases hx with hx | hx
    · exact (Finset.mem_union.mp hx).elim ((hs.widens before hb).valid.left_lt x)
        ((hs.widens before hb).valid.right_lt x)
    · exact (Finset.mem_union.mp hx).elim (hold.valid.left_lt x) (hold.valid.right_lt x)
  have hnew : Widens g₀ after step.change.newLeft step.change.newRight :=
    ⟨hold.left_subset.trans h.left_subset,hold.right_subset.trans h.right_subset,
      hold.valid.left_nonempty.mono h.left_subset,hold.valid.right_nonempty.mono h.right_subset,
      h.disjoint,fun x hx => hwi x (Finset.mem_union_left _ hx),
      fun x hx => hwi x (Finset.mem_union_right _ hx)⟩
  constructor
  · rw [h.edge]
    exact ha
  · rw [h.edge,h.oldLeft,h.oldRight]
    exact hold
  · rw [h.edge]
    exact hnew

theorem makeStep_fits (hs : Safe g₀ s) (h : s.makeStep o edge1 edge2 = some step) :
    Fits g₀ step := by
  have hmade := made_of_makeStep h
  obtain ⟨h1,h2⟩ := hmade.bounds hs
  rcases hmade.orders with hor | hor
  · exact hor.fits hs h1 h2
  · exact hor.fits hs h2 h1

/-! ## Invariants of the queue -/

/-- A property that survives every change of an entry, of the queue and of the order. -/
structure Kept (o : Oracles κ) (I : CDPHyperGraphSimplifier κ → Prop) : Prop where
  record : ∀ s i neighbor edge1 edge2 step, I s → s.makeStep o edge1 edge2 = some step →
    I (s.setBest i ⟨some neighbor, some step, (s.bestAt i).inQueue⟩)
  clear : ∀ s i, I s → I (s.setBest i ⟨none, (s.bestAt i).step, (s.bestAt i).inQueue⟩)
  update : ∀ s i, I s → I (s.updateQueue i)
  pop : ∀ s i, I s → I { s.setBest i ⟨(s.bestAt i).bestNeighbor, (s.bestAt i).step, false⟩ with
    queue := s.queue.filter (· ≠ i) }
  withOrder : ∀ s order, I s → I { s with order := order }

section

variable {I : CDPHyperGraphSimplifier κ → Prop}

section

variable (h : Kept o I) (hs : I s)

include h hs

theorem Kept.tryPair (edge1 edge2 i neighbor : ℕ) : I (s.tryPair o edge1 edge2 i neighbor).2 := by
  simp only [CDPHyperGraphSimplifier.tryPair]
  split
  case h_1 step hmade =>
    simp only [trySetStep]
    split
    · exact h.update _ i (h.record s i neighbor edge1 edge2 step hs hmade)
    · exact hs
  case h_2 => exact hs

theorem Kept.processLater (edge1 first last : ℕ) : I (s.processLater o edge1 first last) := by
  apply h.update
  exact foldlRecOn _ _ (h.clear s edge1 hs) fun _ hs edge2 _ =>
    h.tryPair hs edge1 edge2 edge1 edge2

theorem Kept.processEarlier (edge1 edge2 : ℕ) :
    I (CDPHyperGraphSimplifier.processEarlier o edge1 s edge2) := by
  have htd := h.tryPair hs edge1 edge2 edge2 edge1
  simp only [CDPHyperGraphSimplifier.processEarlier]
  split
  · exact htd
  · split
    · exact h.processLater htd edge2 _ _
    · exact htd

theorem Kept.processNeighbors (edge1 first last : ℕ) :
    I (s.processNeighbors o edge1 first last) := by
  apply h.processLater
  exact foldlRecOn _ _ hs fun _ hs edge2 _ => h.processEarlier hs edge1 edge2

theorem Kept.extractDependency (edge1 edge2 : ℕ) : I (s.extractDependency edge1 edge2) := by
  simp only [CDPHyperGraphSimplifier.extractDependency]
  split
  · exact h.withOrder s _ hs
  split
  · exact h.withOrder s _ hs
  · exact hs

end

theorem Kept.new (h : Kept o I) (hs : I ⟨g₀,.new g₀.logicalEdgeCount,
      replicate g₀.logicalEdgeCount ⟨none, none, false⟩,[],[],[]⟩) : I (new o g₀) := by
  refine foldlRecOn _ _ ?_ fun _ hs edge _ => h.processNeighbors hs edge _ _
  refine foldlRecOn _ _ hs fun _ hs edge1 _ => ?_
  exact foldlRecOn _ _ hs fun _ hs edge2 _ => h.extractDependency hs edge1 edge2

theorem Kept.fetchFromQueue (h : Kept o I) (hs : I s) (fuel : ℕ) :
    (∀ step ∈ (fetchFromQueue o fuel s).1, ∃ s' i, I s' ∧ step ∈ (s'.bestAt i).step) ∧
      I (fetchFromQueue o fuel s).2 := by
  induction fuel generalizing s with
  | zero => exact ⟨nofun,hs⟩
  | succ fuel ih =>
    simp only [CDPHyperGraphSimplifier.fetchFromQueue]
    split
    · exact ⟨nofun,hs⟩
    · rename_i i _
      have hpo := h.pop s i hs
      split
      · rename_i step _ hstep
        split
        · refine ⟨fun step' hmem => ?_,h.withOrder _ _ hpo⟩
          cases hmem
          exact ⟨s,i,hs,hstep⟩
        · exact ih (h.processNeighbors hpo _ _ _)
      · exact ih hpo

end

/-! ## Bookkeeping of the queue -/

section

variable (hs : Safe g₀ s)

include hs

theorem Safe.bestAt : ∀ step ∈ (s.bestAt i).step, Fits g₀ step := by
  simp only [CDPHyperGraphSimplifier.bestAt,getD_eq_getElem?_getD]
  cases hget : s.best[i]? with
  | none => exact fun step hstep => by cases hstep
  | some b => exact hs.best b (mem_of_getElem? hget)

theorem Safe.setBest {b : SBestSimplification κ}
    (hb : ∀ step ∈ b.step, Fits g₀ step) : Safe g₀ (s.setBest i b) := by
  refine ⟨hs.adjacent,hs.nodeCount,hs.length,hs.widens,hs.edgeId,?_,hs.applied,hs.unapplied⟩
  intro b' hb'
  rcases mem_or_eq_of_mem_set hb' with hb' | rfl
  · exact hs.best b' hb'
  · exact hb

theorem Safe.relabel (neighbor : Option ℕ) (flag : Bool) :
    Safe g₀ (s.setBest i ⟨neighbor, (s.bestAt i).step, flag⟩) := hs.setBest i (hs.bestAt i)

theorem Safe.withQueue (queue : List ℕ) : Safe g₀ { s with queue := queue } :=
  ⟨hs.adjacent,hs.nodeCount,hs.length,hs.widens,hs.edgeId,hs.best,hs.applied,hs.unapplied⟩

theorem Safe.withOrder (order : CDPHyperOrderConstraints) : Safe g₀ { s with order := order } :=
  ⟨hs.adjacent,hs.nodeCount,hs.length,hs.widens,hs.edgeId,hs.best,hs.applied,hs.unapplied⟩

theorem Safe.updateQueue : Safe g₀ (s.updateQueue i) := by
  simp only [CDPHyperGraphSimplifier.updateQueue]
  split
  · split
    · exact (hs.relabel i _ true).withQueue _
    · exact hs
  · split
    · exact (hs.relabel i _ false).withQueue _
    · exact hs.withQueue _

end

theorem kept_safe : Kept o (Safe g₀) where
  record _ i _ _ _ step hs hmade := hs.setBest i fun step' hstep' => by
    cases hstep'
    exact makeStep_fits hs hmade
  clear _ i hs := hs.relabel i none _
  update _ i hs := hs.updateQueue i
  pop _ i hs := (hs.relabel i _ false).withQueue _
  withOrder _ order hs := hs.withOrder order

theorem Safe.fetchFromQueue (hs : Safe g₀ s) (fuel : ℕ) :
    (∀ step ∈ (CDPHyperGraphSimplifier.fetchFromQueue o fuel s).1, Fits g₀ step) ∧
      Safe g₀ (CDPHyperGraphSimplifier.fetchFromQueue o fuel s).2 := by
  obtain ⟨hheld,hsafe⟩ := kept_safe.fetchFromQueue hs fuel
  refine ⟨fun step hstep => ?_,hsafe⟩
  obtain ⟨s',i,hs',hmem⟩ := hheld step hstep
  exact hs'.bestAt i step hmem

theorem Safe.fetchStep (hs : Safe g₀ s) (fuel : ℕ) :
    (∀ step ∈ (CDPHyperGraphSimplifier.fetchStep o fuel s).1, Fits g₀ step) ∧
      Safe g₀ (CDPHyperGraphSimplifier.fetchStep o fuel s).2 := by
  simp only [CDPHyperGraphSimplifier.fetchStep]
  split
  · rename_i step rest hcons
    refine ⟨fun step' h => ?_,?_⟩
    · cases h
      exact hs.unapplied step (hcons ▸ mem_cons_self)
    · exact ⟨hs.adjacent,hs.nodeCount,hs.length,hs.widens,hs.edgeId,hs.best,hs.applied,
        fun step' h => hs.unapplied step' (hcons ▸ mem_cons_of_mem step h)⟩
  · exact hs.fetchFromQueue fuel

/-! ## Applying and taking back -/

theorem Safe.modifyEdge (hs : Safe g₀ s) (hstep : Fits g₀ step)
    (apply : Bool) : Safe g₀ (s.modifyEdge step apply) := by
  obtain ⟨left,right,hwid,heq⟩ : ∃ left right, Widens g₀ step.change.edge left right ∧
      s.modifyEdge step apply =
        { s with graph := s.graph.replaceEdge step.change.edge left right } := by
    cases apply with
    | false => exact ⟨_,_,hstep.old,rfl⟩
    | true => exact ⟨_,_,hstep.new,rfl⟩
  have hbd : step.change.edge * 2 + 1 < s.graph.edges.length := by
    rw [hs.length]
    exact hstep.bound
  have hv : SEdge.Valid s.graph.nodeCount
      ⟨left,right,(s.graph.edge (step.change.edge * 2)).edgeId⟩ := by
    rw [hs.nodeCount]
    exact ⟨hwid.valid.left_nonempty,hwid.valid.right_nonempty,hwid.valid.disjoint,
      hwid.valid.left_lt,hwid.valid.right_lt⟩
  have hedge := fun i => edge_replaceEdge_forward s.graph step.change.edge i left right hbd
  rw [heq]
  refine ⟨hs.adjacent.replaceEdge hbd hv,?_,?_,?_,?_,hs.best,hs.applied,hs.unapplied⟩
  · rw [nodeCount_replaceEdge]
    exact hs.nodeCount
  · rw [edges_length_replaceEdge]
    exact hs.length
  · intro i hi
    simp only [edge,hedge]
    split
    · rename_i hi'
      subst hi'
      exact hwid
    · exact hs.widens i hi
  · intro i hi
    simp only [edge,hedge]
    split
    · exact hs.edgeId i hi
    · exact hs.edgeId i hi

theorem Safe.push (hs : Safe g₀ s) (hstep : Fits g₀ step) :
    Safe g₀ { s.modifyEdge step true with applied := step :: s.applied } := by
  have hmod := hs.modifyEdge hstep true
  refine ⟨hmod.adjacent,hmod.nodeCount,hmod.length,hmod.widens,hmod.edgeId,hmod.best,?_,
    hmod.unapplied⟩
  intro step' hmem
  rcases mem_cons.mp hmem with rfl | hmem
  · exact hstep
  · exact hs.applied step' hmem

theorem Safe.applyStep (hs : Safe g₀ s) (fuel : ℕ) :
    Safe g₀ (CDPHyperGraphSimplifier.applyStep o fuel s).2 := by
  obtain ⟨hfits,hfe⟩ := hs.fetchStep (o := o) fuel
  simp only [CDPHyperGraphSimplifier.applyStep]
  split
  · rename_i s' heq
    rw [heq] at hfe
    exact hfe
  · rename_i step s' heq
    rw [heq] at hfits hfe
    have hpus := hfe.push (hfits step rfl)
    split
    · exact kept_safe.processNeighbors hpus _ _ _
    · exact hpus

theorem Safe.unapplyStep (hs : Safe g₀ s) : Safe g₀ (CDPHyperGraphSimplifier.unapplyStep s).2 := by
  simp only [CDPHyperGraphSimplifier.unapplyStep]
  split
  · exact hs
  · rename_i step rest hcons
    have hstep := hs.applied step (hcons ▸ mem_cons_self)
    have hpo : Safe g₀ { s with applied := rest } :=
      ⟨hs.adjacent,hs.nodeCount,hs.length,hs.widens,hs.edgeId,hs.best,
        fun step' h => hs.applied step' (hcons ▸ mem_cons_of_mem step h),hs.unapplied⟩
    have hmod := hpo.modifyEdge hstep false
    refine ⟨hmod.adjacent,hmod.nodeCount,hmod.length,hmod.widens,hmod.edgeId,hmod.best,
      hmod.applied,?_⟩
    intro step' hmem
    rcases mem_cons.mp hmem with rfl | hmem
    · exact hstep
    · exact hmod.unapplied step' hmem

theorem safe_start (hg : g₀.Adjacent) : Safe g₀ (⟨g₀,.new g₀.logicalEdgeCount,
    replicate g₀.logicalEdgeCount ⟨none, none, false⟩,[],[],[]⟩ : CDPHyperGraphSimplifier κ) := by
  refine ⟨hg,rfl,rfl,?_,fun _ _ => rfl,?_,fun _ h => (by cases h),fun _ h => (by cases h)⟩
  · intro i hi
    exact ⟨subset_rfl,subset_rfl,hg.valid (i * 2) (by omega)⟩
  · intro b hb step hstep
    rw [eq_of_mem_replicate hb] at hstep
    cases hstep

/-! ## Whole runs -/

/-- The states that any sequence of the simplifier's own operations reaches. -/
inductive Run (o : Oracles κ) (g₀ : CDPHyperGraph) : CDPHyperGraphSimplifier κ → Prop
  | new : Run o g₀ (new o g₀)
  | applyStep {s : CDPHyperGraphSimplifier κ} (fuel : ℕ) : Run o g₀ s →
      Run o g₀ (applyStep o fuel s).2
  | unapplyStep {s : CDPHyperGraphSimplifier κ} : Run o g₀ s → Run o g₀ (unapplyStep s).2
  | applySteps {s : CDPHyperGraphSimplifier κ} (fuel count : ℕ) : Run o g₀ s →
      Run o g₀ (applySteps o fuel count s).2

theorem run_induct {P : CDPHyperGraphSimplifier κ → Prop} (hnew : P (new o g₀))
    (happly : ∀ s fuel, Run o g₀ s → P s → P (applyStep o fuel s).2)
    (huna : ∀ s, Run o g₀ s → P s → P (unapplyStep s).2) (h : Run o g₀ s) : P s := by
  have hup (fuel count rounds : ℕ) (s : CDPHyperGraphSimplifier κ) (hrun : Run o g₀ s) (hs : P s) :
      Run o g₀ (applyUpTo o fuel count rounds s).2 ∧ P (applyUpTo o fuel count rounds s).2 := by
    induction rounds generalizing s with
    | zero => exact ⟨hrun,hs⟩
    | succ rounds ih =>
      simp only [CDPHyperGraphSimplifier.applyUpTo]
      split
      · exact ⟨hrun,hs⟩
      split
      · exact ih _ (hrun.applyStep fuel) (happly s fuel hrun hs)
      · exact ⟨hrun.applyStep fuel,happly s fuel hrun hs⟩
  have hdown (count rounds : ℕ) (s : CDPHyperGraphSimplifier κ) (hrun : Run o g₀ s) (hs : P s) :
      P (unapplyDownTo count rounds s) := by
    induction rounds generalizing s with
    | zero => exact hs
    | succ rounds ih =>
      simp only [CDPHyperGraphSimplifier.unapplyDownTo]
      split
      · exact hs
      · exact ih _ hrun.unapplyStep (huna s hrun hs)
  induction h with
  | new => exact hnew
  | applyStep fuel hrun ih => exact happly _ fuel hrun ih
  | unapplyStep hrun ih => exact huna _ hrun ih
  | applySteps fuel count hrun ih =>
    obtain ⟨hrun',hs⟩ := hup fuel count (count - _) _ hrun ih
    simp only [CDPHyperGraphSimplifier.applySteps]
    split
    · exact hdown count _ _ hrun' hs
    · exact hs

theorem Run.safe (hg : g₀.Adjacent) (h : Run o g₀ s) : Safe g₀ s :=
  run_induct (kept_safe.new (safe_start hg)) (fun _ fuel _ hs => hs.applyStep fuel)
    (fun _ _ hs => hs.unapplyStep) h

theorem Safe.shrinks (hg : g₀.Adjacent) (hs : Safe g₀ s) (u v : Finset ℕ)
    (h : s.graph.Joins u v) : ∃ u' v', g₀.Joins u' v' ∧ u' ⊆ u ∧ v' ⊆ v := by
  obtain ⟨d,hd,rfl,rfl⟩ := h
  have heven := hs.adjacent.even
  have hlen := hs.length
  obtain ⟨i,rfl | rfl⟩ : ∃ i, d = i * 2 ∨ d = i * 2 + 1 := ⟨d / 2,by omega⟩
  · have hw := hs.widens i (by omega)
    exact ⟨_,_,⟨i * 2,by omega,rfl,rfl⟩,hw.left_subset,hw.right_subset⟩
  · have hw := hs.widens i (by omega)
    rw [hs.adjacent.mirrored i hd]
    refine ⟨_,_,⟨i * 2 + 1,by omega,rfl,rfl⟩,?_,?_⟩
    · rw [hg.mirrored i (by omega)]
      exact hw.right_subset
    · rw [hg.mirrored i (by omega)]
      exact hw.left_subset

/-- Whatever the cost oracle, the filter and the sequence of operations, every edge keeps its
original sides inside its current ones, and every pair that the simplified graph connects was
connected by the original graph. -/
theorem run_only_widens {n : ℕ} {g₀ : CDPHyperGraph} (hg : Built n g₀) {o : Oracles κ}
    {s : CDPHyperGraphSimplifier κ} (h : Run o g₀ s) :
    s.graph.logicalEdgeCount = g₀.logicalEdgeCount ∧
    (∀ i < g₀.logicalEdgeCount, (s.edge i).edgeId = (g₀.edge (i * 2)).edgeId ∧
      (g₀.edge (i * 2)).left ⊆ (s.edge i).left ∧ (g₀.edge (i * 2)).right ⊆ (s.edge i).right ∧
      Disjoint (s.edge i).left (s.edge i).right ∧ (s.edge i).left.Nonempty ∧
      (s.edge i).right.Nonempty) ∧
    ∀ l t, ConnectedPair s.graph.Joins l t → ConnectedPair g₀.Joins l t := by
  have hs := h.safe hg.adjacent.1
  refine ⟨by simp only [logicalEdgeCount,hs.length],fun i hi => ?_,fun l t hpair => ?_⟩
  · have hbd : i * 2 + 1 < g₀.edges.length := by
      simp only [logicalEdgeCount] at hi
      omega
    have hw := hs.widens i hbd
    exact ⟨hs.edgeId i hbd,hw.left_subset,hw.right_subset,hw.valid.disjoint,
      hw.valid.left_nonempty,hw.valid.right_nonempty⟩
  · exact hpair.mono (hs.shrinks hg.adjacent.1)

/-- Every join costs the same and the queue returns its oldest entry. -/
def flatOracles : Oracles ℕ where
  joinCost _ _ := some 1
  edgeFilter _ := true
  lt a b := decide (a < b)
  le a b := decide (a ≤ b)
  zero := 0
  div a b := a / b
  maxValue := 1000
  top entries := (entries.map Prod.fst).head?
  top_mem _ _ h := List.mem_of_head? h
  top_isSome entries h := by
    cases entries with
    | nil => exact absurd rfl h
    | cons e es => rfl

theorem run_only_widens_chain : let g₀ := ofEdges 3 [⟨{0},{1},0⟩,⟨{1},{2},1⟩]
    let s := (applyStep flatOracles 2 (new flatOracles g₀)).2
    s.edge 0 = ⟨{0},{1, 2},0⟩ ∧ s.graph.logicalEdgeCount = 2 ∧
      ∀ l t, ConnectedPair s.graph.Joins l t → ConnectedPair g₀.Joins l t := by
  have hbuilt : Built 3 (ofEdges 3 [⟨{0},{1},0⟩,⟨{1},{2},1⟩]) := built_ofEdges (by decide)
  obtain ⟨hcnt,_,hps⟩ := run_only_widens hbuilt (Run.applyStep (o := flatOracles) 2 .new)
  exact ⟨by decide +kernel,hcnt,hps⟩

end CDPHyperGraphSimplifier

end PgOrca
