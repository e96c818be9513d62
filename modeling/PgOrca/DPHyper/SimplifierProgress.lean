import PgOrca.DPHyper.SimplifierQueue

/-!
# Steps from the queue

The queue runs empty: each step either orders two more edges or uses up an entry whose edges were
ordered in the meantime.
-/

namespace PgOrca

open Finset

namespace CDPHyperGraphSimplifier

open CDPHyperGraph

variable {κ : Type*} {o : Oracles κ} {g₀ : CDPHyperGraph} {s : CDPHyperGraphSimplifier κ}
  {step : SSimplificationStep κ}

/-! ## Where a step starts -/

def sides (g : CDPHyperGraph) (i : ℕ) : Finset ℕ × Finset ℕ :=
  ((g.edge (i * 2)).left, (g.edge (i * 2)).right)

/-- The step puts `before` in front of `after` and widens `after` from the sides `f`. -/
structure About (f : ℕ → Finset ℕ × Finset ℕ) (before after : ℕ) (step : SSimplificationStep κ) :
    Prop where
  before_eq : step.before = before
  after_eq : step.after = after
  edge : step.change.edge = after
  old : (step.change.oldLeft, step.change.oldRight) = f after

theorem Orders.about {before after : ℕ}
    (h : Orders s before after step) : About (sides s.graph) before after step :=
  ⟨h.before_eq,h.after_eq,h.edge,Prod.ext h.oldLeft h.oldRight⟩

def Unordered (order : CDPHyperOrderConstraints) (step : SSimplificationStep κ) : Prop :=
  order.wouldCreateCycle step.before step.after = false ∧
    order.wouldCreateCycle step.after step.before = false

instance (order : CDPHyperOrderConstraints) (step : SSimplificationStep κ) :
    Decidable (Unordered order step) := inferInstanceAs (Decidable (_ ∧ _))

/-- The step of the entry `j` with the neighbour `m`, among `n` edges with the sides `f`. -/
structure Starts (n : ℕ) (f : ℕ → Finset ℕ × Finset ℕ) (j m : ℕ) (step : SSimplificationStep κ) :
    Prop where
  lt : j < m
  bound : m < n
  about : About f j m step ∨ About f m j step

theorem makeStep_spec (hs : Safe g₀ s) {edge1 edge2 : ℕ}
    (h : s.makeStep o edge1 edge2 = some step) :
    edge1 < g₀.logicalEdgeCount ∧ edge2 < g₀.logicalEdgeCount ∧ Unordered s.order step ∧
      (About (sides s.graph) edge1 edge2 step ∨ About (sides s.graph) edge2 edge1 step) := by
  have hmade := made_of_makeStep h
  obtain ⟨h1,h2⟩ := hmade.bounds hs
  refine ⟨by rw [logicalEdgeCount]; omega,by rw [logicalEdgeCount]; omega,?_,
    hmade.orders.imp Orders.about Orders.about⟩
  rcases hmade.orders with hor | hor
  · rw [Unordered,hor.before_eq,hor.after_eq]
    exact ⟨hmade.no_cycle,hmade.no_cycle'⟩
  · rw [Unordered,hor.before_eq,hor.after_eq]
    exact ⟨hmade.no_cycle',hmade.no_cycle⟩

theorem makes_starts (hs : Safe g₀ s) :
    Makes o (fun j m step => Starts g₀.logicalEdgeCount (sides s.graph) j m step ∧
      Unordered s.order step) s := by
  intro j m step hlt hmade
  rcases hmade with h | h
  · obtain ⟨_,hm,hun,hab⟩ := makeStep_spec hs h
    exact ⟨⟨hlt,hm,hab⟩,hun⟩
  · obtain ⟨hm,_,hun,hab⟩ := makeStep_spec hs h
    exact ⟨⟨hlt,hm,hab.symm⟩,hun⟩

end CDPHyperGraphSimplifier

/-! ## The order -/

namespace CDPHyperOrderConstraints

variable {order : CDPHyperOrderConstraints} {n before after : ℕ}

structure WellFormed (n : ℕ) (order : CDPHyperOrderConstraints) : Prop where
  length : order.reachable.length = n
  refl : ∀ a < n, a ∈ order.reachable.getD a ∅

def unrelated (n : ℕ) (order : CDPHyperOrderConstraints) : Finset (ℕ × ℕ) :=
  (Finset.range n ×ˢ Finset.range n).filter fun p => p.2 ∉ order.reachable.getD p.1 ∅

theorem wellFormed_new (n : ℕ) : (new n).WellFormed n := by
  refine ⟨by rw [new,List.length_map,List.length_range],?_⟩
  intro a ha
  have hget : (List.range n)[a]? = some a := List.getElem?_range ha
  rw [new,List.getD_eq_getElem?_getD,List.getElem?_map,hget]
  exact mem_singleton_self a

theorem tryAdd_false (h : (order.tryAdd before after).1 = false) :
    order.wouldCreateCycle before after = true ∧ (order.tryAdd before after).2 = order := by
  simp only [tryAdd] at h ⊢
  split at h
  case isTrue hcy =>
    rw [if_pos hcy]
    exact ⟨hcy,rfl⟩
  case isFalse =>
    split at h
    · cases h
    · cases h

theorem subset_tryAdd (order : CDPHyperOrderConstraints) (before after a : ℕ) :
    order.reachable.getD a ∅ ⊆ (order.tryAdd before after).2.reachable.getD a ∅ := by
  simp only [tryAdd]
  split
  · exact subset_rfl
  split
  · exact subset_rfl
  intro x hx
  rw [List.getD_eq_getElem?_getD] at hx ⊢
  rw [List.getElem?_map]
  cases hget : order.reachable[a]? with
  | none =>
    rw [hget] at hx
    exact (notMem_empty x hx).elim
  | some r =>
    rw [hget] at hx
    simp only [Option.map_some,Option.getD_some] at hx ⊢
    split
    · exact mem_union_left _ hx
    · exact hx

theorem WellFormed.tryAdd (h : order.WellFormed n) :
    (order.tryAdd before after).2.WellFormed n := by
  refine ⟨?_,fun a ha => subset_tryAdd order before after a (h.refl a ha)⟩
  simp only [CDPHyperOrderConstraints.tryAdd]
  split
  · exact h.length
  split
  · exact h.length
  · rw [List.length_map]
    exact h.length

theorem unrelated_tryAdd_subset (order : CDPHyperOrderConstraints) (n before after : ℕ) :
    (order.tryAdd before after).2.unrelated n ⊆ order.unrelated n := by
  intro p hp
  rw [unrelated,mem_filter] at hp ⊢
  exact ⟨hp.1,fun hmem => hp.2 (subset_tryAdd order before after p.1 hmem)⟩

theorem WellFormed.tryAdd_progress (h : order.WellFormed n) (hb : before < n) (ha : after < n)
    (hadd : (order.tryAdd before after).1 = true) :
    order.wouldCreateCycle after before = true ∧ (order.tryAdd before after).2 = order ∨
      (order.tryAdd before after).2.unrelated n ⊂ order.unrelated n := by
  by_cases hmem : after ∈ order.reachable.getD before ∅
  · refine .inl ⟨decide_eq_true hmem,?_⟩
    simp only [CDPHyperOrderConstraints.tryAdd] at hadd ⊢
    split at hadd
    · cases hadd
    · rename_i hcy
      rw [if_neg hcy,if_pos hmem]
  · refine .inr ⟨unrelated_tryAdd_subset order n before after,fun hsub => ?_⟩
    have hrel : after ∈ (order.tryAdd before after).2.reachable.getD before ∅ := by
      simp only [CDPHyperOrderConstraints.tryAdd] at hadd ⊢
      split at hadd
      · cases hadd
      · rename_i hcy
        have hlt : before < order.reachable.length := by
          rw [h.length]
          exact hb
        have hrow := h.refl before hb
        rw [List.getD_eq_getElem?_getD,List.getElem?_eq_getElem hlt,Option.getD_some] at hrow
        rw [if_neg hcy,if_neg hmem,List.getD_eq_getElem?_getD,List.getElem?_map,
          List.getElem?_eq_getElem hlt]
        simp only [Option.map_some,Option.getD_some,hrow,if_true]
        exact mem_union_right _ (h.refl after ha)
    have hpair : (before, after) ∈ order.unrelated n :=
      mem_filter.mpr ⟨mem_product.mpr ⟨mem_range.mpr hb,mem_range.mpr ha⟩,hmem⟩
    exact (mem_filter.mp (hsub hpair)).2 hrel

end CDPHyperOrderConstraints

namespace CDPHyperGraphSimplifier

open CDPHyperGraph CDPHyperOrderConstraints

variable {κ : Type*} {o : Oracles κ} {g₀ : CDPHyperGraph} {s : CDPHyperGraphSimplifier κ}
  {f : ℕ → Finset ℕ × Finset ℕ} {i n m : ℕ} {step : SSimplificationStep κ}

/-! ## Taking a step from the queue -/

/-- The entries in the queue whose edges have been ordered since the step was made. -/
def stale (n : ℕ) (s : CDPHyperGraphSimplifier κ) : Finset ℕ :=
  (Finset.range n).filter fun j =>
    (s.bestAt j).inQueue = true ∧ ∀ step ∈ (s.bestAt j).step, ¬ Unordered s.order step

/-- Goes down with every step that is taken from the queue. -/
def remaining (n : ℕ) (s : CDPHyperGraphSimplifier κ) : ℕ :=
  (s.order.unrelated n).card * (n + 1) + (stale n s).card

theorem stale_card_le (n : ℕ) (s : CDPHyperGraphSimplifier κ) : (stale n s).card ≤ n := by
  have hle := card_filter_le (range n) fun j =>
    (s.bestAt j).inQueue = true ∧ ∀ step ∈ (s.bestAt j).step, ¬ Unordered s.order step
  rw [card_range] at hle
  exact hle

theorem remaining_le (n : ℕ) (s : CDPHyperGraphSimplifier κ) :
    remaining n s ≤ n * n * (n + 1) + n := by
  have hcard : (s.order.unrelated n).card ≤ n * n := by
    have hle := card_filter_le (range n ×ˢ range n) fun p => p.2 ∉ s.order.reachable.getD p.1 ∅
    rw [card_product,card_range] at hle
    exact hle
  exact Nat.add_le_add (Nat.mul_le_mul_right _ hcard) (stale_card_le n s)

/-- The bookkeeping of the queue, for steps that start at the sides `f`. -/
structure Ready (g₀ : CDPHyperGraph) (f : ℕ → Finset ℕ × Finset ℕ)
    (s : CDPHyperGraphSimplifier κ) : Prop where
  safe : Safe g₀ s
  flagged : Flagged s
  order : s.order.WellFormed g₀.logicalEdgeCount
  sound : ∀ j, Sound (Starts g₀.logicalEdgeCount f) s j

/-- `ProcessNeighbors` repairs the queue after a change of the edge, and no entry gets stale. -/
theorem ready_processNeighbors (hs : Safe g₀ s) (hflag : Flagged s)
    (horder : s.order.WellFormed g₀.logicalEdgeCount) (hf : sides s.graph = f) {edge1 : ℕ}
    (hedge : edge1 < g₀.logicalEdgeCount)
    (h : ∀ j, j ≠ edge1 → (j < edge1 → (s.bestAt j).bestNeighbor ≠ some edge1) →
      Sound (Starts g₀.logicalEdgeCount f) s j) :
    Ready g₀ f (s.processNeighbors o edge1 0 s.graph.logicalEdgeCount) ∧
      stale g₀.logicalEdgeCount (s.processNeighbors o edge1 0 s.graph.logicalEdgeCount) ⊆
        stale g₀.logicalEdgeCount s := by
  have hcnt : s.graph.logicalEdgeCount = g₀.logicalEdgeCount := by
    rw [logicalEdgeCount,logicalEdgeCount,hs.length]
  have hcore : SameCore s (s.processNeighbors o edge1 0 s.graph.logicalEdgeCount) :=
    sameCore_processNeighbors s edge1 0 _
  -- an entry is either made anew or as stale as it was
  have hmakes : Makes o (fun j m step => Starts g₀.logicalEdgeCount f j m step ∧
      (Unordered s.order step ∨ j ∈ stale g₀.logicalEdgeCount s)) s := by
    intro j m step hlt hmade
    obtain ⟨hst,hun⟩ := makes_starts hs j m step hlt hmade
    rw [hf] at hst
    exact ⟨hst,.inl hun⟩
  have hkept (j : ℕ) (hne : j ≠ edge1)
      (hsp : j < edge1 → (s.bestAt j).bestNeighbor ≠ some edge1) :
      Sound (fun j m step => Starts g₀.logicalEdgeCount f j m step ∧
        (Unordered s.order step ∨ j ∈ stale g₀.logicalEdgeCount s)) s j := by
    intro hqu
    obtain ⟨m,step,hm,hstep,hst⟩ := h j hne hsp hqu
    refine ⟨m,step,hm,hstep,hst,?_⟩
    by_cases hun : Unordered s.order step
    · exact .inl hun
    · refine .inr (mem_filter.mpr ⟨mem_range.mpr ?_,hqu,?_⟩)
      · exact hst.lt.trans hst.bound
      · intro step' hstep'
        rw [hstep] at hstep'
        cases hstep'
        exact hun
  have hlast : edge1 ≤ s.graph.logicalEdgeCount := by
    rw [hcnt]
    exact hedge.le
  have hsd := sound_processNeighbors hmakes hlast hkept
  refine ⟨⟨kept_safe.processNeighbors hs edge1 0 _,kept_flagged.processNeighbors hflag edge1 0 _,
    ?_,?_⟩,?_⟩
  · rw [hcore.order]
    exact horder
  · intro j hqu
    obtain ⟨m,step,hm,hstep,hst,_⟩ := hsd j hqu
    exact ⟨m,step,hm,hstep,hst⟩
  · intro j hj
    obtain ⟨_,hqu,hstl⟩ := mem_filter.mp hj
    obtain ⟨m,step,_,hstep,_,hun⟩ := hsd j hqu
    rw [hcore.order] at hstl
    exact hun.resolve_left (hstl step hstep)

def pop (s : CDPHyperGraphSimplifier κ) (i : ℕ) : CDPHyperGraphSimplifier κ :=
  { s.setBest i ⟨(s.bestAt i).bestNeighbor, (s.bestAt i).step, false⟩ with
    queue := s.queue.filter (· ≠ i) }

theorem onlyEntry_pop (s : CDPHyperGraphSimplifier κ) (i : ℕ) : OnlyEntry i s (s.pop i) :=
  (onlyEntry_setBest s i _).withQueue _

theorem inQueue_pop (s : CDPHyperGraphSimplifier κ) (i : ℕ) :
    ((s.pop i).bestAt i).inQueue = false := by
  by_cases hlt : i < s.best.length
  · exact congrArg SBestSimplification.inQueue (bestAt_setBest_self hlt _)
  · rw [bestAt_of_length_le]
    rw [(onlyEntry_pop s i).length]
    exact not_lt.mp hlt

theorem Ready.pop (h : Ready g₀ f s) (i : ℕ) : Ready g₀ f (s.pop i) := by
  refine ⟨(h.safe.relabel i _ false).withQueue _,h.flagged.remove i _,h.order,?_⟩
  intro j
  by_cases hj : j = i
  · subst hj
    intro hqu
    rw [inQueue_pop] at hqu
    cases hqu
  · exact (h.sound j).only (onlyEntry_pop s i) hj

theorem stale_pop_subset (n : ℕ) (s : CDPHyperGraphSimplifier κ) (i : ℕ) :
    stale n (s.pop i) ⊆ (stale n s).erase i := by
  intro j hj
  obtain ⟨hlt,hqu,hst⟩ := mem_filter.mp hj
  have hne : j ≠ i := by
    rintro rfl
    rw [inQueue_pop] at hqu
    cases hqu
  rw [(onlyEntry_pop s i).bestAt j hne] at hqu hst
  exact mem_erase.mpr ⟨hne,mem_filter.mpr ⟨hlt,hqu,hst⟩⟩

/-- The entry on top of the queue. -/
abbrev top (o : Oracles κ) (s : CDPHyperGraphSimplifier κ) : Option ℕ :=
  o.top (s.queue.map fun i => (i, (s.bestAt i).step.map (·.benefit)))

theorem Ready.top (h : Ready g₀ f s) (hi : s.top o = some i) :
    (s.bestAt i).inQueue = true ∧ ∃ m step, (s.bestAt i).bestNeighbor = some m ∧
      (s.bestAt i).step = some step ∧ Starts g₀.logicalEdgeCount f i m step := by
  have hmem := o.top_mem _ i hi
  rw [List.map_map] at hmem
  obtain ⟨j,hj,hji⟩ := List.mem_map.mp hmem
  have hqu : (s.bestAt i).inQueue = true := by
    rw [← hji]
    exact h.flagged j hj
  exact ⟨hqu,h.sound i hqu⟩

theorem Starts.bounds {j : ℕ} (h : Starts n f j m step) : step.before < n ∧ step.after < n := by
  have hj := h.lt.trans h.bound
  rcases h.about with hab | hab
  · rw [hab.before_eq,hab.after_eq]
    exact ⟨hj,h.bound⟩
  · rw [hab.before_eq,hab.after_eq]
    exact ⟨h.bound,hj⟩

theorem mem_stale (hqu : (s.bestAt i).inQueue = true) (hstep : (s.bestAt i).step = some step)
    (hst : Starts n f i m step) (hor : ¬ Unordered s.order step) : i ∈ stale n s := by
  refine mem_filter.mpr ⟨mem_range.mpr (hst.lt.trans hst.bound),hqu,?_⟩
  intro step' hstep'
  rw [hstep] at hstep'
  cases hstep'
  exact hor

/-- What the refused step on top of the queue leaves. -/
abbrev discarded (o : Oracles κ) (s : CDPHyperGraphSimplifier κ) (i : ℕ)
    (step : SSimplificationStep κ) : CDPHyperGraphSimplifier κ :=
  (s.pop i).processNeighbors o step.after 0 (s.pop i).graph.logicalEdgeCount

theorem sameCore_discarded (s : CDPHyperGraphSimplifier κ) (i : ℕ) (step : SSimplificationStep κ) :
    SameCore s (discarded o s i step) :=
  (onlyEntry_pop s i).toSameCore.trans (sameCore_processNeighbors _ _ _ _)

theorem Ready.discard (h : Ready g₀ f s) (hf : sides s.graph = f)
    (hqu : (s.bestAt i).inQueue = true) (hstep : (s.bestAt i).step = some step)
    (hst : Starts g₀.logicalEdgeCount f i m step)
    (hadd : (s.order.tryAdd step.before step.after).1 = false) :
    Ready g₀ f (discarded o s i step) ∧ (stale g₀.logicalEdgeCount (discarded o s i step)).card <
      (stale g₀.logicalEdgeCount s).card := by
  have hpop := h.pop i
  obtain ⟨hrd,hsub⟩ := ready_processNeighbors (o := o) hpop.safe hpop.flagged hpop.order hf
    hst.bounds.2 fun j _ _ => hpop.sound j
  refine ⟨hrd,card_lt_card ?_⟩
  have hmem : i ∈ stale g₀.logicalEdgeCount s := by
    refine mem_stale hqu hstep hst fun hun => ?_
    exact Bool.false_ne_true (hun.1.symm.trans (tryAdd_false hadd).1)
  exact ((hsub.trans (stale_pop_subset _ s i)).trans_ssubset (erase_ssubset hmem))

def fetched (s : CDPHyperGraphSimplifier κ) (i : ℕ) (step : SSimplificationStep κ) :
    CDPHyperGraphSimplifier κ :=
  { s.pop i with order := (s.order.tryAdd step.before step.after).2 }

theorem fetchFromQueue_step (fuel : ℕ) (hi : s.top o = some i)
    (hm : (s.bestAt i).bestNeighbor = some m) (hstep : (s.bestAt i).step = some step) :
    fetchFromQueue o (fuel + 1) s =
      if (s.order.tryAdd step.before step.after).1 then (some step, fetched s i step)
      else fetchFromQueue o fuel (discarded o s i step) := by
  simp only [fetchFromQueue,hi,hm,hstep,fetched,discarded,pop]
  rfl

theorem fetchFromQueue_empty (fuel : ℕ) (hi : s.top o = none) :
    fetchFromQueue o (fuel + 1) s = (none, s) := by
  simp only [fetchFromQueue,hi]

theorem Ready.remaining_fetched (h : Ready g₀ f s) (hqu : (s.bestAt i).inQueue = true)
    (hstep : (s.bestAt i).step = some step) (hsts : Starts g₀.logicalEdgeCount f i m step)
    (hadd : (s.order.tryAdd step.before step.after).1 = true) :
    remaining g₀.logicalEdgeCount (fetched s i step) < remaining g₀.logicalEdgeCount s := by
  rcases h.order.tryAdd_progress hsts.bounds.1 hsts.bounds.2 hadd with ⟨hcy,hsame⟩ | hless
  · have hmem : i ∈ stale g₀.logicalEdgeCount s := by
      refine mem_stale hqu hstep hsts fun hun => ?_
      exact Bool.false_ne_true (hun.2.symm.trans hcy)
    have hcore : fetched s i step = s.pop i := by rw [fetched,hsame]; rfl
    have hcard := card_lt_card
      ((stale_pop_subset g₀.logicalEdgeCount s i).trans_ssubset (erase_ssubset hmem))
    rw [hcore,remaining,remaining,(onlyEntry_pop s i).order]
    exact Nat.add_lt_add_left hcard _
  · have hcard := card_lt_card hless
    have hst := stale_card_le g₀.logicalEdgeCount (fetched s i step)
    calc remaining g₀.logicalEdgeCount (fetched s i step)
        ≤ ((s.order.tryAdd step.before step.after).2.unrelated g₀.logicalEdgeCount).card *
            (g₀.logicalEdgeCount + 1) + g₀.logicalEdgeCount := Nat.add_le_add_left hst _
      _ < (((s.order.tryAdd step.before step.after).2.unrelated g₀.logicalEdgeCount).card + 1) *
            (g₀.logicalEdgeCount + 1) := by
          rw [Nat.add_one_mul]
          omega
      _ ≤ (s.order.unrelated g₀.logicalEdgeCount).card * (g₀.logicalEdgeCount + 1) :=
          Nat.mul_le_mul_right _ hcard
      _ ≤ remaining g₀.logicalEdgeCount s := Nat.le_add_right _ _

theorem Ready.fetched (h : Ready g₀ f s) (i : ℕ) (step : SSimplificationStep κ) :
    Ready g₀ f (fetched s i step) :=
  ⟨(h.pop i).safe.withOrder _,(h.pop i).flagged,h.order.tryAdd,(h.pop i).sound⟩

theorem Ready.fetchFromQueue (h : Ready g₀ f s) (hf : sides s.graph = f) (fuel : ℕ) :
    Ready g₀ f (fetchFromQueue o fuel s).2 ∧
      (fetchFromQueue o fuel s).2.graph = s.graph ∧
      (fetchFromQueue o fuel s).2.applied = s.applied ∧
      (fetchFromQueue o fuel s).2.unapplied = s.unapplied ∧
      ∀ step ∈ (fetchFromQueue o fuel s).1, (∃ j m, Starts g₀.logicalEdgeCount f j m step) ∧
        remaining g₀.logicalEdgeCount (fetchFromQueue o fuel s).2 <
          remaining g₀.logicalEdgeCount s := by
  induction fuel generalizing s with
  | zero => exact ⟨h,rfl,rfl,rfl,nofun⟩
  | succ fuel ih =>
    cases hi : s.top o with
    | none =>
      rw [fetchFromQueue_empty fuel hi]
      exact ⟨h,rfl,rfl,rfl,nofun⟩
    | some i =>
      obtain ⟨hqu,m,step,hm,hstep,hst⟩ := h.top hi
      rw [fetchFromQueue_step fuel hi hm hstep]
      split
      case isTrue hadd =>
        refine ⟨h.fetched i step,rfl,rfl,rfl,?_⟩
        intro step' hmem
        cases hmem
        exact ⟨⟨i,m,hst⟩,h.remaining_fetched hqu hstep hst hadd⟩
      case isFalse hadd =>
        have hadd' := Bool.eq_false_iff.mpr hadd
        obtain ⟨hrd,hcard⟩ := h.discard (o := o) hf hqu hstep hst hadd'
        have hsame := sameCore_discarded (o := o) s i step
        obtain ⟨hrd',hg,happ,hun,hre⟩ := ih hrd (by rw [hsame.graph]; exact hf)
        refine ⟨hrd',hg.trans hsame.graph,happ.trans hsame.applied,
          hun.trans hsame.unapplied,fun step' hmem => ?_⟩
        obtain ⟨hst',hless⟩ := hre step' hmem
        refine ⟨hst',hless.trans ?_⟩
        rw [remaining,remaining,hsame.order]
        exact Nat.add_lt_add_left hcard _

/-- One unit of fuel for every stale entry and one more is enough. -/
theorem Ready.fetchFromQueue_succ (h : Ready g₀ f s) (hf : sides s.graph = f) {fuel : ℕ}
    (hfuel : (stale g₀.logicalEdgeCount s).card < fuel) :
    CDPHyperGraphSimplifier.fetchFromQueue o (fuel + 1) s =
      CDPHyperGraphSimplifier.fetchFromQueue o fuel s := by
  induction fuel generalizing s with
  | zero => exact (Nat.not_lt_zero _ hfuel).elim
  | succ fuel ih =>
    cases hi : s.top o with
    | none => rw [fetchFromQueue_empty _ hi,fetchFromQueue_empty _ hi]
    | some i =>
      obtain ⟨hqu,m,step,hm,hstep,hst⟩ := h.top hi
      rw [fetchFromQueue_step _ hi hm hstep,fetchFromQueue_step _ hi hm hstep]
      split
      case isTrue => rfl
      case isFalse hadd =>
        obtain ⟨hrd,hcard⟩ := h.discard (o := o) hf hqu hstep hst (Bool.eq_false_iff.mpr hadd)
        apply ih hrd
        · rw [(sameCore_discarded s i step).graph]
          exact hf
        · omega

end CDPHyperGraphSimplifier

end PgOrca
