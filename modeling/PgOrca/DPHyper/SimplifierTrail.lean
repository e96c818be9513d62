import PgOrca.DPHyper.SimplifierProgress

/-!
# The trail of the simplifier

Each applied step finds the sides that the steps before it have left, so taking steps back and
applying them again restores the sides of every edge.
-/

namespace PgOrca

open List
open Function (update update_of_ne)

variable {fuel : ℕ}

namespace CDPHyperGraphSimplifier

open CDPHyperGraph

variable {κ : Type*} {o : Oracles κ} {g₀ : CDPHyperGraph} {s : CDPHyperGraphSimplifier κ}
  {f : ℕ → Finset ℕ × Finset ℕ} {rest : List (SSimplificationStep κ)} {e n j m : ℕ}
  {step : SSimplificationStep κ}

def replay (f : ℕ → Finset ℕ × Finset ℕ) (steps : List (SSimplificationStep κ)) :
    ℕ → Finset ℕ × Finset ℕ :=
  steps.foldl (fun f step =>
    update f step.change.edge (step.change.newLeft, step.change.newRight)) f

/-- Every step finds the sides it starts from. -/
def Consistent (f : ℕ → Finset ℕ × Finset ℕ) : List (SSimplificationStep κ) → Prop
  | [] => True
  | step :: rest =>
    (step.change.oldLeft, step.change.oldRight) = f step.change.edge ∧
      Consistent (update f step.change.edge
        (step.change.newLeft, step.change.newRight)) rest

theorem replay_append_singleton (f : ℕ → Finset ℕ × Finset ℕ) (steps : List (SSimplificationStep κ))
    (step : SSimplificationStep κ) :
    replay f (steps ++ [step]) = update (replay f steps) step.change.edge
      (step.change.newLeft, step.change.newRight) := by
  rw [replay,foldl_append]
  rfl

theorem consistent_append {steps : List (SSimplificationStep κ)} :
    Consistent f (steps ++ rest) ↔ Consistent f steps ∧ Consistent (replay f steps) rest := by
  induction steps generalizing f with
  | nil => simp only [nil_append,Consistent,replay,foldl_nil,true_and]
  | cons step steps ih =>
    rw [cons_append,Consistent,Consistent,ih,and_assoc]
    rfl

def trail (s : CDPHyperGraphSimplifier κ) : List (SSimplificationStep κ) :=
  s.applied.reverse ++ s.unapplied

/-- The graph is what the applied steps make of the original one, and the queue waits for the graph
with all steps applied. -/
structure Traced (g₀ : CDPHyperGraph) (s : CDPHyperGraphSimplifier κ) : Prop where
  consistent : Consistent (sides g₀) s.trail
  sides_eq : sides s.graph = replay (sides g₀) s.applied.reverse
  ready : Ready g₀ (replay (sides g₀) s.trail) s

theorem Traced.sides_of_applied_nil (h : Traced g₀ s) (hnil : s.applied = []) :
    sides s.graph = sides g₀ := by
  rw [h.sides_eq,hnil]
  rfl

theorem sides_replaceEdge {g : CDPHyperGraph} (h : e * 2 + 1 < g.edges.length)
    (left right : Finset ℕ) :
    sides (g.replaceEdge e left right) = update (sides g) e (left, right) := by
  funext i
  rw [sides,edge_replaceEdge_forward g e i left right h]
  by_cases hi : i = e
  · rw [if_pos hi,hi,Function.update_self]
  · rw [if_neg hi,update_of_ne hi]
    rfl

theorem Fits.bound_of_safe (hs : Safe g₀ s) (h : Fits g₀ step) :
    step.change.edge * 2 + 1 < s.graph.edges.length := by
  rw [hs.length]
  exact h.bound

theorem Starts.update (h : Starts n f j m step) (hj : j ≠ e) (hm : m ≠ e)
    (new : Finset ℕ × Finset ℕ) : Starts n (update f e new) j m step := by
  refine ⟨h.lt,h.bound,?_⟩
  rcases h.about with ⟨hb,ha,he,ho⟩ | ⟨hb,ha,he,ho⟩
  · exact .inl ⟨hb,ha,he,by rw [update_of_ne hm]; exact ho⟩
  · exact .inr ⟨hb,ha,he,by rw [update_of_ne hj]; exact ho⟩

theorem Starts.edge_eq (h : Starts n f j m step) :
    step.change.edge = step.after ∧
      (step.change.oldLeft, step.change.oldRight) = f step.change.edge := by
  rcases h.about with ⟨_,ha,he,ho⟩ | ⟨_,ha,he,ho⟩
  · exact ⟨he.trans ha.symm,by rw [he]; exact ho⟩
  · exact ⟨he.trans ha.symm,by rw [he]; exact ho⟩

theorem ready_push (h : Ready g₀ f s) (hf : sides s.graph = f) (hfits : Fits g₀ step)
    (hsts : Starts g₀.logicalEdgeCount f j m step) : let pushed : CDPHyperGraphSimplifier κ :=
      { s.modifyEdge step true with applied := step :: s.applied }
    let next := pushed.processNeighbors o step.after 0 pushed.graph.logicalEdgeCount
    Ready g₀ (update f step.change.edge (step.change.newLeft, step.change.newRight)) next ∧
      sides next.graph = update f step.change.edge (step.change.newLeft, step.change.newRight) ∧
      next.applied = step :: s.applied ∧ next.unapplied = s.unapplied ∧
      remaining g₀.logicalEdgeCount next ≤ remaining g₀.logicalEdgeCount s := by
  intro pushed next
  have hsd : sides pushed.graph =
      update f step.change.edge (step.change.newLeft, step.change.newRight) := by
    rw [← hf]
    exact sides_replaceEdge (hfits.bound_of_safe h.safe) _ _
  have hcore : SameCore pushed next := sameCore_processNeighbors _ _ _ _
  have hkept (i : ℕ) (hne : i ≠ step.after)
      (hsp : i < step.after → (pushed.bestAt i).bestNeighbor ≠ some step.after) :
      Sound (Starts g₀.logicalEdgeCount
        (update f step.change.edge (step.change.newLeft, step.change.newRight)))
        pushed i := by
    intro hqu
    obtain ⟨m',step',hm,hstep,hst'⟩ := h.sound i hqu
    have hm' : m' ≠ step.after := by
      rintro rfl
      exact hsp hst'.lt hm
    rw [hsts.edge_eq.1]
    exact ⟨m',step',hm,hstep,hst'.update hne hm' _⟩
  obtain ⟨hrd,hst⟩ := ready_processNeighbors (o := o) (h.safe.push hfits) h.flagged h.order
    hsd hsts.bounds.2 hkept
  refine ⟨hrd,?_,hcore.applied,hcore.unapplied,?_⟩
  · rw [hcore.graph]
    exact hsd
  · rw [remaining,remaining,hcore.order]
    exact Nat.add_le_add_left (Finset.card_le_card hst) _

/-- Applying a step: one from the stack while there is one, or else a new one from the queue. -/
structure Applied (g₀ : CDPHyperGraph) (s s' : CDPHyperGraphSimplifier κ) : Prop where
  traced : Traced g₀ s'
  length : s'.applied.length = s.applied.length + 1
  trail : (s.unapplied ≠ [] ∧ s'.trail = s.trail) ∨
    (s.unapplied = [] ∧ s'.unapplied = [] ∧
      remaining g₀.logicalEdgeCount s' < remaining g₀.logicalEdgeCount s)

theorem Traced.applyStep_replay (h : Traced g₀ s) (hcons : s.unapplied = step :: rest) (fuel : ℕ) :
    (applyStep o fuel s).1 = true ∧ Applied g₀ s (applyStep o fuel s).2 := by
  have heq : applyStep o fuel s = (true,
      { ({ s with unapplied := rest } : CDPHyperGraphSimplifier κ).modifyEdge step true with
        applied := step :: s.applied }) := by
    simp only [applyStep,fetchStep,hcons,isEmpty_cons,Bool.false_eq_true,if_false]
  have hsafe := h.ready.safe.applyStep (o := o) fuel
  have hfits := h.ready.safe.unapplied step (by rw [hcons]; exact mem_cons_self)
  rw [heq] at hsafe ⊢
  have htr : trail ({ ({ s with unapplied := rest } : CDPHyperGraphSimplifier κ).modifyEdge step
      true with applied := step :: s.applied }) = s.trail := by
    simp only [trail,modifyEdge,hcons,reverse_cons,append_assoc,singleton_append]
  refine ⟨rfl,⟨?_,?_,?_⟩,rfl,.inl ⟨by rw [hcons]; exact cons_ne_nil _ _,htr⟩⟩
  · rw [htr]
    exact h.consistent
  · change sides (s.graph.replaceEdge _ _ _) = replay (sides g₀) (step :: s.applied).reverse
    rw [reverse_cons,replay_append_singleton,← h.sides_eq]
    exact sides_replaceEdge (hfits.bound_of_safe h.ready.safe) _ _
  · rw [htr]
    exact ⟨hsafe,h.ready.flagged,h.ready.order,h.ready.sound⟩

theorem Traced.applyStep_fresh (h : Traced g₀ s) (hnil : s.unapplied = []) (fuel : ℕ) :
    ((applyStep o fuel s).1 = true → Applied g₀ s (applyStep o fuel s).2) ∧
      ((applyStep o fuel s).1 = false → Traced g₀ (applyStep o fuel s).2 ∧
        (applyStep o fuel s).2.applied = s.applied ∧
        (applyStep o fuel s).2.unapplied = s.unapplied) := by
  have htr : s.trail = s.applied.reverse := by rw [trail,hnil,append_nil]
  have hf : sides s.graph = replay (sides g₀) s.trail := by rw [htr,h.sides_eq]
  have hfits := (h.ready.safe.fetchFromQueue (o := o) fuel).1
  obtain ⟨hrd,hg,happ,hun,hstep⟩ := h.ready.fetchFromQueue (o := o) hf fuel
  have hfe : fetchStep o fuel s = fetchFromQueue o fuel s := by
    simp only [fetchStep,hnil]
  simp only [applyStep,hfe,hnil,isEmpty_nil,if_true]
  generalize fetchFromQueue o fuel s = fetched at *
  obtain ⟨result,s'⟩ := fetched
  cases result with
  | none =>
    refine ⟨by simp,fun _ => ⟨⟨?_,?_,?_⟩,happ,hun.trans hnil⟩⟩
    · change Consistent (sides g₀) (trail s')
      rw [trail,happ,hun]
      exact h.consistent
    · change sides s'.graph = replay (sides g₀) s'.applied.reverse
      rw [hg,happ]
      exact h.sides_eq
    · change Ready g₀ (replay (sides g₀) (trail s')) s'
      rw [trail,happ,hun]
      exact hrd
  | some step =>
    refine ⟨fun _ => ?_,by simp⟩
    obtain ⟨⟨j,m,hst⟩,hless⟩ := hstep step rfl
    obtain ⟨hrd',hsd,happ',hun',hle⟩ := ready_push (o := o) hrd
      (by rw [hg]; exact hf) (hfits step rfl) hst
    have htr' : trail (processNeighbors o
        { s'.modifyEdge step true with applied := step :: s'.applied } step.after 0
        (s'.modifyEdge step true).graph.logicalEdgeCount) = s.trail ++ [step] := by
      rw [trail,happ',hun',happ,hun,hnil,htr,append_nil,reverse_cons]
    refine ⟨⟨?_,?_,?_⟩,?_,.inr ⟨hnil,?_,hle.trans_lt hless⟩⟩
    · rw [htr',consistent_append]
      exact ⟨h.consistent,hst.edge_eq.2,trivial⟩
    · rw [hsd,happ',happ,reverse_cons,← htr,replay_append_singleton]
    · rw [htr',replay_append_singleton]
      exact hrd'
    · rw [happ',happ,length_cons]
    · rw [hun',hun,hnil]

/-- A step is applied, or no step is left and only the queue has changed. -/
theorem Traced.applyStep_cases (h : Traced g₀ s) (fuel : ℕ) :
    (applyStep o fuel s).1 = true ∧ Applied g₀ s (applyStep o fuel s).2 ∨
      (applyStep o fuel s).1 = false ∧ Traced g₀ (applyStep o fuel s).2 ∧
        (applyStep o fuel s).2.applied = s.applied ∧ s.unapplied = [] ∧
        (applyStep o fuel s).2.unapplied = [] := by
  cases hcons : s.unapplied with
  | cons step rest => exact .inl (h.applyStep_replay hcons fuel)
  | nil =>
    obtain ⟨htrue,hff⟩ := h.applyStep_fresh (o := o) hcons fuel
    cases hres : (applyStep o fuel s).1 with
    | true => exact .inl ⟨rfl,htrue hres⟩
    | false =>
      obtain ⟨htd,happ,hun⟩ := hff hres
      exact .inr ⟨rfl,htd,happ,rfl,hun.trans hcons⟩

theorem traced_unapplyStep (h : Traced g₀ s) (hcons : s.applied = step :: rest) :
    Traced g₀ (unapplyStep s).2 ∧ (unapplyStep s).2.applied = rest ∧
      (unapplyStep s).2.trail = s.trail := by
  have hsafe := h.ready.safe.unapplyStep
  have hfits := h.ready.safe.applied step (by rw [hcons]; exact mem_cons_self)
  have heq : unapplyStep s = (true, { ({ s with applied := rest } :
      CDPHyperGraphSimplifier κ).modifyEdge step false with unapplied := step :: s.unapplied }) := by
    simp only [unapplyStep,hcons,modifyEdge]
  have htr : (unapplyStep s).2.trail = s.trail := by
    simp only [heq,trail,modifyEdge,hcons,reverse_cons,append_assoc,singleton_append]
  have hrd : Ready g₀ (replay (sides g₀) s.trail) (unapplyStep s).2 := by
    rw [heq] at hsafe ⊢
    exact ⟨hsafe,h.ready.flagged,h.ready.order,h.ready.sound⟩
  refine ⟨⟨htr ▸ h.consistent,?_,htr ▸ hrd⟩,by rw [heq]; rfl,htr⟩
  -- the step had found the sides that are put back
  have hcons' := h.consistent
  rw [trail,hcons,reverse_cons,append_assoc,consistent_append] at hcons'
  have hold : (step.change.oldLeft, step.change.oldRight) =
      replay (sides g₀) rest.reverse step.change.edge := hcons'.2.1
  rw [heq]
  change sides (s.graph.replaceEdge step.change.edge step.change.oldLeft step.change.oldRight) =
    replay (sides g₀) rest.reverse
  rw [sides_replaceEdge (hfits.bound_of_safe h.ready.safe),h.sides_eq,hcons,reverse_cons,
    replay_append_singleton,Function.update_idem,hold,Function.update_eq_self]

/-! ## Moving to a number of steps -/

section

variable (h : Traced g₀ s)

include h

theorem Traced.length_trail_le (fuel : ℕ) :
    s.trail.length ≤ (applyStep o fuel s).2.trail.length := by
  rcases h.applyStep_cases (o := o) fuel with ⟨_,happ⟩ | ⟨_,_,happlied,hnil,hun⟩
  · rcases happ.trail with ⟨_,htr⟩ | ⟨hnil,_⟩
    · rw [htr]
    · have hgr := happ.length
      simp only [trail,hnil,length_append,length_reverse,length_nil]
      omega
  · rw [trail,trail,happlied,hun,hnil]

theorem Traced.applyStep (fuel : ℕ) : Traced g₀ (applyStep o fuel s).2 := by
  rcases h.applyStep_cases (o := o) fuel with ⟨_,happ⟩ | ⟨_,htd,_⟩
  · exact happ.traced
  · exact htd

theorem Traced.length_applyStep (hres : (CDPHyperGraphSimplifier.applyStep o fuel s).1 = true) :
    (CDPHyperGraphSimplifier.applyStep o fuel s).2.applied.length = s.applied.length + 1 := by
  rcases h.applyStep_cases (o := o) fuel with ⟨_,happ⟩ | ⟨hff,_⟩
  · exact happ.length
  · rw [hres] at hff
    cases hff

theorem Traced.applyStep_eq_true (hlen : s.applied.length < s.trail.length) :
    (CDPHyperGraphSimplifier.applyStep o fuel s).1 = true := by
  rcases h.applyStep_cases (o := o) fuel with ⟨htrue,_⟩ | ⟨_,_,_,hnil,_⟩
  · exact htrue
  · rw [trail,hnil,append_nil,length_reverse] at hlen
    exact (lt_irrefl _ hlen).elim

theorem Traced.applyUpTo (fuel count rounds : ℕ) (hrn : count ≤ s.applied.length + rounds) :
    let r := applyUpTo o fuel count rounds s
    Traced g₀ r.2 ∧ s.trail.length ≤ r.2.trail.length ∧
      (r.1 = true → count ≤ r.2.applied.length) ∧ (count ≤ s.trail.length → r.1 = true) := by
  induction rounds generalizing s with
  | zero => exact ⟨h,le_rfl,fun _ => hrn,fun _ => rfl⟩
  | succ rounds ih =>
    simp only [CDPHyperGraphSimplifier.applyUpTo]
    split
    case isTrue hle => exact ⟨h,le_rfl,fun _ => hle,fun _ => rfl⟩
    case isFalse hlt =>
      have hgrows := h.length_trail_le (o := o) fuel
      split
      case isTrue hres =>
        have hlen := h.length_applyStep hres
        obtain ⟨htd,htr,hre,hall⟩ := ih (h.applyStep (o := o) fuel) (by rw [hlen]; omega)
        exact ⟨htd,hgrows.trans htr,hre,fun hle => hall (hle.trans hgrows)⟩
      case isFalse hres =>
        refine ⟨h.applyStep fuel,hgrows,by simp,fun hle => ?_⟩
        exact (hres (h.applyStep_eq_true (by omega))).elim

theorem Traced.unapplyDownTo (count rounds : ℕ) (hrn : s.applied.length ≤ count + rounds)
    (hcnt : count ≤ s.applied.length) :
    let r := unapplyDownTo count rounds s
    Traced g₀ r ∧ r.trail = s.trail ∧ r.applied.length = count := by
  induction rounds generalizing s with
  | zero => exact ⟨h,rfl,by rw [CDPHyperGraphSimplifier.unapplyDownTo]; omega⟩
  | succ rounds ih =>
    simp only [CDPHyperGraphSimplifier.unapplyDownTo]
    split
    case isTrue hle => exact ⟨h,rfl,le_antisymm hle hcnt⟩
    case isFalse hlt =>
      cases hcons : s.applied with
      | nil =>
        rw [hcons] at hlt
        exact (hlt (Nat.zero_le _)).elim
      | cons step rest =>
        obtain ⟨htd,happ,htr⟩ := traced_unapplyStep h hcons
        rw [hcons,length_cons] at hrn hlt
        obtain ⟨htd',htr',hlen⟩ := ih htd (by rw [happ]; omega) (by rw [happ]; omega)
        exact ⟨htd',htr'.trans htr,hlen⟩

theorem Traced.applySteps (fuel count : ℕ) :
    let r := applySteps o fuel count s
    Traced g₀ r.2 ∧ s.trail.length ≤ r.2.trail.length ∧
      (r.1 = true → r.2.applied.length = count) ∧ (count ≤ s.trail.length → r.1 = true) := by
  obtain ⟨htd,htr,hre,hall⟩ := h.applyUpTo (o := o) fuel count (count - s.applied.length) (by omega)
  simp only [CDPHyperGraphSimplifier.applySteps]
  split
  case isTrue hup =>
    obtain ⟨htd',htr',hlen⟩ := htd.unapplyDownTo count
      ((CDPHyperGraphSimplifier.applyUpTo o fuel count (count - s.applied.length)
        s).2.applied.length - count) (by omega) (hre hup)
    exact ⟨htd',htr.trans (by rw [htr']),fun _ => hlen,fun _ => rfl⟩
  case isFalse hup => exact ⟨htd,htr,by simp,fun hle => (hup (hall hle)).elim⟩

theorem Traced.applySteps_zero (fuel : ℕ) :
    (CDPHyperGraphSimplifier.applySteps o fuel 0 s).2.applied = [] := by
  obtain ⟨_,_,hlen,hall⟩ := h.applySteps (o := o) fuel 0
  exact length_eq_zero_iff.mp (hlen (hall (Nat.zero_le _)))

end

/-! ## Whole runs -/

structure Fresh (g₀ : CDPHyperGraph) (s : CDPHyperGraphSimplifier κ) : Prop where
  ready : Ready g₀ (sides g₀) s
  graph : s.graph = g₀
  applied : s.applied = []
  unapplied : s.unapplied = []

theorem Fresh.extractDependency (h : Fresh g₀ s) (edge1 edge2 : ℕ) :
    Fresh g₀ (s.extractDependency edge1 edge2) := by
  have hor (before after : ℕ) : Fresh g₀ { s with order := (s.order.tryAdd before after).2 } :=
    ⟨⟨h.ready.safe.withOrder _,h.ready.flagged,h.ready.order.tryAdd,h.ready.sound⟩,h.graph,
      h.applied,h.unapplied⟩
  simp only [CDPHyperGraphSimplifier.extractDependency]
  split
  · exact hor edge1 edge2
  split
  · exact hor edge2 edge1
  · exact h

theorem Fresh.processLater (h : Fresh g₀ s) (edge1 first last : ℕ) :
    Fresh g₀ (s.processLater o edge1 first last) := by
  have hcore : OnlyEntry edge1 s (s.processLater o edge1 first last) :=
    onlyEntry_processLater s edge1 first last
  have hmake : Makes o (Starts g₀.logicalEdgeCount (sides g₀)) s := by
    intro j m step hlt hmade
    have hst := (makes_starts h.ready.safe j m step hlt hmade).1
    rw [h.graph] at hst
    exact hst
  refine ⟨⟨kept_safe.processLater h.ready.safe edge1 first last,
    kept_flagged.processLater h.ready.flagged edge1 first last,?_,?_⟩,
    hcore.graph.trans h.graph,hcore.applied.trans h.applied,hcore.unapplied.trans h.unapplied⟩
  · rw [hcore.order]
    exact h.ready.order
  · intro j
    by_cases hj : j = edge1
    · subst hj
      exact sound_processLater hmake j first last
    · exact (h.ready.sound j).only hcore hj

theorem fresh_new (hg : g₀.Adjacent) : Fresh g₀ (new o g₀) := by
  have hst : Fresh g₀ (⟨g₀,.new g₀.logicalEdgeCount,
      replicate g₀.logicalEdgeCount ⟨none,none,false⟩,[],[],[]⟩ : CDPHyperGraphSimplifier κ) := by
    refine ⟨⟨safe_start hg,nofun,CDPHyperOrderConstraints.wellFormed_new _,?_⟩,rfl,rfl,rfl⟩
    intro j hqu
    simp only [bestAt,getD_eq_getElem?_getD,List.getElem?_replicate] at hqu
    split at hqu
    · cases hqu
    · cases hqu
  rw [new,initFirstStep]
  refine foldlRecOn _ _ ?_ fun s hs edge _ => ?_
  · refine foldlRecOn _ _ hst fun s hs edge1 _ => ?_
    exact foldlRecOn _ _ hs fun s hs edge2 _ => hs.extractDependency edge1 edge2
  · -- an edge has no earlier edges to look at here
    have hnone : between (edge + 1) (min s.graph.logicalEdgeCount edge) = [] := by
      rw [between,show min s.graph.logicalEdgeCount edge - (edge + 1) = 0 by omega,range'_zero]
    rw [processNeighbors,hnone]
    exact hs.processLater edge _ _

theorem traced_new (hg : g₀.Adjacent) : Traced g₀ (new o g₀) := by
  obtain ⟨hrd,hgph,happ,hun⟩ := fresh_new (o := o) hg
  have htr : (new o g₀).trail = [] := by
    rw [trail,happ,hun]
    rfl
  refine ⟨?_,?_,?_⟩
  · rw [htr]
    trivial
  · rw [hgph,happ]
    rfl
  · rw [htr]
    exact hrd

theorem Run.traced (hg : g₀.Adjacent) (h : Run o g₀ s) : Traced g₀ s := by
  refine run_induct (traced_new hg) (fun s fuel _ ih => ih.applyStep fuel) (fun s _ ih => ?_) h
  cases hcons : s.applied with
  | nil =>
    simp only [CDPHyperGraphSimplifier.unapplyStep,hcons]
    exact ih
  | cons step rest => exact (traced_unapplyStep ih hcons).1

/-- The fuel of `FetchStep` does not matter once there is a unit for every edge and one more. -/
theorem Traced.applyStep_fuel (h : Traced g₀ s) (hfuel : g₀.logicalEdgeCount < fuel) :
    CDPHyperGraphSimplifier.applyStep o fuel s =
      CDPHyperGraphSimplifier.applyStep o (g₀.logicalEdgeCount + 1) s := by
  obtain ⟨extra,rfl⟩ := Nat.exists_eq_add_of_lt hfuel
  have hfe : fetchStep o (g₀.logicalEdgeCount + extra + 1) s =
      fetchStep o (g₀.logicalEdgeCount + 1) s := by
    simp only [fetchStep]
    split
    · rfl
    case h_2 hnil =>
      have hf : sides s.graph = replay (sides g₀) s.trail := by
        rw [trail,hnil,append_nil,h.sides_eq]
      induction extra with
      | zero => rfl
      | succ extra ih =>
        have hst := stale_card_le g₀.logicalEdgeCount s
        rw [← ih (by omega),← add_assoc]
        exact h.ready.fetchFromQueue_succ hf (by omega)
  simp only [CDPHyperGraphSimplifier.applyStep,hfe]

end CDPHyperGraphSimplifier

end PgOrca
