import PgOrca.DPHyper.SimplifierTrail

/-!
# Searching for the number of simplification steps

Taking steps back and applying them again restores the sides of all edges, but not the order in
which nodes list their edges, on which the enumerator depends. The chosen number is not retried.
-/

namespace PgOrca

namespace CDPHyperGraphSimplifier

open CDPHyperGraph

variable {κ : Type*}

def enumerationExceedsBudget (pairBudget : ℕ) (pairFilter : Option PairFilter)
    (graph : CDPHyperGraph) : Bool :=
  let probe := CDPHyperEnumerator.enumerate graph CDPHyperPlan.receiver
    (CDPHyperPlan.new pairBudget pairFilter)
  probe.1 || !probe.2.complete graph.nodeCount

section

variable (o : Oracles κ) (exceeds : CDPHyperGraph → Bool)

/-- The inner loop `while (applied < upper)`, with the rounds that are left. The flag is false when
no step was left to apply. -/
def applyRounds (fuel : ℕ) : ℕ → ℕ → CDPHyperGraphSimplifier κ →
    Bool × ℕ × CDPHyperGraphSimplifier κ
  | 0, applied, s => (true, applied, s)
  | rounds + 1, applied, s =>
    if (applyStep o fuel s).1 then applyRounds fuel rounds (applied + 1) (applyStep o fuel s).2
    else (false, applied, (applyStep o fuel s).2)

/-- The doubling loop, with a bound on its rounds. Without a number of steps `Simplify` gives up. -/
def double (fuel : ℕ) : ℕ → ℕ → ℕ → CDPHyperGraphSimplifier κ → Option ℕ × CDPHyperGraphSimplifier κ
  | 0, _, applied, s => (some applied, s)
  | rounds + 1, upper, applied, s =>
    let grown := applyRounds o fuel (upper - applied) applied s
    if grown.1 then
      if exceeds grown.2.2.graph then double fuel rounds (upper * 2) grown.2.1 grown.2.2
      else (some grown.2.1, grown.2.2)
    else if exceeds grown.2.2.graph then (none, (applySteps o fuel 0 grown.2.2).2)
    else (some grown.2.1, grown.2.2)

/-- The binary search, with a round for every candidate. -/
def search (fuel : ℕ) : ℕ → ℕ → ℕ → CDPHyperGraphSimplifier κ → ℕ × CDPHyperGraphSimplifier κ
  | 0, _, upper, s => (upper, s)
  | rounds + 1, lower, upper, s =>
    if lower < upper then
      let middle := lower + (upper - lower) / 2
      let moved := applySteps o fuel middle s
      if !moved.1 then search fuel rounds (middle + 1) upper moved.2
      else if !exceeds moved.2.graph then search fuel rounds lower middle moved.2
      else search fuel rounds (middle + 1) upper moved.2
    else (upper, s)

/-- No run of the simplifier applies more steps than this to a graph with `n` edges. -/
def stepBound (n : ℕ) : ℕ := n * n * (n + 1) + n

variable (s : CDPHyperGraphSimplifier κ)

/-- `Simplify`. The fuel for `FetchStep` and for the doubling loop is enough by
`Traced.applyStep_fuel` and `doubleWithin_eq`. -/
def simplify : Bool × CDPHyperGraphSimplifier κ :=
  let fuel := s.graph.logicalEdgeCount + 1
  match double o exceeds fuel (stepBound s.graph.logicalEdgeCount + 1) 1 0 s with
  | (none, s') => (false, s')
  | (some applied, s') =>
    let found := search o exceeds fuel (applied + 1) 0 (applied + 1) s'
    let final := applySteps o fuel found.1 found.2
    if final.1 then (decide (0 < final.2.applied.length), final.2)
    else (false, (applySteps o fuel 0 final.2).2)

def restore : CDPHyperGraphSimplifier κ :=
  (applySteps o (s.graph.logicalEdgeCount + 1) 0 s).2

end

variable {o : Oracles κ} {exceeds : CDPHyperGraph → Bool} {g₀ : CDPHyperGraph}
  {s : CDPHyperGraphSimplifier κ}

/-! ## The doubling loop -/

theorem applyRounds_spec (hg : g₀.Adjacent) (fuel rounds applied : ℕ) (h : Run o g₀ s)
    (hnil : s.unapplied = []) (hlen : s.applied.length = applied) :
    let r := applyRounds o fuel rounds applied s
    Run o g₀ r.2.2 ∧ r.2.2.unapplied = [] ∧ r.2.2.applied.length = r.2.1 ∧
      (r.1 = true → r.2.1 = applied + rounds ∧
        remaining g₀.logicalEdgeCount r.2.2 + rounds ≤ remaining g₀.logicalEdgeCount s) := by
  induction rounds generalizing s applied with
  | zero => exact ⟨h,hnil,hlen,fun _ => ⟨rfl,le_rfl⟩⟩
  | succ rounds ih =>
    obtain ⟨htrue,hff⟩ := (h.traced hg).applyStep_fresh (o := o) hnil fuel
    simp only [applyRounds]
    split
    case isTrue hres =>
      have happ := htrue hres
      obtain ⟨_,hnil',hless⟩ := happ.trail.resolve_left fun hne => hne.1 hnil
      obtain ⟨hrun,hun,hcnt,hall⟩ := ih (applied + 1) (h.applyStep fuel) hnil'
        (by rw [happ.length,hlen])
      refine ⟨hrun,hun,hcnt,fun hr => ?_⟩
      obtain ⟨hsum,hle⟩ := hall hr
      exact ⟨by omega,by omega⟩
    case isFalse hres =>
      obtain ⟨_,happlied,huna⟩ := hff (Bool.eq_false_iff.mpr hres)
      exact ⟨h.applyStep fuel,huna.trans hnil,by rw [happlied]; exact hlen,nofun⟩

/-! ## The graph that is left -/

/-- `Restore` brings every edge back to its sides, whatever steps were taken. -/
theorem sides_restore (hg : g₀.Adjacent) (h : Run o g₀ s) :
    sides (restore o s).graph = sides g₀ := by
  have ht := h.traced hg
  exact (ht.applySteps _ 0).1.sides_of_applied_nil (ht.applySteps_zero _)

/-- Whatever steps were taken, the enumeration of the simplified graph sees only sets that the
original graph can construct and records only pairs that it connects. -/
theorem simplified_plan_connected {n : ℕ} {g₀ : CDPHyperGraph} (hg : Built n g₀) {o : Oracles κ}
    {s : CDPHyperGraphSimplifier κ} (h : Run o g₀ s) (budget : ℕ) (filter : Option PairFilter) :
    let plan := (CDPHyperEnumerator.enumerate s.graph CDPHyperPlan.receiver (.new budget filter)).2
    (∀ t ∈ plan.seen, Constructible g₀.Joins t) ∧
      ∀ pair ∈ plan.pairs, ConnectedPair g₀.Joins pair.left pair.right := by
  have hs := h.safe hg.adjacent.1
  have hsh := hs.shrinks hg.adjacent.1
  obtain ⟨hseen,hpairs⟩ := CDPHyperEnumerator.enumerate_preserves hs.adjacent
    (CDPHyperPlan.preserved_connected hs.adjacent) (s := .new budget filter) ⟨nofun,nofun⟩
  exact ⟨fun t ht => (hseen t ht).mono hsh,
    fun pair hpair => (hpairs _ (List.mem_map_of_mem hpair)).mono hsh⟩

/-! ## A chain -/

namespace Chain

def graph : CDPHyperGraph := ofEdges 3 [⟨{0}, {1}, 0⟩, ⟨{1}, {2}, 1⟩]

theorem built : Built 3 graph := built_ofEdges (by decide)

/-- A join costs as much as its right side has nodes. -/
def oracles : Oracles ℕ := { flatOracles with joinCost := fun _ right => some right.card }

theorem simplified_plan_chain : ConnectedPair graph.Joins {0, 1} {2} :=
  (simplified_plan_connected built (.applyStep (o := oracles) 3 .new) 2 none).2 ⟨{0, 1},{2},[1]⟩
    (by decide +kernel)

end Chain

end CDPHyperGraphSimplifier

end PgOrca
