import PgOrca.DPHyper.Simplify

/-!
# Simplification ends

The loops are written here as the source has them, with no bound known in advance. A fresh step
widens one edge, and a refused one takes an entry out of the queue that will not come back.
-/

namespace PgOrca

open List Option

namespace CDPHyperGraphSimplifier

open CDPHyperGraph

variable {κ : Type*} {step : SSimplificationStep κ} {st : ℕ × ℕ × CDPHyperGraphSimplifier κ × ℕ}

section

variable (o : Oracles κ) (exceeds : CDPHyperGraph → Bool)

/-- One earlier edge in the first half of `ProcessNeighbors`, which calls `again` where the best
neighbour of that edge has to be found anew. -/
def processEarlierBy (again : CDPHyperGraphSimplifier κ → ℕ → ℕ → ℕ →
    Option (CDPHyperGraphSimplifier κ)) (edge1 : ℕ) (s : CDPHyperGraphSimplifier κ) (edge2 : ℕ) :
    Option (CDPHyperGraphSimplifier κ) :=
  let tried := s.tryPair o edge1 edge2 edge2 edge1
  if tried.1 then some tried.2
  else if (tried.2.bestAt edge2).bestNeighbor = some edge1 then
    again tried.2 edge2 (edge2 + 1) tried.2.graph.logicalEdgeCount
  else some tried.2

/-- `ProcessNeighbors`, which calls itself at most `depth` levels deep. -/
def processNeighborsWithin : ℕ → CDPHyperGraphSimplifier κ → ℕ → ℕ → ℕ →
    Option (CDPHyperGraphSimplifier κ)
  | 0, _, _, _, _ => none
  | depth + 1, s, edge1, first, last =>
    ((between first (min last edge1)).foldlM
      (processEarlierBy o (processNeighborsWithin depth) edge1) s).map
      fun s' => s'.processLater o edge1 first last

variable (fuel : ℕ) (s : CDPHyperGraphSimplifier κ)

def fetchRound :
    Option (CDPHyperGraphSimplifier κ ⊕ Option (SSimplificationStep κ) × CDPHyperGraphSimplifier κ) :=
  match o.top (s.queue.map fun i => (i, (s.bestAt i).step.map (·.benefit))) with
  | none => some (.inr (none, s))
  | some i =>
    match (s.bestAt i).bestNeighbor, (s.bestAt i).step with
    | some _, some step =>
      let added := (s.pop i).order.tryAdd step.before step.after
      if added.1 then some (.inr (some step, { s.pop i with order := added.2 }))
      else
        (processNeighborsWithin o fuel (s.pop i) step.after 0
          (s.pop i).graph.logicalEdgeCount).map .inl
    | _, _ => some (.inl (s.pop i))

def fetchStepWithin : Option (Option (SSimplificationStep κ) × CDPHyperGraphSimplifier κ) :=
  match s.unapplied with
  | step :: rest => some (some step, { s with unapplied := rest })
  | [] => loopWithin (fetchRound o fuel) fuel s

def applyStepWithin : Option (Bool × CDPHyperGraphSimplifier κ) :=
  let fresh := s.unapplied.isEmpty
  match fetchStepWithin o fuel s with
  | none => none
  | some (none, s') => some (false, s')
  | some (some step, s') =>
    let modified := { s'.modifyEdge step true with applied := step :: s'.applied }
    if fresh then
      (processNeighborsWithin o fuel modified step.after 0 modified.graph.logicalEdgeCount).map
        fun s'' => (true, s'')
    else some (true, modified)

/-! From here on a state comes with the number of calls of `ApplyStep` so far. -/

def applyUpToWithin (fuel count : ℕ) (start : CDPHyperGraphSimplifier κ × ℕ) :
    Option (Bool × CDPHyperGraphSimplifier κ × ℕ) :=
  loopWithin (fun st =>
    if count ≤ st.1.applied.length then some (.inr (true, st))
    else (applyStepWithin o fuel st.1).map fun r =>
      if r.1 then .inl (r.2, st.2 + 1) else .inr (false, r.2, st.2 + 1)) fuel start

def unapplyDownToWithin (fuel count : ℕ) (s : CDPHyperGraphSimplifier κ) :
    Option (CDPHyperGraphSimplifier κ) :=
  loopWithin (fun s =>
    if s.applied.length ≤ count then some (.inr s) else some (.inl (unapplyStep s).2)) fuel s

def applyStepsWithin (fuel count : ℕ) (start : CDPHyperGraphSimplifier κ × ℕ) :
    Option (Bool × CDPHyperGraphSimplifier κ × ℕ) :=
  (applyUpToWithin o fuel count start).bind fun up =>
    if up.1 then
      (unapplyDownToWithin fuel count up.2.1).map fun s => (true, s, up.2.2)
    else some up

def applyRoundsWithin (fuel upper : ℕ) (start : ℕ × CDPHyperGraphSimplifier κ × ℕ) :
    Option (Bool × ℕ × CDPHyperGraphSimplifier κ × ℕ) :=
  loopWithin (fun st =>
    if st.1 < upper then
      (applyStepWithin o fuel st.2.1).map fun r =>
        if r.1 then .inl (st.1 + 1, r.2, st.2.2 + 1) else .inr (false, st.1, r.2, st.2.2 + 1)
    else some (.inr (true, st))) fuel start

variable (start : ℕ × ℕ × CDPHyperGraphSimplifier κ × ℕ)

/-- The doubling loop of `Simplify`, with `upper` and `applied` in its state. -/
def doubleWithin : Option (Option ℕ × CDPHyperGraphSimplifier κ × ℕ) :=
  loopWithin (fun st =>
    (applyRoundsWithin o fuel st.1 st.2).bind fun grown =>
      if grown.1 then
        if exceeds grown.2.2.1.graph then some (.inl (st.1 * 2, grown.2))
        else some (.inr (some grown.2.1, grown.2.2))
      else if exceeds grown.2.2.1.graph then
        (applyStepsWithin o fuel 0 grown.2.2).map fun back => .inr (none, back.2)
      else some (.inr (some grown.2.1, grown.2.2))) fuel start

/-- The binary search of `Simplify`, with `lower` and `upper` in its state. -/
def searchWithin : Option (ℕ × CDPHyperGraphSimplifier κ × ℕ) :=
  loopWithin (fun st =>
    if st.1 < st.2.1 then
      let middle := st.1 + (st.2.1 - st.1) / 2
      (applyStepsWithin o fuel middle st.2.2).map fun moved =>
        if !moved.1 then .inl (middle + 1, st.2.1, moved.2)
        else if !exceeds moved.2.1.graph then .inl (st.1, middle, moved.2)
        else .inl (middle + 1, st.2.1, moved.2)
    else some (.inr st.2)) fuel start

/-- `Simplify`, with the number of its calls of `ApplyStep`. -/
def simplifyWithin : Option (Bool × CDPHyperGraphSimplifier κ × ℕ) :=
  (doubleWithin o exceeds fuel (1, 0, s, 0)).bind fun doubled =>
    match doubled.1 with
    | none => some (false, doubled.2)
    | some applied =>
      (searchWithin o exceeds fuel (0, applied + 1, doubled.2)).bind fun found =>
        (applyStepsWithin o fuel found.1 found.2).bind fun final =>
          if final.1 then some (decide (0 < final.2.1.applied.length), final.2)
          else (applyStepsWithin o fuel 0 final.2).map fun back => (false, back.2)

end

variable {o : Oracles κ} {exceeds : CDPHyperGraph → Bool} {g₀ : CDPHyperGraph}
  {s : CDPHyperGraphSimplifier κ} {fuel : ℕ}

/-! ## The recursion of `ProcessNeighbors` -/

theorem between_eq_nil {first last : ℕ} (h : last ≤ first) : between first last = [] := by
  rw [between,Nat.sub_eq_zero_of_le h,range'_zero]

theorem processNeighborsWithin_later (depth : ℕ) (s : CDPHyperGraphSimplifier κ) (edge last : ℕ) :
    processNeighborsWithin o (depth + 1) s edge (edge + 1) last =
      some (s.processLater o edge (edge + 1) last) := by
  have hnone : between (edge + 1) (min last edge) = [] := between_eq_nil (by omega)
  rw [processNeighborsWithin,hnone]
  rfl

theorem processEarlierBy_later (depth edge1 : ℕ) (s : CDPHyperGraphSimplifier κ) (edge2 : ℕ) :
    processEarlierBy o (processNeighborsWithin o (depth + 1)) edge1 s edge2 =
      some (processEarlier o edge1 s edge2) := by
  simp only [processEarlierBy,processEarlier,processNeighborsWithin_later]
  split
  · rfl
  · split
    · rfl
    · rfl

theorem processNeighborsWithin_eq (depth : ℕ) (s : CDPHyperGraphSimplifier κ)
    (edge1 first last : ℕ) :
    processNeighborsWithin o (depth + 2) s edge1 first last =
      some (s.processNeighbors o edge1 first last) := by
  have hfold (l : List ℕ) (s : CDPHyperGraphSimplifier κ) :
      l.foldlM (processEarlierBy o (processNeighborsWithin o (depth + 1)) edge1) s =
        some (l.foldl (processEarlier o edge1) s) := by
    induction l generalizing s with
    | nil => rfl
    | cons edge2 l ih =>
      rw [foldlM_cons,foldl_cons,processEarlierBy_later]
      exact ih (processEarlier o edge1 s edge2)
  rw [processNeighborsWithin,hfold]
  rfl

/-! ## `FetchStep` and `ApplyStep` -/

theorem fetchRound_step (hfuel : 2 ≤ fuel) {i m : ℕ} (hi : s.top o = some i)
    (hm : (s.bestAt i).bestNeighbor = some m) (hstep : (s.bestAt i).step = some step) :
    fetchRound o fuel s =
      if (s.order.tryAdd step.before step.after).1 then some (.inr (some step, fetched s i step))
      else some (.inl (discarded o s i step)) := by
  obtain ⟨depth,rfl⟩ := Nat.exists_eq_add_of_le' hfuel
  simp only [fetchRound,hi,hm,hstep,processNeighborsWithin_eq,map_some]
  rfl

/-- The loop of `FetchStep` ends: a refused step leaves one stale entry less. -/
theorem loopWithin_fetchRound {f : ℕ → Finset ℕ × Finset ℕ} (h : Ready g₀ f s)
    (hf : sides s.graph = f) (hfuel : g₀.logicalEdgeCount + 1 < fuel) :
    loopWithin (fetchRound o fuel) fuel s =
      some (fetchFromQueue o (g₀.logicalEdgeCount + 1) s) := by
  have hstl := stale_card_le g₀.logicalEdgeCount s
  have hdepth : 2 ≤ fuel := by omega
  obtain ⟨r,hr,hq⟩ : ∃ r, loopWithin (fetchRound o fuel) fuel s = some r ∧
      ∀ k, (stale g₀.logicalEdgeCount s).card < k → r = fetchFromQueue o k s := by
    refine loopWithin_ends (fun s => Ready g₀ f s ∧ sides s.graph = f)
      (fun s => (stale g₀.logicalEdgeCount s).card)
      (fun s r => ∀ k, (stale g₀.logicalEdgeCount s).card < k → r = fetchFromQueue o k s) ?_
      ⟨h,hf⟩ (by omega)
    rintro s ⟨h,hf⟩
    cases hi : s.top o with
    | none =>
      refine .inl ⟨(none, s),by simp only [fetchRound,hi],fun k hk => ?_⟩
      obtain ⟨k,rfl⟩ := Nat.exists_eq_add_of_lt hk
      rw [fetchFromQueue_empty _ hi]
    | some i =>
      obtain ⟨hqu,m,step,hm,hstep,hst⟩ := h.top hi
      have hrn := fetchRound_step (o := o) hdepth hi hm hstep
      by_cases hadd : (s.order.tryAdd step.before step.after).1 = true
      · rw [if_pos hadd] at hrn
        refine .inl ⟨_,hrn,fun k hk => ?_⟩
        obtain ⟨k,rfl⟩ := Nat.exists_eq_add_of_lt hk
        rw [fetchFromQueue_step _ hi hm hstep,if_pos hadd]
      · rw [if_neg hadd] at hrn
        obtain ⟨hrd,hless⟩ := h.discard (o := o) hf hqu hstep hst (Bool.eq_false_iff.mpr hadd)
        have hcore := sameCore_discarded (o := o) s i step
        refine .inr ⟨_,hrn,⟨hrd,by rw [hcore.graph]; exact hf⟩,hless,?_⟩
        intro r hr k hk
        obtain ⟨k,rfl⟩ := Nat.exists_eq_add_of_lt hk
        rw [fetchFromQueue_step _ hi hm hstep,if_neg hadd]
        exact hr _ (by omega)
  rw [hr,hq (g₀.logicalEdgeCount + 1) (by omega)]

theorem applyStepWithin_eq (h : Traced g₀ s) (hfuel : g₀.logicalEdgeCount + 1 < fuel) :
    applyStepWithin o fuel s = some (applyStep o (g₀.logicalEdgeCount + 1) s) := by
  have hfe : fetchStepWithin o fuel s = some (fetchStep o (g₀.logicalEdgeCount + 1) s) := by
    cases hcons : s.unapplied with
    | cons step rest => simp only [fetchStepWithin,fetchStep,hcons]
    | nil =>
      have hf : sides s.graph = replay (sides g₀) s.trail := by
        rw [trail,hcons,append_nil,h.sides_eq]
      simp only [fetchStepWithin,fetchStep,hcons]
      exact loopWithin_fetchRound h.ready hf hfuel
  obtain ⟨depth,rfl⟩ : ∃ depth, fuel = depth + 2 := ⟨fuel - 2,by omega⟩
  simp only [applyStepWithin,applyStep,hfe]
  generalize fetchStep o (g₀.logicalEdgeCount + 1) s = fetched
  obtain ⟨result,s'⟩ := fetched
  cases result with
  | none => rfl
  | some step =>
    simp only [processNeighborsWithin_eq,map_some]
    split
    · rfl
    · rfl

/-! ## The loops of `ApplySteps` and `Simplify` -/

theorem Traced.length_applyStep_le (h : Traced g₀ s) (fuel : ℕ) :
    (CDPHyperGraphSimplifier.applyStep o fuel s).2.applied.length ≤ s.applied.length + 1 := by
  rcases h.applyStep_cases (o := o) fuel with ⟨_,happ⟩ | ⟨_,_,happlied,_⟩
  · exact happ.length.le
  · rw [happlied]
    exact Nat.le_succ _

theorem Traced.length_applyUpTo_le (h : Traced g₀ s) (fuel count rounds : ℕ) :
    (CDPHyperGraphSimplifier.applyUpTo o fuel count rounds s).2.applied.length ≤
      max count s.applied.length := by
  induction rounds generalizing s with
  | zero => exact le_max_right _ _
  | succ rounds ih =>
    have hle := h.length_applyStep_le (o := o) fuel
    simp only [CDPHyperGraphSimplifier.applyUpTo]
    split
    · exact le_max_right _ _
    split
    · have hnext := ih (h.applyStep (o := o) fuel)
      omega
    · simp only
      omega

theorem Traced.length_applySteps_le (h : Traced g₀ s) (fuel count : ℕ) :
    (CDPHyperGraphSimplifier.applySteps o fuel count s).2.applied.length ≤
      max count s.applied.length := by
  obtain ⟨_,_,hlen,_⟩ := h.applySteps (o := o) fuel count
  cases hres : (CDPHyperGraphSimplifier.applySteps o fuel count s).1 with
  | true =>
    rw [hlen hres]
    exact le_max_left _ _
  | false =>
    have hle := h.length_applyUpTo_le (o := o) fuel count (count - s.applied.length)
    simp only [CDPHyperGraphSimplifier.applySteps] at hres ⊢
    split at hres
    · cases hres
    · rename_i hff
      rw [if_neg hff]
      exact hle

theorem applyUpToWithin_eq (hg : g₀.Adjacent) (st : CDPHyperGraphSimplifier κ × ℕ)
    (h : Run o g₀ st.1) {count : ℕ} (hfuel : g₀.logicalEdgeCount + 1 < fuel) (hcnt : count < fuel) :
    ∃ r, applyUpToWithin o fuel count st = some r ∧ (r.1, r.2.1) =
      applyUpTo o (g₀.logicalEdgeCount + 1) count (count - st.1.applied.length) st.1 := by
  refine loopWithin_ends (fun st : CDPHyperGraphSimplifier κ × ℕ => Run o g₀ st.1)
    (fun st => count - st.1.applied.length)
    (fun st (r : Bool × CDPHyperGraphSimplifier κ × ℕ) => (r.1, r.2.1) =
      applyUpTo o (g₀.logicalEdgeCount + 1) count (count - st.1.applied.length) st.1) ?_ h (by omega)
  rintro ⟨s,calls⟩ h
  by_cases hle : count ≤ s.applied.length
  · refine .inl ⟨_,if_pos hle,?_⟩
    simp only [Nat.sub_eq_zero_of_le hle,applyUpTo]
  obtain ⟨k,hk⟩ : ∃ k, count - s.applied.length = k + 1 := ⟨count - s.applied.length - 1,by omega⟩
  simp only [if_neg hle,applyStepWithin_eq (o := o) (h.traced hg) hfuel,map_some,hk,applyUpTo]
  split
  case isTrue htrue =>
    have hlen := (h.traced hg).length_applyStep htrue
    refine .inr ⟨_,rfl,h.applyStep _,?_,fun r hr => ?_⟩
    · simp only [hlen]
      omega
    · simpa only [hlen,show count - (s.applied.length + 1) = k by omega] using hr
  case isFalse => exact .inl ⟨_,rfl,rfl⟩

theorem unapplyDownToWithin_eq (count : ℕ) (hfuel : s.applied.length < fuel) :
    unapplyDownToWithin fuel count s =
      some (unapplyDownTo count (s.applied.length - count) s) := by
  obtain ⟨r,hr,hq⟩ : ∃ r, unapplyDownToWithin fuel count s = some r ∧
      r = unapplyDownTo count (s.applied.length - count) s := by
    refine loopWithin_ends (fun _ : CDPHyperGraphSimplifier κ => True)
      (fun s => s.applied.length - count)
      (fun s r => r = unapplyDownTo count (s.applied.length - count) s) ?_ trivial (by omega)
    intro s _
    by_cases hle : s.applied.length ≤ count
    · refine .inl ⟨s,if_pos hle,?_⟩
      rw [Nat.sub_eq_zero_of_le hle,unapplyDownTo]
    · cases hcons : s.applied with
      | nil =>
        rw [hcons] at hle
        exact (hle (Nat.zero_le _)).elim
      | cons step rest =>
        have hlen : (unapplyStep s).2.applied.length = rest.length := by
          simp only [unapplyStep,hcons,modifyEdge]
        rw [hcons,length_cons] at hle
        refine .inr ⟨(unapplyStep s).2,?_,trivial,?_,fun r hr => ?_⟩
        · rw [length_cons,if_neg hle]
        · rw [hlen,length_cons]
          omega
        · rw [length_cons,show rest.length + 1 - count = rest.length - count + 1 by omega,
            unapplyDownTo,hcons,length_cons,if_neg hle,← hlen]
          exact hr
  rw [hr,hq]

theorem applyStepsWithin_eq (hg : g₀.Adjacent) (st : CDPHyperGraphSimplifier κ × ℕ)
    (h : Run o g₀ st.1) (count : ℕ) (hfuel : g₀.logicalEdgeCount + 1 < fuel) (hcnt : count < fuel)
    (hlen : st.1.applied.length < fuel) :
    ∃ r, applyStepsWithin o fuel count st = some r ∧
      (r.1, r.2.1) = applySteps o (g₀.logicalEdgeCount + 1) count st.1 := by
  obtain ⟨⟨flag,s',calls⟩,hup,heq⟩ := applyUpToWithin_eq hg st h hfuel hcnt
  have hle := (h.traced hg).length_applyUpTo_le (o := o) (g₀.logicalEdgeCount + 1) count
    (count - st.1.applied.length)
  simp only [applyStepsWithin,hup,bind_some,applySteps,← heq] at hle ⊢
  cases flag with
  | true =>
    simp only [if_true,unapplyDownToWithin_eq count (show s'.applied.length < fuel by omega),
      map_some]
    exact ⟨_,rfl,rfl⟩
  | false => exact ⟨_,rfl,rfl⟩

theorem applyRoundsWithin_eq (hg : g₀.Adjacent) (st : ℕ × CDPHyperGraphSimplifier κ × ℕ)
    (h : Run o g₀ st.2.1) {upper : ℕ} (hfuel : g₀.logicalEdgeCount + 1 < fuel)
    (hup : upper < fuel) :
    ∃ r, applyRoundsWithin o fuel upper st = some r ∧ (r.1, r.2.1, r.2.2.1) =
      applyRounds o (g₀.logicalEdgeCount + 1) (upper - st.1) st.1 st.2.1 := by
  refine loopWithin_ends (fun st : ℕ × CDPHyperGraphSimplifier κ × ℕ => Run o g₀ st.2.1)
    (fun st => upper - st.1)
    (fun st (r : Bool × ℕ × CDPHyperGraphSimplifier κ × ℕ) => (r.1, r.2.1, r.2.2.1) =
      applyRounds o (g₀.logicalEdgeCount + 1) (upper - st.1) st.1 st.2.1) ?_ h (by omega)
  rintro ⟨applied,s,calls⟩ h
  by_cases hlt : applied < upper
  · obtain ⟨k,hk⟩ : ∃ k, upper - applied = k + 1 := ⟨upper - applied - 1,by omega⟩
    simp only [if_pos hlt,applyStepWithin_eq (o := o) (h.traced hg) hfuel,map_some,hk,applyRounds]
    split
    case isTrue htrue =>
      refine .inr ⟨_,rfl,h.applyStep _,by simp only; omega,fun r hr => ?_⟩
      simpa only [show upper - (applied + 1) = k by omega] using hr
    case isFalse => exact .inl ⟨_,rfl,rfl⟩
  · refine .inl ⟨_,if_neg hlt,?_⟩
    simp only [Nat.sub_eq_zero_of_le (not_lt.mp hlt),applyRounds]

/-- The doubling loop has taken no step back, and `upper` is at most one past twice the steps. -/
structure Doubling (o : Oracles κ) (g₀ : CDPHyperGraph)
    (st : ℕ × ℕ × CDPHyperGraphSimplifier κ × ℕ) : Prop where
  run : Run o g₀ st.2.2.1
  unapplied : st.2.2.1.unapplied = []
  length : st.2.2.1.applied.length = st.2.1
  lt : st.2.1 < st.1
  le : st.1 ≤ 2 * st.2.1 + 1
  steps : st.2.1 + remaining g₀.logicalEdgeCount st.2.2.1 ≤ stepBound g₀.logicalEdgeCount

/-- What the doubling loop hands to the rest of `Simplify`. -/
structure Doubled (o : Oracles κ) (g₀ : CDPHyperGraph)
    (r : Option ℕ × CDPHyperGraphSimplifier κ × ℕ) : Prop where
  run : Run o g₀ r.2.1
  length : ∀ last, r.1 = some last → r.2.1.applied.length = last ∧
    last ≤ stepBound g₀.logicalEdgeCount

theorem applyRounds_applied_le (hg : g₀.Adjacent) (fuel rounds applied : ℕ) (h : Run o g₀ s)
    (hnil : s.unapplied = []) :
    (applyRounds o fuel rounds applied s).2.1 ≤ applied + remaining g₀.logicalEdgeCount s := by
  induction rounds generalizing s applied with
  | zero => exact Nat.le_add_right _ _
  | succ rounds ih =>
    simp only [applyRounds]
    split
    case isTrue hres =>
      have happ := ((h.traced hg).applyStep_fresh (o := o) hnil fuel).1 hres
      obtain ⟨_,hnil',hless⟩ := happ.trail.resolve_left fun hne => hne.1 hnil
      have hnext := ih (applied + 1) (h.applyStep fuel) hnil'
      omega
    case isFalse => exact Nat.le_add_right _ _

variable (exceeds) in
theorem double_of_pos (fuel upper applied : ℕ) (s : CDPHyperGraphSimplifier κ) {rounds : ℕ}
    (hrn : 0 < rounds) :
    double o exceeds fuel rounds upper applied s =
      let grown := applyRounds o fuel (upper - applied) applied s
      if grown.1 then
        if exceeds grown.2.2.graph then
          double o exceeds fuel (rounds - 1) (upper * 2) grown.2.1 grown.2.2
        else (some grown.2.1, grown.2.2)
      else if exceeds grown.2.2.graph then (none, (applySteps o fuel 0 grown.2.2).2)
      else (some grown.2.1, grown.2.2) := by
  obtain ⟨rounds,rfl⟩ := Nat.exists_eq_succ_of_ne_zero hrn.ne'
  rfl

variable (exceeds) in
theorem doubleWithin_eq (hg : g₀.Adjacent) (h : Doubling o g₀ st)
    (hfuel : 2 * stepBound g₀.logicalEdgeCount + g₀.logicalEdgeCount + 3 ≤ fuel) :
    ∃ r, doubleWithin o exceeds fuel st = some r ∧ Doubled o g₀ r ∧
      ∀ rounds, remaining g₀.logicalEdgeCount st.2.2.1 < rounds →
        (r.1, r.2.1) =
          double o exceeds (g₀.logicalEdgeCount + 1) rounds st.1 st.2.1 st.2.2.1 := by
  have hst := h.steps
  refine loopWithin_ends (Doubling o g₀) (fun st => remaining g₀.logicalEdgeCount st.2.2.1)
    (fun st r => Doubled o g₀ r ∧ ∀ rounds, remaining g₀.logicalEdgeCount st.2.2.1 < rounds →
      (r.1, r.2.1) =
        double o exceeds (g₀.logicalEdgeCount + 1) rounds st.1 st.2.1 st.2.2.1) ?_ h (by omega)
  rintro ⟨upper,applied,s,calls⟩ ⟨hrun,hnil,hlen,hlt,hle,hsteps⟩
  simp only at hrun hnil hlen hlt hle hsteps
  have hes : g₀.logicalEdgeCount + 1 < fuel := by omega
  have hup : upper < fuel := by omega
  obtain ⟨⟨flag,applied',s',calls'⟩,hgr,heq⟩ :=
    applyRoundsWithin_eq hg (applied, s, calls) hrun hes hup
  obtain ⟨hrun',hnil',hlen',hall⟩ :=
    applyRounds_spec hg (g₀.logicalEdgeCount + 1) (upper - applied) applied hrun hnil hlen
  have hbd := applyRounds_applied_le hg (g₀.logicalEdgeCount + 1) (upper - applied) applied hrun
    hnil
  simp only [hgr,bind_some]
  -- what the plain loop does in the same round
  have hpl (rounds : ℕ) (hrn : remaining g₀.logicalEdgeCount s < rounds) :=
    double_of_pos (o := o) exceeds (g₀.logicalEdgeCount + 1) upper applied s (Nat.zero_lt_of_lt hrn)
  simp only [← heq] at hrun' hnil' hlen' hall hbd hpl
  cases flag with
  | true =>
    obtain ⟨hsum,hless⟩ := hall rfl
    simp only [if_true]
    cases hex : exceeds s'.graph with
    | true =>
      refine .inr ⟨_,rfl,⟨hrun',hnil',hlen',?_,?_,?_⟩,?_,fun r hr => ⟨hr.1,?_⟩⟩
      · simp only
        omega
      · simp only
        omega
      · simp only
        omega
      · simp only
        omega
      · intro rounds hrn
        rw [hpl rounds hrn]
        simp only [if_true,hex]
        exact hr.2 (rounds - 1) (by simp only; omega)
    | false =>
      refine .inl ⟨_,rfl,⟨hrun',?_⟩,?_⟩
      · rintro last hlast
        cases hlast
        exact ⟨hlen',by omega⟩
      · intro rounds hrn
        rw [hpl rounds hrn]
        simp only [if_true,hex,Bool.false_eq_true,if_false]
  | false =>
    simp only [Bool.false_eq_true,if_false]
    cases hex : exceeds s'.graph with
    | true =>
      obtain ⟨back,hback,heq⟩ := applyStepsWithin_eq hg (s', calls') hrun' 0 hes
        (by omega) (by simp only; omega)
      have hrun'' := hrun'.applySteps (g₀.logicalEdgeCount + 1) 0
      simp only [if_true,hback,map_some]
      refine .inl ⟨_,rfl,⟨by rwa [← heq] at hrun'',nofun⟩,fun rounds hrn => ?_⟩
      rw [hpl rounds hrn]
      simp only [Bool.false_eq_true,if_false,hex,if_true,← heq]
    | false =>
      refine .inl ⟨_,rfl,⟨hrun',?_⟩,?_⟩
      · rintro last hlast
        cases hlast
        exact ⟨hlen',by omega⟩
      · intro rounds hrn
        rw [hpl rounds hrn]
        simp only [Bool.false_eq_true,if_false,hex]

/-- The binary search stays between no step and the steps of the doubling loop. -/
structure Searching (o : Oracles κ) (g₀ : CDPHyperGraph) (last : ℕ)
    (st : ℕ × ℕ × CDPHyperGraphSimplifier κ × ℕ) : Prop where
  run : Run o g₀ st.2.2.1
  trail : last ≤ st.2.2.1.trail.length
  length : st.2.2.1.applied.length ≤ last
  upper_le : st.2.1 ≤ last + 1

variable (exceeds) in
theorem searchWithin_eq (hg : g₀.Adjacent) {last : ℕ} (h : Searching o g₀ last st)
    (hes : g₀.logicalEdgeCount + 1 < fuel) (hfuel : last + 1 < fuel) :
    ∃ r, searchWithin o exceeds fuel st = some r ∧
      (Run o g₀ r.2.1 ∧ r.2.1.applied.length ≤ last ∧ r.1 ≤ last + 1) ∧
      ∀ rounds, st.2.1 ≤ st.1 + rounds →
        (r.1, r.2.1) =
          search o exceeds (g₀.logicalEdgeCount + 1) rounds st.1 st.2.1 st.2.2.1 := by
  have hst := h.upper_le
  refine loopWithin_ends (Searching o g₀ last) (fun st => st.2.1 - st.1)
    (fun st (r : ℕ × CDPHyperGraphSimplifier κ × ℕ) =>
      (Run o g₀ r.2.1 ∧ r.2.1.applied.length ≤ last ∧ r.1 ≤ last + 1) ∧
      ∀ rounds, st.2.1 ≤ st.1 + rounds → (r.1, r.2.1) =
        search o exceeds (g₀.logicalEdgeCount + 1) rounds st.1 st.2.1 st.2.2.1) ?_ h (by omega)
  rintro ⟨lower,upper,s,calls⟩ ⟨hrun,htr,hlen,hup⟩
  simp only at hrun htr hlen hup
  by_cases hlt : lower < upper
  · have hmid : lower + (upper - lower) / 2 < upper := by omega
    obtain ⟨⟨flag,s',calls'⟩,hmv,heq⟩ := applyStepsWithin_eq hg (s, calls) hrun
      (lower + (upper - lower) / 2) hes (by omega) (by simp only; omega)
    obtain ⟨_,htr',hlen',hall⟩ := (hrun.traced hg).applySteps (o := o)
      (g₀.logicalEdgeCount + 1) (lower + (upper - lower) / 2)
    have hrun' := hrun.applySteps (g₀.logicalEdgeCount + 1) (lower + (upper - lower) / 2)
    simp only [← heq] at htr' hlen' hall hrun'
    obtain rfl := hall (by omega)
    have hpr := hlen' rfl
    -- what the plain search does in the same round
    have hpl (rounds : ℕ) (hrn : upper ≤ lower + rounds) :
        search o exceeds (g₀.logicalEdgeCount + 1) rounds lower upper s =
          search o exceeds (g₀.logicalEdgeCount + 1) (rounds - 1 + 1) lower upper s := by
      rw [show rounds = rounds - 1 + 1 by omega]
      rfl
    simp only [if_pos hlt,hmv,map_some,Bool.not_true,Bool.false_eq_true,if_false]
    cases hex : exceeds s'.graph with
    | false =>
      refine .inr ⟨_,rfl,⟨hrun',htr.trans htr',?_,?_⟩,?_,fun r hr => ⟨hr.1,?_⟩⟩
      · simp only [hpr]
        omega
      · simp only
        omega
      · simp only
        omega
      · intro rounds hrn
        rw [hpl rounds hrn]
        simp only [search,if_pos hlt,← heq,hex,Bool.not_true,Bool.not_false,
          Bool.false_eq_true,if_false,if_true]
        exact hr.2 (rounds - 1) (by simp only; omega)
    | true =>
      refine .inr ⟨_,rfl,⟨hrun',htr.trans htr',?_,?_⟩,?_,fun r hr => ⟨hr.1,?_⟩⟩
      · simp only [hpr]
        omega
      · exact hup
      · simp only
        omega
      · intro rounds hrn
        rw [hpl rounds hrn]
        simp only [search,if_pos hlt,← heq,hex,Bool.not_true,Bool.false_eq_true,if_false]
        exact hr.2 (rounds - 1) (by simp only; omega)
  · refine .inl ⟨_,if_neg hlt,⟨hrun,hlen,hup⟩,fun rounds _ => ?_⟩
    cases rounds with
    | zero => rfl
    | succ rounds => simp only [search,if_neg hlt]

/-- Enough rounds for all loops of `Simplify` on a graph with `n` edges. -/
def loopBound (n : ℕ) : ℕ := 2 * stepBound n + n + 3

theorem simplifyWithin_eq (hg : g₀.Adjacent) (hfuel : loopBound g₀.logicalEdgeCount ≤ fuel) :
    ∃ calls, simplifyWithin o exceeds fuel (new o g₀) =
      some ((simplify o exceeds (new o g₀)).1, (simplify o exceeds (new o g₀)).2, calls) := by
  have hfr := fresh_new (o := o) hg
  have hrem : remaining g₀.logicalEdgeCount (new o g₀) ≤ stepBound g₀.logicalEdgeCount :=
    remaining_le _ _
  rw [loopBound] at hfuel
  have hes : g₀.logicalEdgeCount + 1 < fuel := by omega
  have hst : Doubling o g₀ (1, 0, new o g₀, 0) :=
    ⟨.new,hfr.unapplied,by rw [hfr.applied]; rfl,Nat.zero_lt_one,le_rfl,
      by simp only [zero_add]; exact hrem⟩
  obtain ⟨doubled,hdoub,hdou,hsame⟩ :=
    doubleWithin_eq exceeds hg hst (by omega)
  have hpl := hsame (stepBound g₀.logicalEdgeCount + 1) (Nat.lt_succ_of_le hrem)
  obtain ⟨result,s,calls⟩ := doubled
  simp only [simplifyWithin,hdoub,bind_some,simplify,hfr.graph,← hpl]
  cases result with
  | none => exact ⟨calls,rfl⟩
  | some last =>
    obtain ⟨hlen,hlast⟩ := hdou.length last rfl
    simp only at hlen
    have htr : last ≤ s.trail.length := by
      rw [trail,length_append,length_reverse,hlen]
      exact Nat.le_add_right _ _
    have hsea : Searching o g₀ last (0, last + 1, s, calls) :=
      ⟨hdou.run,htr,hlen.le,le_rfl⟩
    obtain ⟨found,hse,⟨hrun,hle,hcnt⟩,hsame'⟩ :=
      searchWithin_eq exceeds hg hsea hes (by omega)
    have hpl' := hsame' (last + 1) (by simp only; omega)
    obtain ⟨count,s',calls'⟩ := found
    simp only at hrun hle hcnt hpl'
    obtain ⟨⟨flag,final⟩,hfi,heq⟩ := applyStepsWithin_eq hg (s', calls') hrun count hes
      (by omega) (by simp only; omega)
    have hrun' := hrun.applySteps (g₀.logicalEdgeCount + 1) count
    have hshort := (hrun.traced hg).length_applySteps_le (o := o) (g₀.logicalEdgeCount + 1) count
    simp only [hse,bind_some,hfi,← hpl',← heq] at hrun' hshort ⊢
    cases flag with
    | true => exact ⟨final.2,rfl⟩
    | false =>
      obtain ⟨back,hback,heq⟩ := applyStepsWithin_eq hg final hrun' 0 hes (by omega) (by omega)
      exact ⟨back.2.2,by simp [hback,← heq]⟩

/-! ## Fresh steps widen an edge -/

def Grows (step : SSimplificationStep κ) : Prop :=
  step.change.oldLeft ∪ step.change.oldRight ⊂ step.change.newLeft ∪ step.change.newRight

def Covers (s : CDPHyperGraphSimplifier κ) (edge1 edge2 : ℕ) (step : SSimplificationStep κ) : Prop :=
  s.pbsUsedNodes edge1 ∪ s.pbsUsedNodes edge2 ⊆ step.change.newLeft ∪ step.change.newRight

theorem Orders.grows {before after : ℕ} (h : Orders s before after step)
    (hnot : ¬ s.pbsUsedNodes before ⊆ s.pbsUsedNodes after) : Grows step := by
  have hcv : Covers s before after step := h.nodes.ge
  rw [Grows,h.oldLeft,h.oldRight]
  refine ⟨Finset.subset_union_right.trans hcv,fun hback => hnot ?_⟩
  exact Finset.subset_union_left.trans (hcv.trans hback)

theorem makeStep_grows {edge1 edge2 : ℕ}
    (h : s.makeStep o edge1 edge2 = some step) : Grows step := by
  have hmade := made_of_makeStep h
  rcases hmade.orders with hor | hor
  · exact hor.grows hmade.not_subset
  · exact hor.grows hmade.not_subset'

def Growing (s : CDPHyperGraphSimplifier κ) : Prop := ∀ i, ∀ step ∈ (s.bestAt i).step, Grows step

theorem Growing.only (h : Growing s) {i : ℕ} {s' : CDPHyperGraphSimplifier κ}
    (honly : OnlyEntry i s s') (hi : ∀ step ∈ (s'.bestAt i).step, Grows step) : Growing s' := by
  intro j
  by_cases hj : j = i
  · rw [hj]
    exact hi
  · rw [honly.bestAt j hj]
    exact h j

theorem Growing.setBest (h : Growing s) (i : ℕ) {b : SBestSimplification κ}
    (hb : ∀ step ∈ b.step, Grows step) : Growing (s.setBest i b) := by
  refine h.only (onlyEntry_setBest s i b) ?_
  by_cases hlt : i < s.best.length
  · rw [bestAt_setBest_self hlt]
    exact hb
  · rw [bestAt_of_length_le]
    · exact nofun
    · rw [(onlyEntry_setBest s i b).length]
      exact not_lt.mp hlt

theorem Growing.updateQueue (h : Growing s) (i : ℕ) : Growing (s.updateQueue i) := by
  simp only [CDPHyperGraphSimplifier.updateQueue]
  split
  · split
    · exact h.setBest i (h i)
    · exact h
  · split
    · exact h.setBest i (h i)
    · exact h

theorem kept_growing : Kept o (@Growing κ) where
  record _ i _ _ _ _ h hmade := h.setBest i fun step hstep => by
    cases hstep
    exact makeStep_grows hmade
  clear _ i h := h.setBest i (h i)
  update _ i h := h.updateQueue i
  pop _ i h := h.setBest i (h i)
  withOrder _ _ h := h

theorem Growing.applyStep (h : Growing s) (fuel : ℕ) :
    Growing (CDPHyperGraphSimplifier.applyStep o fuel s).2 := by
  have hfe : Growing (fetchStep o fuel s).2 := by
    simp only [fetchStep]
    split
    · exact h
    · exact (kept_growing.fetchFromQueue h fuel).2
  simp only [CDPHyperGraphSimplifier.applyStep]
  generalize fetchStep o fuel s = fetched at *
  obtain ⟨result,s'⟩ := fetched
  cases result with
  | none => exact hfe
  | some step =>
    simp only
    split
    · apply kept_growing.processNeighbors
      exact hfe
    · exact hfe

theorem growing_new : Growing (new o g₀) := by
  apply kept_growing.new
  intro i step hstep
  simp only [bestAt,getD_eq_getElem?_getD,List.getElem?_replicate] at hstep
  split at hstep
  · cases hstep
  · cases hstep

theorem Run.growing (h : Run o g₀ s) : Growing s := by
  refine run_induct growing_new (fun s fuel _ ih => ih.applyStep fuel) (fun s _ ih => ?_) h
  simp only [CDPHyperGraphSimplifier.unapplyStep]
  split
  · exact ih
  · exact ih

theorem pbsUsedNodes_eq_sides (s : CDPHyperGraphSimplifier κ) (e : ℕ) :
    s.pbsUsedNodes e = (sides s.graph e).1 ∪ (sides s.graph e).2 := rfl

theorem applyStep_widens (hg : g₀.Adjacent) (h : Run o g₀ s) (hnil : s.unapplied = []) (fuel : ℕ)
    (hres : (applyStep o fuel s).1 = true) :
    ∃ e < g₀.logicalEdgeCount, s.pbsUsedNodes e ⊂ (applyStep o fuel s).2.pbsUsedNodes e ∧
      ∀ i, i ≠ e → (applyStep o fuel s).2.pbsUsedNodes i = s.pbsUsedNodes i := by
  have htd := h.traced hg
  have hf : sides s.graph = replay (sides g₀) s.trail := by
    rw [trail,hnil,append_nil,htd.sides_eq]
  have hfits := (htd.ready.safe.fetchFromQueue (o := o) fuel).1
  have hheld := ((kept_growing (o := o)).fetchFromQueue h.growing fuel).1
  obtain ⟨hrd,hgph,-,-,hstep⟩ := htd.ready.fetchFromQueue (o := o) hf fuel
  have hfe : fetchStep o fuel s = fetchFromQueue o fuel s := by
    simp only [fetchStep,hnil]
  simp only [applyStep,hfe,hnil,isEmpty_nil,if_true] at hres ⊢
  generalize fetchFromQueue o fuel s = fetched at *
  obtain ⟨result,s'⟩ := fetched
  cases result with
  | none => cases hres
  | some step =>
    obtain ⟨⟨j,m,hst⟩,-⟩ := hstep step rfl
    obtain ⟨-,hsd,-,-,-⟩ := ready_push (o := o) hrd (by rw [hgph]; exact hf) (hfits step rfl) hst
    obtain ⟨hedge,hold⟩ := hst.edge_eq
    rw [← hf] at hold hsd
    refine ⟨step.change.edge,?_,?_,fun i hi => ?_⟩
    · rw [hedge]
      exact hst.bounds.2
    · rw [pbsUsedNodes_eq_sides,pbsUsedNodes_eq_sides,hsd,Function.update_self,← hold]
      obtain ⟨s₀,e,hgro,hmem⟩ := hheld step rfl
      exact hgro e step hmem
    · rw [pbsUsedNodes_eq_sides,pbsUsedNodes_eq_sides,hsd,Function.update_of_ne hi]

/-! ## The whole of it -/

/-- For every hypergraph, filter, cost oracle and verdict of the enumeration, `Simplify` returns after
finitely many calls of `ApplyStep`. A fresh step adds nodes to one edge, the loop of `FetchStep`
leaves the queue empty or returns a step, and `ProcessNeighbors` calls itself two levels deep at
most. -/
theorem simplify_terminates {n : ℕ} {g₀ : CDPHyperGraph} (hg : Built n g₀) (o : Oracles κ)
    (exceeds : CDPHyperGraph → Bool) :
    (∀ fuel, loopBound g₀.logicalEdgeCount ≤ fuel →
      ∃ calls, simplifyWithin o exceeds fuel (new o g₀) =
        some ((simplify o exceeds (new o g₀)).1, (simplify o exceeds (new o g₀)).2, calls)) ∧
    (∀ s fuel, Run o g₀ s → s.unapplied = [] → (applyStep o fuel s).1 = true →
      ∃ e < g₀.logicalEdgeCount, s.pbsUsedNodes e ⊂ (applyStep o fuel s).2.pbsUsedNodes e ∧
        ∀ i, i ≠ e → (applyStep o fuel s).2.pbsUsedNodes i = s.pbsUsedNodes i) ∧
    (∀ s fuel, Run o g₀ s → s.unapplied = [] → g₀.logicalEdgeCount + 1 < fuel →
      loopWithin (fetchRound o fuel) fuel s = some (fetchFromQueue o (g₀.logicalEdgeCount + 1) s)) ∧
    ∀ (s : CDPHyperGraphSimplifier κ) (edge1 first last depth : ℕ), 2 ≤ depth →
      processNeighborsWithin o depth s edge1 first last =
        some (s.processNeighbors o edge1 first last) := by
  have hadj := hg.adjacent.1
  refine ⟨fun fuel hfuel => simplifyWithin_eq hadj hfuel,
    fun s fuel hrun hnil hres => applyStep_widens hadj hrun hnil fuel hres,?_,?_⟩
  · intro s fuel hrun hnil hfuel
    have htd := hrun.traced hadj
    refine loopWithin_fetchRound htd.ready ?_ hfuel
    rw [trail,hnil,append_nil,htd.sides_eq]
  · intro s edge1 first last depth hdepth
    obtain ⟨depth,rfl⟩ := Nat.exists_eq_add_of_le' hdepth
    exact processNeighborsWithin_eq depth s edge1 first last

theorem simplify_terminates_chain :
    let exceeds := enumerationExceedsBudget 2 none
    ∃ calls, simplifyWithin Chain.oracles exceeds (loopBound Chain.graph.logicalEdgeCount)
        (new Chain.oracles Chain.graph) =
      some (true, (simplify Chain.oracles exceeds (new Chain.oracles Chain.graph)).2, calls) := by
  intro exceeds
  have hre : (simplify Chain.oracles exceeds (new Chain.oracles Chain.graph)).1 = true := by
    decide +kernel
  rw [← hre]
  exact (simplify_terminates Chain.built Chain.oracles exceeds).1 _ le_rfl

end CDPHyperGraphSimplifier

end PgOrca
