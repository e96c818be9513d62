import PgOrca.DPHyper.SimplifierProgress
import PgOrca.Library.Digraph

/-!
# The order of the edges

`TryAdd` widens the rows of the closure in place while it reads one of them. That row is never
widened itself: it would have to contain `before`, and then the call has been refused.
-/

namespace PgOrca

open List

namespace CDPHyperOrderConstraints

open Relation

variable {order : CDPHyperOrderConstraints} {rows : List (Finset ℕ)} {n before after : ℕ}
  {accepted cs : List (ℕ × ℕ)} {state : CDPHyperOrderConstraints × List (ℕ × ℕ)}

/-! ## The loop over the rows -/

def widenRow (before after : ℕ) (rows : List (Finset ℕ)) (edge : ℕ) : List (Finset ℕ) :=
  if before ∈ rows.getD edge ∅ then rows.set edge (rows.getD edge ∅ ∪ rows.getD after ∅) else rows

/-- `TryAdd` as the source runs it, on the rows themselves. -/
def tryAddInPlace (order : CDPHyperOrderConstraints) (before after : ℕ) :
    Bool × CDPHyperOrderConstraints :=
  if order.wouldCreateCycle before after then (false, order)
  else if after ∈ order.reachable.getD before ∅ then (true, order)
  else
    (true, ⟨(List.range order.reachable.length).foldl (widenRow before after) order.reachable⟩)

theorem getD_widenRow (rows : List (Finset ℕ)) (before after edge a : ℕ) :
    (widenRow before after rows edge).getD a ∅ =
      if a = edge ∧ before ∈ rows.getD a ∅ then rows.getD a ∅ ∪ rows.getD after ∅
      else rows.getD a ∅ := by
  simp only [widenRow]
  split
  case isFalse hnot =>
    rw [if_neg]
    rintro ⟨rfl,hmem⟩
    exact hnot hmem
  case isTrue hmem =>
    by_cases ha : a = edge
    · subst ha
      have hlt : a < rows.length := by
        by_contra hle
        rw [getD_eq_getElem?_getD,List.getElem?_eq_none (not_lt.mp hle)] at hmem
        exact Finset.notMem_empty before hmem
      rw [if_pos ⟨rfl,hmem⟩,getD_eq_getElem?_getD,List.getElem?_set_self hlt,Option.getD_some]
    · rw [if_neg fun hand => ha hand.1,getD_eq_getElem?_getD,
        List.getElem?_set_ne (Ne.symm ha),← getD_eq_getElem?_getD]

theorem length_widenRow (before after : ℕ) (rows : List (Finset ℕ)) (edge : ℕ) :
    (widenRow before after rows edge).length = rows.length := by
  simp only [widenRow]
  split
  · exact length_set
  · rfl

theorem foldl_widenRow (h : before ∉ rows.getD after ∅) (k : ℕ) :
    ((range k).foldl (widenRow before after) rows).length = rows.length ∧
      ∀ a, ((range k).foldl (widenRow before after) rows).getD a ∅ =
        if a < k ∧ before ∈ rows.getD a ∅ then rows.getD a ∅ ∪ rows.getD after ∅
        else rows.getD a ∅ := by
  induction k with
  | zero => exact ⟨rfl,fun a => by simp⟩
  | succ k ih =>
    obtain ⟨hlen,hrow⟩ := ih
    have haft : ((range k).foldl (widenRow before after) rows).getD after ∅ =
        rows.getD after ∅ := by
      rw [hrow,if_neg fun hand => h hand.2]
    rw [range_succ,foldl_append,foldl_cons,foldl_nil]
    refine ⟨by rw [length_widenRow,hlen],fun a => ?_⟩
    rw [getD_widenRow,haft,hrow]
    by_cases hmem : before ∈ rows.getD a ∅
    · simp only [hmem,and_true]
      rcases lt_trichotomy a k with hlt | rfl | hgt
      · simp only [hlt,hlt.ne,false_and,if_false,if_true,Nat.lt_succ_of_lt hlt]
      · simp only [lt_irrefl,if_false,hmem,and_self,if_true,Nat.lt_succ_self]
      · simp only [hgt.not_gt,hgt.ne',false_and,if_false,Nat.not_lt.mpr (Nat.succ_le_of_lt hgt)]
    · simp only [hmem,and_false,if_false]

theorem tryAddInPlace_eq_tryAdd (order : CDPHyperOrderConstraints) (before after : ℕ) :
    order.tryAddInPlace before after = order.tryAdd before after := by
  simp only [tryAddInPlace,tryAdd]
  split
  · rfl
  split
  · rfl
  rename_i hcy _
  have hnot : before ∉ order.reachable.getD after ∅ := by
    simpa only [wouldCreateCycle,decide_eq_true_eq] using hcy
  obtain ⟨hlen,hrow⟩ := foldl_widenRow hnot order.reachable.length
  congr 2
  apply ext_getElem
  · rw [hlen,length_map]
  · intro a ha ha'
    have hlt : a < order.reachable.length := by rwa [hlen] at ha
    have hget := hrow a
    simp only [getD_eq_getElem?_getD,List.getElem?_eq_getElem ha,
      List.getElem?_eq_getElem hlt,Option.getD_some,hlt,true_and] at hget
    rw [hget,getElem_map,← getD_eq_getElem?_getD]

/-! ## A sequence of calls -/

/-- The state after a call, with the constraints accepted so far. -/
def call (state : CDPHyperOrderConstraints × List (ℕ × ℕ)) (c : ℕ × ℕ) :
    CDPHyperOrderConstraints × List (ℕ × ℕ) :=
  let added := state.1.tryAddInPlace c.1 c.2
  (added.2, if added.1 then state.2 ++ [c] else state.2)

def calls (n : ℕ) (cs : List (ℕ × ℕ)) : CDPHyperOrderConstraints × List (ℕ × ℕ) :=
  cs.foldl call (new n, [])

def Before (accepted : List (ℕ × ℕ)) (a b : ℕ) : Prop := (a, b) ∈ accepted

/-- The rows are the closure of the accepted constraints, which have no cycle. -/
structure Closes (n : ℕ) (order : CDPHyperOrderConstraints) (accepted : List (ℕ × ℕ)) : Prop where
  length : order.reachable.length = n
  row : ∀ a < n, ∀ b, b ∈ order.reachable.getD a ∅ ↔ ReflTransGen (Before accepted) a b
  acyclic : Acyclic (Before accepted)

theorem closes_new (n : ℕ) : Closes n (new n) [] := by
  have hnone : ∀ a b, ¬ Before [] a b := fun _ _ => not_mem_nil
  refine ⟨(wellFormed_new n).length,fun a ha b => ?_,fun a ha => ?_⟩
  · have hget : (new n).reachable.getD a ∅ = {a} := by
      rw [new,getD_eq_getElem?_getD,List.getElem?_map,List.getElem?_range ha]
      rfl
    rw [hget,Finset.mem_singleton]
    constructor
    · rintro rfl
      exact .refl
    · intro hpath
      rcases hpath.cases_head with rfl | ⟨c,hstep,_⟩
      · rfl
      · exact (hnone a c hstep).elim
  · obtain ⟨b,_,hstep⟩ := TransGen.tail'_iff.mp ha
    exact hnone b a hstep

theorem before_append (accepted : List (ℕ × ℕ)) (before after : ℕ) :
    Before (accepted ++ [(before, after)]) = addEdges (Before accepted) before {after} := by
  funext a b
  simp only [Before,addEdges,mem_append,mem_singleton,Prod.mk.injEq,Set.mem_singleton_iff]

theorem Closes.tryAdd_fst_iff (h : Closes n order accepted) (ha : after < n) :
    (order.tryAdd before after).1 = true ↔
      Acyclic (Before (accepted ++ [(before, after)])) := by
  have hcy : order.wouldCreateCycle before after = true ↔
      ReflTransGen (Before accepted) after before := by
    rw [wouldCreateCycle,decide_eq_true_eq,h.row after ha]
  have hac : Acyclic (Before (accepted ++ [(before, after)])) ↔
      ¬ ReflTransGen (Before accepted) after before := by
    rw [before_append,acyclic_addEdges]
    exact ⟨fun hand => hand.2 after rfl,fun hnot => ⟨h.acyclic,by rintro c rfl; exact hnot⟩⟩
  rw [hac,← hcy]
  simp only [tryAdd]
  split
  · simp [*]
  · split <;> simp [*]

theorem mem_tryAdd_row (h : order.WellFormed n)
    (htr : ∀ a < n, before ∈ order.reachable.getD a ∅ → after ∈ order.reachable.getD before ∅ →
      order.reachable.getD after ∅ ⊆ order.reachable.getD a ∅)
    (hadd : (order.tryAdd before after).1 = true) {a : ℕ} (ha : a < n) (b : ℕ) :
    b ∈ (order.tryAdd before after).2.reachable.getD a ∅ ↔
      b ∈ order.reachable.getD a ∅ ∨
        before ∈ order.reachable.getD a ∅ ∧ b ∈ order.reachable.getD after ∅ := by
  have hlt : a < order.reachable.length := by
    rw [h.length]
    exact ha
  simp only [tryAdd] at hadd ⊢
  split at hadd
  · cases hadd
  rename_i hcy
  rw [if_neg hcy]
  split
  case isTrue hmem =>
    constructor
    · exact .inl
    · rintro (hb | ⟨hbef,hb⟩)
      · exact hb
      · exact htr a ha hbef hmem hb
  case isFalse =>
    simp only [getD_eq_getElem?_getD,List.getElem?_map,List.getElem?_eq_getElem hlt,
      Option.map_some,Option.getD_some]
    split
    case isTrue hbef => simp [hbef]
    case isFalse hbef => simp [hbef]

theorem Closes.wellFormed (h : Closes n order accepted) : order.WellFormed n :=
  ⟨h.length,fun a ha => (h.row a ha a).mpr .refl⟩

theorem Closes.call (h : Closes n order accepted) (hb : before < n) (ha : after < n) :
    Closes n (CDPHyperOrderConstraints.call (order, accepted) (before, after)).1
      (CDPHyperOrderConstraints.call (order, accepted) (before, after)).2 := by
  simp only [CDPHyperOrderConstraints.call,tryAddInPlace_eq_tryAdd]
  by_cases hadd : (order.tryAdd before after).1 = true
  · rw [if_pos hadd]
    have hac := (h.tryAdd_fst_iff ha).mp hadd
    have hfree : ∀ c ∈ ({after} : Set ℕ), ¬ ReflTransGen (Before accepted) c before := by
      rw [before_append,acyclic_addEdges] at hac
      exact hac.2
    refine ⟨h.wellFormed.tryAdd.length,fun a hlt b => ?_,hac⟩
    have htr : ∀ a < n, before ∈ order.reachable.getD a ∅ →
        after ∈ order.reachable.getD before ∅ →
        order.reachable.getD after ∅ ⊆ order.reachable.getD a ∅ := by
      intro a hlt hbef haft c hc
      rw [h.row a hlt] at hbef ⊢
      rw [h.row before hb] at haft
      rw [h.row after ha] at hc
      exact (hbef.trans haft).trans hc
    rw [mem_tryAdd_row h.wellFormed htr hadd hlt,h.row a hlt,h.row a hlt,h.row after ha,
      before_append]
    constructor
    · rintro (hpath | ⟨hto,hfrom⟩)
      · exact ReflTransGen.mono (fun _ _ => .inl) a b hpath
      · have hstep : addEdges (Before accepted) before {after} before after := .inr ⟨rfl,rfl⟩
        have hto' : ReflTransGen (addEdges (Before accepted) before {after}) a before :=
          ReflTransGen.mono (fun _ _ => .inl) a before hto
        exact (hto'.tail hstep).trans (ReflTransGen.mono (fun _ _ => .inl) after b hfrom)
    · intro hpath
      rcases reflTransGen_addEdges hfree hpath with hold | ⟨hto,c,rfl,hfrom⟩
      · exact .inl hold
      · exact .inr ⟨hto,hfrom⟩
  · rw [if_neg hadd,(tryAdd_false (Bool.eq_false_iff.mpr hadd)).2]
    exact h

theorem closes_foldl_call (hcs : ∀ c ∈ cs, c.1 < n ∧ c.2 < n) (h : Closes n state.1 state.2) :
    Closes n (cs.foldl call state).1 (cs.foldl call state).2 := by
  induction cs generalizing state with
  | nil => exact h
  | cons c cs ih =>
    obtain ⟨hb,ha⟩ := hcs c mem_cons_self
    exact ih (fun c' hc' => hcs c' (mem_cons_of_mem c hc')) (h.call hb ha)

theorem foldl_call_accepted {R : ℕ → ℕ → Prop} (hR : Acyclic R)
    (hcs : ∀ c ∈ cs, c.1 < n ∧ c.2 < n ∧ R c.1 c.2) (h : Closes n state.1 state.2)
    (hstate : ∀ c ∈ state.2, R c.1 c.2) : (cs.foldl call state).2 = state.2 ++ cs := by
  induction cs generalizing state with
  | nil => exact (append_nil _).symm
  | cons c cs ih =>
    obtain ⟨hb,ha,hc⟩ := hcs c mem_cons_self
    have hgr : ∀ c' ∈ state.2 ++ [c], R c'.1 c'.2 := by
      intro c' hc'
      rcases mem_append.mp hc' with hmem | hmem
      · exact hstate c' hmem
      · rw [mem_singleton.mp hmem]
        exact hc
    have hadd : (state.1.tryAddInPlace c.1 c.2).1 = true := by
      rw [tryAddInPlace_eq_tryAdd,h.tryAdd_fst_iff ha]
      exact hR.mono fun a b hab => hgr (a, b) hab
    have hacc : (call state c).2 = state.2 ++ [c] := by
      simp only [call,hadd,if_true]
    have hnext := ih (fun c' hc' => hcs c' (mem_cons_of_mem c hc')) (h.call hb ha)
      (by rw [show (state.1, state.2) = state from rfl,hacc]; exact hgr)
    rw [foldl_cons]
    change _ = state.2 ++ c :: cs
    rw [show state.2 ++ c :: cs = (state.2 ++ [c]) ++ cs by simp,← hacc]
    exact hnext

end CDPHyperOrderConstraints

namespace CDPHyperGraphSimplifier

open CDPHyperOrderConstraints Relation

variable {κ : Type*} {s : CDPHyperGraphSimplifier κ}

/-! ## The dependencies between the joins of a graph -/

/-- The call that `ExtractJoinDependencies` makes for two edges, if it makes one. -/
def dependencyCall (s : CDPHyperGraphSimplifier κ) (edge1 edge2 : ℕ) : Option (ℕ × ℕ) :=
  if s.pbsUsedNodes edge1 ⊆ s.pbsUsedNodes edge2 then some (edge1, edge2)
  else if s.pbsUsedNodes edge2 ⊆ s.pbsUsedNodes edge1 then some (edge2, edge1)
  else none

def dependencyCalls (s : CDPHyperGraphSimplifier κ) : List (ℕ × ℕ) :=
  (List.range s.graph.logicalEdgeCount).flatMap fun edge1 =>
    (between (edge1 + 1) s.graph.logicalEdgeCount).filterMap (s.dependencyCall edge1)

/-- A smaller set of used nodes comes first, and the lower index on equal sets. -/
def Precedes (s : CDPHyperGraphSimplifier κ) (a b : ℕ) : Prop :=
  s.pbsUsedNodes a ⊂ s.pbsUsedNodes b ∨ s.pbsUsedNodes a = s.pbsUsedNodes b ∧ a < b

theorem Precedes.trans {a b c : ℕ} (hab : s.Precedes a b) (hbc : s.Precedes b c) :
    s.Precedes a c := by
  rcases hab with hab | ⟨heq,hlt⟩
  · rcases hbc with hbc | ⟨heq',_⟩
    · exact .inl (hab.trans hbc)
    · exact .inl (heq' ▸ hab)
  · rcases hbc with hbc | ⟨heq',hlt'⟩
    · exact .inl (heq ▸ hbc)
    · exact .inr ⟨heq.trans heq',hlt.trans hlt'⟩

theorem acyclic_precedes (s : CDPHyperGraphSimplifier κ) : Acyclic s.Precedes := by
  intro a ha
  have hself : s.Precedes a a := by
    have hpath : ∀ b, TransGen s.Precedes a b → s.Precedes a b := by
      intro b hb
      induction hb with
      | single h => exact h
      | tail _ hstep ih => exact ih.trans hstep
    exact hpath a ha
  rcases hself with hlt | ⟨_,hlt⟩
  · exact hlt.ne rfl
  · exact lt_irrefl a hlt

theorem precedes_of_dependencyCall {edge1 edge2 : ℕ} (hlt : edge1 < edge2) {c : ℕ × ℕ}
    (h : s.dependencyCall edge1 edge2 = some c) :
    s.Precedes c.1 c.2 ∧ (c = (edge1, edge2) ∨ c = (edge2, edge1)) := by
  simp only [dependencyCall] at h
  split at h
  case isTrue hsub =>
    cases h
    refine ⟨?_,.inl rfl⟩
    rcases hsub.eq_or_ssubset with heq | hss
    · exact .inr ⟨heq,hlt⟩
    · exact .inl hss
  case isFalse hnot =>
    split at h
    case isTrue hsub =>
      cases h
      exact ⟨.inl ⟨hsub,hnot⟩,.inr rfl⟩
    case isFalse => cases h

theorem mem_dependencyCalls {c : ℕ × ℕ} (hc : c ∈ s.dependencyCalls) :
    c.1 < s.graph.logicalEdgeCount ∧ c.2 < s.graph.logicalEdgeCount ∧ s.Precedes c.1 c.2 := by
  obtain ⟨edge1,hedge1,hmem⟩ := mem_flatMap.mp hc
  obtain ⟨edge2,hedge2,hcall⟩ := mem_filterMap.mp hmem
  have hlt1 := mem_range.mp hedge1
  obtain ⟨hge,hlt2⟩ := mem_range'_1.mp hedge2
  obtain ⟨hprec,hpair⟩ := precedes_of_dependencyCall (by omega) hcall
  rcases hpair with rfl | rfl
  · exact ⟨hlt1,by omega,hprec⟩
  · exact ⟨by omega,hlt1,hprec⟩

/-! The calls are made from the current state, of which they change the order only. -/

theorem extractDependency_eq (s : CDPHyperGraphSimplifier κ) (edge1 edge2 : ℕ) :
    s.extractDependency edge1 edge2 =
      { s with order := (s.dependencyCall edge1 edge2).elim s.order (fun c =>
          (s.order.tryAdd c.1 c.2).2) } := by
  simp only [extractDependency,dependencyCall]
  split
  · rfl
  · split
    · rfl
    · rfl

theorem foldl_extractDependency (edge1 : ℕ) (edges : List ℕ) (accepted : List (ℕ × ℕ)) :
    edges.foldl (fun s edge2 => s.extractDependency edge1 edge2) s =
      { s with order := ((edges.filterMap (s.dependencyCall edge1)).foldl call
          (s.order, accepted)).1 } := by
  induction edges generalizing s accepted with
  | nil => rfl
  | cons edge2 edges ih =>
    rw [foldl_cons,extractDependency_eq]
    cases hcall : s.dependencyCall edge1 edge2 with
    | none =>
      rw [filterMap_cons_none hcall]
      exact ih accepted
    | some c =>
      rw [filterMap_cons_some hcall,foldl_cons]
      rw [ih (call (s.order, accepted) c).2]
      simp only [Option.elim_some,call,tryAddInPlace_eq_tryAdd]
      rfl

theorem foldl_foldl_extractDependency (outer : List ℕ) (inner : CDPHyperGraph → ℕ → List ℕ)
    (accepted : List (ℕ × ℕ)) :
    outer.foldl (fun s edge1 =>
        (inner s.graph edge1).foldl (fun s edge2 => s.extractDependency edge1 edge2) s) s =
      { s with order := ((outer.flatMap (fun edge1 =>
          (inner s.graph edge1).filterMap (s.dependencyCall edge1))).foldl call (s.order, accepted)).1 } := by
  induction outer generalizing s accepted with
  | nil => rfl
  | cons edge1 outer ih =>
    rw [foldl_cons,flatMap_cons,foldl_append,foldl_extractDependency edge1 _
      accepted,ih (((inner s.graph edge1).filterMap (s.dependencyCall edge1)).foldl call
        (s.order, accepted)).2]
    rfl

/-- What the constructor starts from, before `InitFirstStep`. -/
def initial (graph : CDPHyperGraph) : CDPHyperGraphSimplifier κ :=
  ⟨graph,.new graph.logicalEdgeCount,List.replicate graph.logicalEdgeCount ⟨none, none, false⟩,[],
    [],[]⟩

theorem extractJoinDependencies_order (s : CDPHyperGraphSimplifier κ) :
    s.extractJoinDependencies.order = (s.dependencyCalls.foldl call (s.order, [])).1 := by
  rw [extractJoinDependencies,foldl_foldl_extractDependency _ (fun graph edge1 =>
    between (edge1 + 1) graph.logicalEdgeCount) []]
  rfl

/-- For every sequence of calls the rows are the closure of the accepted constraints, a constraint is
accepted exactly when it leaves them without a cycle, and a refused call changes nothing. The calls of
`ExtractJoinDependencies` are all accepted. -/
theorem orderConstraints_closure (n : ℕ) (cs : List (ℕ × ℕ)) (hcs : ∀ c ∈ cs, c.1 < n ∧ c.2 < n)
    (before after : ℕ) (ha : after < n) (graph : CDPHyperGraph) :
    let order := (calls n cs).1
    let accepted := (calls n cs).2
    let extracted := calls graph.logicalEdgeCount (initial (κ := κ) graph).dependencyCalls
    (∀ a < n, ∀ b, b ∈ order.reachable.getD a ∅ ↔ ReflTransGen (Before accepted) a b) ∧
    ((order.tryAddInPlace before after).1 = true ↔
      Acyclic (Before (accepted ++ [(before, after)]))) ∧
    ((order.tryAddInPlace before after).1 = false → (order.tryAddInPlace before after).2 = order) ∧
    extracted.1 = (initial (κ := κ) graph).extractJoinDependencies.order ∧
    extracted.2 = (initial (κ := κ) graph).dependencyCalls := by
  intro order accepted extracted
  have h : Closes n order accepted := closes_foldl_call hcs (closes_new n)
  simp only [tryAddInPlace_eq_tryAdd]
  refine ⟨h.row,h.tryAdd_fst_iff ha,fun hff => (tryAdd_false hff).2,?_,?_⟩
  · exact (extractJoinDependencies_order (initial graph)).symm
  · refine foldl_call_accepted (acyclic_precedes (initial (κ := κ) graph))
      (fun c hc => mem_dependencyCalls hc) (closes_new _) ?_
    intro c hc
    exact (not_mem_nil hc).elim

theorem orderConstraints_closure_chain :
    let order := (calls 3 [(0, 1),(1, 2)]).1
    (∀ c ∈ [(0, 1),(1, 2)], c.1 < 3 ∧ c.2 < 3) ∧
      ReflTransGen (Before (calls 3 [(0, 1),(1, 2)]).2) 0 2 ∧
      (order.tryAddInPlace 2 0).1 = false ∧
      ¬ Acyclic (Before ((calls 3 [(0, 1),(1, 2)]).2 ++ [(2, 0)])) := by
  obtain ⟨hrow,hiff,-⟩ := orderConstraints_closure (κ := ℕ) 3 [(0, 1),(1, 2)] (by decide) 2 0
    (by decide) (CDPHyperGraph.ofEdges 3 [⟨{0},{1},0⟩,⟨{1},{2},1⟩])
  have href : ((calls 3 [(0, 1),(1, 2)]).1.tryAddInPlace 2 0).1 = false := by decide +kernel
  refine ⟨by decide,(hrow 0 (by decide) 2).mp (by decide +kernel),href,fun hac => ?_⟩
  rw [hiff.mpr hac] at href
  cases href

end CDPHyperGraphSimplifier

end PgOrca
