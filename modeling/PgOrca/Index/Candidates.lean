import PgOrca.Index.PrefixIndex

/-!
# Candidate rules of a live expression

`MatchOne` follows every edge of the trie that a live subtree can take and collects the rules it
passes. Sharing of nodes, the eager collection along shorter paths and the pruning of exhausted
subtries do not change the answer: it is what a scan over the rules one by one gives.
-/

namespace PgOrca.Index

/-! ## Live expressions -/

/-- A live expression; `pgexpr` is the group expression it was taken from, if any. -/
inductive CExpression (α γ : Type)
  | node (pop : COperator α) (pgexpr : Option γ) (pdrgpexpr : List (CExpression α γ))

namespace CExpression

variable {α γ : Type}

def pop : CExpression α γ → COperator α
  | node pop _ _ => pop

def pdrgpexpr : CExpression α γ → List (CExpression α γ)
  | node _ _ pdrgpexpr => pdrgpexpr

mutual

/-- The operator is a subquery or a scalar child has one. -/
def deriveHasSubquery : CExpression α γ → Bool
  | node pop _ pdrgpexpr => pop.eopid.fSubquery || anyHasSubquery pdrgpexpr

def anyHasSubquery : List (CExpression α γ) → Bool
  | [] => false
  | pexpr :: pexprs =>
    (pexpr.pop.eopid.fScalar && deriveHasSubquery pexpr) || anyHasSubquery pexprs

end

def fGbAggHasSubquery (pexpr : CExpression α γ) : Bool :=
  pexpr.pop.eopid == .logicalGbAgg &&
    match pexpr.pdrgpexpr with
    | [_, pexprList] => pexprList.deriveHasSubquery
    | _ => false

/-- The relations below a chain of limits. -/
def peeledLimits : CExpression α γ → List (CExpression α γ)
  | node _ _ [] => []
  | node pop _ (pexpr :: rest) =>
    if pop.eopid == .logicalLimit && rest.length == 2 then pexpr :: peeledLimits pexpr else []

/-- A wrapper that the edge lets a matcher look through: an aggregate below a projection, a
projection below a duplicate elimination. -/
def fPeeled (flags : EAdapterFlags) (pop : COperator α) : Bool :=
  (flags.projectPeelAgg && pop.eopid == .logicalGbAgg) ||
    (flags.gbAggPeelProject && pop.eopid == .logicalProject)

def peeledWrapper (flags : EAdapterFlags) : CExpression α γ → List (CExpression α γ)
  | node _ _ [] => []
  | node pop _ (pexpr :: rest) => if rest.length == 1 && fPeeled flags pop then [pexpr] else []

/-- The relations that the first child of an edge is matched as. -/
def views (flags : EAdapterFlags) (pexpr : CExpression α γ) : List (CExpression α γ) :=
  pexpr ::
    ((if flags.projectPeelLimit then peeledLimits pexpr else []) ++ peeledWrapper flags pexpr)

theorem sizeOf_of_mem_peeledLimits {v : CExpression α γ} :
    ∀ {pexpr : CExpression α γ}, v ∈ peeledLimits pexpr → sizeOf v < sizeOf pexpr
  | node _ _ [], h => by simp [peeledLimits] at h
  | node pop g (pexpr :: rest), h => by
    simp only [peeledLimits] at h
    split at h
    · cases h with
      | head => simp; omega
      | tail _ h =>
        have := sizeOf_of_mem_peeledLimits h
        simp only [node.sizeOf_spec,List.cons.sizeOf_spec]
        omega
    · cases h

theorem sizeOf_of_mem_peeledWrapper {flags : EAdapterFlags} {v pexpr : CExpression α γ}
    (h : v ∈ peeledWrapper flags pexpr) : sizeOf v < sizeOf pexpr := by
  cases pexpr with
  | node pop g cs =>
    cases cs with
    | nil => simp [peeledWrapper] at h
    | cons c rest =>
      simp only [peeledWrapper] at h
      split at h
      · rw [List.mem_singleton.mp h]
        simp only [node.sizeOf_spec,List.cons.sizeOf_spec]
        omega
      · cases h

theorem sizeOf_of_mem_views {flags : EAdapterFlags} {v pexpr : CExpression α γ}
    (h : v ∈ views flags pexpr) : sizeOf v ≤ sizeOf pexpr := by
  simp only [views,List.mem_cons,List.mem_append] at h
  rcases h with rfl | h | h
  · exact le_rfl
  · split at h
    · exact (sizeOf_of_mem_peeledLimits h).le
    · cases h
  · exact (sizeOf_of_mem_peeledWrapper h).le

end CExpression

/-! ## Budgets -/

/-- The counters of the optimization context that limit the alternatives of the rules. -/
structure COptCtxt where
  ulDSLRuleMaxAlternatives : UInt32
  ulDSLRuleMaxAlternativesPerRule : UInt32
  ulDSLGeneratedAlternatives : UInt32
  generatedAlternativesByRule : UInt32 → Option UInt32

def COptCtxt.fDSLAlternativeBudgetExhausted (poctxt : COptCtxt) (ulRuleId : UInt32) : Bool :=
  (poctxt.ulDSLRuleMaxAlternatives != 0 &&
      poctxt.ulDSLGeneratedAlternatives ≥ poctxt.ulDSLRuleMaxAlternatives) ||
    (poctxt.generatedAlternativesByRule ulRuleId).any fun ulGenerated =>
      poctxt.ulDSLRuleMaxAlternativesPerRule != 0 &&
        ulGenerated ≥ poctxt.ulDSLRuleMaxAlternativesPerRule

def fRuleAvailable (poctxt : Option COptCtxt) (pentry : SRuleEntry) : Bool :=
  match poctxt with
  | none => true
  | some poctxt =>
    let ulSourceLine := pentry.prule.ulSourceLine
    let ulRuleId := if ulSourceLine = 0 then pentry.ulOrdinal + 1 else ulSourceLine
    !poctxt.fDSLAlternativeBudgetExhausted ulRuleId

/-! ## Walking the trie -/

/-- The entries collected on the way and the nodes after the consumed subtree. -/
abbrev SFound := List SRuleEntry × List SNode

def collect (found : List SFound) : SFound :=
  (found.flatMap (·.1), found.flatMap (·.2))

@[simp] theorem mem_collect_entries {found : List SFound} {x : SRuleEntry} :
    x ∈ (collect found).1 ↔ ∃ f ∈ found, x ∈ f.1 := by
  simp [collect,List.mem_flatMap]

@[simp] theorem mem_collect_nodes {found : List SFound} {n : SNode} :
    n ∈ (collect found).2 ↔ ∃ f ∈ found, n ∈ f.2 := by
  simp [collect,List.mem_flatMap]

section Walk

variable {α γ : Type} (fAvailable : SRuleEntry → Bool)

def availableEntries (pnode : SNode) : List SRuleEntry :=
  pnode.entries.filter fAvailable

def matchInput (pnode : SNode) : SFound :=
  match pnode.wild with
  | none => ([], [])
  | some pnodeInput =>
    if pnodeInput.hasEntry fAvailable then (availableEntries fAvailable pnodeInput, [pnodeInput])
    else ([], [])

/-- The exact edges that a live expression can take. -/
def fFollows (edge : SExactEdge × SNode) (pexpr : CExpression α γ) : Bool :=
  edge.1.fEdgeMatchesOperator pexpr.pop pexpr.fGbAggHasSubquery &&
    edge.1.ulChildren ≤ pexpr.pdrgpexpr.length && edge.2.hasEntry fAvailable

mutual

def matchOne (pnode : SNode) : CExpression α γ → SFound
  | .node pop pgexpr pdrgpexpr =>
    collect (matchInput fAvailable pnode :: pnode.edges.map fun edge =>
      if fFollows fAvailable edge (.node pop pgexpr pdrgpexpr) then
        let found := matchChildren edge.1.ulAdapterFlags edge.1.ulChildren [edge.2] pdrgpexpr
        (availableEntries fAvailable edge.2 ++ found.1, found.2)
      else ([], []))

/-- The loop over the first `ulChildren` children; only the first one is also seen through the
adapters of the edge. -/
def matchChildren (flags : EAdapterFlags) (ulChildren : ℕ) (states : List SNode) :
    List (CExpression α γ) → SFound
  | [] => ([], states)
  | pexpr :: pexprs =>
    match ulChildren with
    | 0 => ([], states)
    | ulChildren + 1 =>
      let found := collect (states.map fun pnodeState =>
        collect [matchOne pnodeState pexpr, matchLimits flags pnodeState pexpr,
          matchWrapper flags pnodeState pexpr])
      let rest := matchChildren .none ulChildren found.2 pexprs
      (found.1 ++ rest.1, rest.2)

def matchLimits (flags : EAdapterFlags) (pnode : SNode) : CExpression α γ → SFound
  | .node _ _ [] => ([], [])
  | .node pop _ (pexpr :: rest) =>
    if flags.projectPeelLimit && pop.eopid == .logicalLimit && rest.length == 2 then
      collect [matchOne pnode pexpr, matchLimits flags pnode pexpr]
    else ([], [])

def matchWrapper (flags : EAdapterFlags) (pnode : SNode) : CExpression α γ → SFound
  | .node _ _ [] => ([], [])
  | .node pop _ (pexpr :: rest) =>
    if rest.length == 1 && CExpression.fPeeled flags pop then matchOne pnode pexpr else ([], [])

end

end Walk

/-! ## Paths that a live expression reads -/

section Reading

variable {α γ : Type}

mutual

/-- A complete template node was read off the live expression. -/
inductive Consumes : CExpression α γ → PNode → Prop
  | wild (pexpr : CExpression α γ) : Consumes pexpr [.wild]
  | exact {pexpr : CExpression α γ} {edge : SExactEdge} {q : PNode} :
      edge.fEdgeMatchesOperator pexpr.pop pexpr.fGbAggHasSubquery = true →
      edge.ulChildren ≤ pexpr.pdrgpexpr.length →
      ConsumesAll edge.ulAdapterFlags (pexpr.pdrgpexpr.take edge.ulChildren) q →
      Consumes pexpr (.exact edge :: q)

inductive ConsumesAll : EAdapterFlags → List (CExpression α γ) → PNode → Prop
  | nil (flags : EAdapterFlags) : ConsumesAll flags [] []
  | cons {flags : EAdapterFlags} {v pexpr : CExpression α γ} {pexprs : List (CExpression α γ)}
      {p q : PNode} :
      v ∈ pexpr.views flags → Consumes v p → ConsumesAll .none pexprs q →
      ConsumesAll flags (pexpr :: pexprs) (p ++ q)

end

mutual

/-- A non-empty part of a template node, from its start, was read off the live expression. -/
inductive Touches : CExpression α γ → PNode → Prop
  | wild (pexpr : CExpression α γ) : Touches pexpr [.wild]
  | head {pexpr : CExpression α γ} {edge : SExactEdge} :
      edge.fEdgeMatchesOperator pexpr.pop pexpr.fGbAggHasSubquery = true →
      edge.ulChildren ≤ pexpr.pdrgpexpr.length → Touches pexpr [.exact edge]
  | inside {pexpr : CExpression α γ} {edge : SExactEdge} {q : PNode} :
      edge.fEdgeMatchesOperator pexpr.pop pexpr.fGbAggHasSubquery = true →
      edge.ulChildren ≤ pexpr.pdrgpexpr.length →
      TouchesAll edge.ulAdapterFlags (pexpr.pdrgpexpr.take edge.ulChildren) q →
      Touches pexpr (.exact edge :: q)

inductive TouchesAll : EAdapterFlags → List (CExpression α γ) → PNode → Prop
  | here {flags : EAdapterFlags} {v pexpr : CExpression α γ} {pexprs : List (CExpression α γ)}
      {p : PNode} :
      v ∈ pexpr.views flags → Touches v p → TouchesAll flags (pexpr :: pexprs) p
  | later {flags : EAdapterFlags} {v pexpr : CExpression α γ} {pexprs : List (CExpression α γ)}
      {p q : PNode} :
      v ∈ pexpr.views flags → Consumes v p → TouchesAll .none pexprs q →
      TouchesAll flags (pexpr :: pexprs) (p ++ q)

end

end Reading

/-! ## The walk follows exactly the readable paths -/

section Spec

variable {α γ : Type} (fAvailable : SRuleEntry → Bool)

theorem mem_matchLimits (flags : EAdapterFlags) (pnode : SNode) :
    ∀ pexpr : CExpression α γ,
      (∀ x, x ∈ (matchLimits fAvailable flags pnode pexpr).1 ↔
        flags.projectPeelLimit = true ∧
          ∃ v ∈ pexpr.peeledLimits, x ∈ (matchOne fAvailable pnode v).1) ∧
      (∀ n, n ∈ (matchLimits fAvailable flags pnode pexpr).2 ↔
        flags.projectPeelLimit = true ∧
          ∃ v ∈ pexpr.peeledLimits, n ∈ (matchOne fAvailable pnode v).2)
  | .node _ _ [] => by simp [matchLimits,CExpression.peeledLimits]
  | .node pop g (pexpr :: rest) => by
    have ih := mem_matchLimits flags pnode pexpr
    simp only [matchLimits,CExpression.peeledLimits]
    by_cases hl : (pop.eopid == .logicalLimit && rest.length == 2) = true
    · cases hf : flags.projectPeelLimit with
      | false => simp
      | true =>
        simp only [hf,true_and,Bool.true_and,hl,if_true] at ih ⊢
        constructor
        · intro x
          simp [ih.1]
        · intro n
          simp [ih.2]
    · have hl' : ¬ (flags.projectPeelLimit && pop.eopid == .logicalLimit &&
          rest.length == 2) = true := by
        simp only [Bool.and_eq_true] at hl ⊢
        tauto
      simp [hl,hl']

theorem mem_matchWrapper (flags : EAdapterFlags) (pnode : SNode) (pexpr : CExpression α γ) :
    (∀ x, x ∈ (matchWrapper fAvailable flags pnode pexpr).1 ↔
      ∃ v ∈ pexpr.peeledWrapper flags, x ∈ (matchOne fAvailable pnode v).1) ∧
    (∀ n, n ∈ (matchWrapper fAvailable flags pnode pexpr).2 ↔
      ∃ v ∈ pexpr.peeledWrapper flags, n ∈ (matchOne fAvailable pnode v).2) := by
  cases pexpr with
  | node pop g cs =>
    cases cs with
    | nil => simp [matchWrapper,CExpression.peeledWrapper]
    | cons c rest =>
      simp only [matchWrapper,CExpression.peeledWrapper]
      split <;> simp

/-- The three calls of the child loop together match every view of the child. -/
theorem mem_matchViews (flags : EAdapterFlags) (pnode : SNode) (pexpr : CExpression α γ) :
    (∀ x, x ∈ (collect [matchOne fAvailable pnode pexpr, matchLimits fAvailable flags pnode pexpr,
        matchWrapper fAvailable flags pnode pexpr]).1 ↔
      ∃ v ∈ pexpr.views flags, x ∈ (matchOne fAvailable pnode v).1) ∧
    (∀ n, n ∈ (collect [matchOne fAvailable pnode pexpr, matchLimits fAvailable flags pnode pexpr,
        matchWrapper fAvailable flags pnode pexpr]).2 ↔
      ∃ v ∈ pexpr.views flags, n ∈ (matchOne fAvailable pnode v).2) := by
  have hl := mem_matchLimits fAvailable flags pnode pexpr
  have hw := mem_matchWrapper fAvailable flags pnode pexpr
  cases hf : flags.projectPeelLimit with
  | false => simp_all [CExpression.views]
  | true => simp_all [CExpression.views,or_and_right,exists_or]

theorem mem_matchInput_entries {pnode : SNode} {x : SRuleEntry} :
    x ∈ (matchInput fAvailable pnode).1 ↔ fAvailable x = true ∧ pnode.Holds [.wild] x := by
  simp only [matchInput,WildTrie.holds_cons,WildTrie.holds_nil,WildTrie.Child]
  cases hw : pnode.wild with
  | none => simp
  | some c =>
    by_cases hc : c.hasEntry fAvailable = true
    · simp [hc,availableEntries,and_comm]
    · have hnone : ∀ x ∈ c.entries, ¬ fAvailable x = true := fun x hx hok =>
        hc (WildTrie.hasEntry_iff_child.mpr (.inl ⟨x,hx,hok⟩))
      simp only [if_neg hc,List.not_mem_nil,Option.some.injEq,exists_eq_left',false_iff]
      exact fun h => hnone x h.2 h.1

theorem mem_matchInput_nodes {pnode n : SNode} :
    n ∈ (matchInput fAvailable pnode).2 ↔
      n.hasEntry fAvailable = true ∧ pnode.Leads [.wild] n := by
  simp only [matchInput,WildTrie.leads_cons,WildTrie.leads_nil,WildTrie.Child]
  cases hw : pnode.wild with
  | none => simp
  | some c =>
    by_cases hc : c.hasEntry fAvailable = true
    · simp only [hc,if_true,List.mem_singleton,Option.some.injEq,exists_eq_left']
      exact ⟨fun h => ⟨h ▸ hc,h⟩,fun h => h.2⟩
    · simp only [if_neg hc,List.not_mem_nil,Option.some.injEq,exists_eq_left',false_iff]
      exact fun h => hc (h.2 ▸ h.1)

/-- The nodes after a consumed subtree: those that a path read off it leads to. -/
def NodesSpec (pexpr : CExpression α γ) : Prop :=
  ∀ pnode n, n ∈ (matchOne fAvailable pnode pexpr).2 ↔
    n.hasEntry fAvailable = true ∧ ∃ p, Consumes pexpr p ∧ pnode.Leads p n

/-- The collected entries: those stored on a path touched by the subtree. -/
def EntriesSpec (pexpr : CExpression α γ) : Prop :=
  ∀ pnode x, x ∈ (matchOne fAvailable pnode pexpr).1 ↔
    fAvailable x = true ∧ ∃ p, Touches pexpr p ∧ pnode.Holds p x

variable {fAvailable}

theorem consumesAll_nil {flags : EAdapterFlags} {q : PNode} :
    ConsumesAll flags ([] : List (CExpression α γ)) q ↔ q = [] := by
  constructor
  · rintro ⟨⟩
    rfl
  · rintro rfl
    exact .nil flags

theorem consumesAll_cons {flags : EAdapterFlags} {pexpr : CExpression α γ}
    {pexprs : List (CExpression α γ)} {r : PNode} :
    ConsumesAll flags (pexpr :: pexprs) r ↔
      ∃ v ∈ pexpr.views flags, ∃ p q, r = p ++ q ∧ Consumes v p ∧ ConsumesAll .none pexprs q := by
  constructor
  · intro h
    cases h with
    | cons hv hp hq => exact ⟨_,hv,_,_,rfl,hp,hq⟩
  · rintro ⟨v,hv,p,q,rfl,hp,hq⟩
    exact .cons hv hp hq

theorem touchesAll_cons {flags : EAdapterFlags} {pexpr : CExpression α γ}
    {pexprs : List (CExpression α γ)} {r : PNode} :
    TouchesAll flags (pexpr :: pexprs) r ↔
      ∃ v ∈ pexpr.views flags, Touches v r ∨
        ∃ p q, r = p ++ q ∧ Consumes v p ∧ TouchesAll .none pexprs q := by
  constructor
  · intro h
    cases h with
    | here hv hp => exact ⟨_,hv,.inl hp⟩
    | later hv hp hq => exact ⟨_,hv,.inr ⟨_,_,rfl,hp,hq⟩⟩
  · rintro ⟨v,hv,hp | ⟨p,q,rfl,hp,hq⟩⟩
    · exact .here hv hp
    · exact .later hv hp hq

theorem not_touchesAll_nil {flags : EAdapterFlags} {q : PNode} :
    ¬ TouchesAll flags ([] : List (CExpression α γ)) q := by
  rintro ⟨⟩

theorem nodes_stop {flags : EAdapterFlags} {states : List SNode}
    (hlive : ∀ s ∈ states, s.hasEntry fAvailable = true) (n : SNode) :
    n ∈ states ↔ n.hasEntry fAvailable = true ∧
      ∃ s ∈ states, ∃ q, ConsumesAll flags ([] : List (CExpression α γ)) q ∧ s.Leads q n := by
  simp only [consumesAll_nil,exists_eq_left,WildTrie.leads_nil,exists_eq_right']
  exact ⟨fun h => ⟨hlive n h,h⟩,fun h => h.2⟩

theorem nodes_views {pexpr : CExpression α γ} {flags : EAdapterFlags}
    (ih : ∀ v ∈ pexpr.views flags, NodesSpec fAvailable v) (states : List SNode) (m : SNode) :
    m ∈ (collect (states.map fun pnodeState =>
        collect [matchOne fAvailable pnodeState pexpr,
          matchLimits fAvailable flags pnodeState pexpr,
          matchWrapper fAvailable flags pnodeState pexpr])).2 ↔
      m.hasEntry fAvailable = true ∧
        ∃ s ∈ states, ∃ v ∈ pexpr.views flags, ∃ p, Consumes v p ∧ s.Leads p m := by
  rw [mem_collect_nodes]
  simp only [List.mem_map,exists_exists_and_eq_and,(mem_matchViews fAvailable flags _ pexpr).2]
  constructor
  · rintro ⟨s,hs,v,hv,hm⟩
    obtain ⟨hlive,p,hp,hlead⟩ := (ih v hv s m).mp hm
    exact ⟨hlive,s,hs,v,hv,p,hp,hlead⟩
  · rintro ⟨hlive,s,hs,v,hv,p,hp,hlead⟩
    exact ⟨s,hs,v,hv,(ih v hv s m).mpr ⟨hlive,p,hp,hlead⟩⟩

theorem entries_views {pexpr : CExpression α γ} {flags : EAdapterFlags}
    (ih : ∀ v ∈ pexpr.views flags, EntriesSpec fAvailable v) (states : List SNode)
    (x : SRuleEntry) :
    x ∈ (collect (states.map fun pnodeState =>
        collect [matchOne fAvailable pnodeState pexpr,
          matchLimits fAvailable flags pnodeState pexpr,
          matchWrapper fAvailable flags pnodeState pexpr])).1 ↔
      fAvailable x = true ∧
        ∃ s ∈ states, ∃ v ∈ pexpr.views flags, ∃ p, Touches v p ∧ s.Holds p x := by
  rw [mem_collect_entries]
  simp only [List.mem_map,exists_exists_and_eq_and,(mem_matchViews fAvailable flags _ pexpr).1]
  constructor
  · rintro ⟨s,hs,v,hv,hx⟩
    obtain ⟨hok,p,hp,hholds⟩ := (ih v hv s x).mp hx
    exact ⟨hok,s,hs,v,hv,p,hp,hholds⟩
  · rintro ⟨hok,s,hs,v,hv,p,hp,hholds⟩
    exact ⟨s,hs,v,hv,(ih v hv s x).mpr ⟨hok,p,hp,hholds⟩⟩

theorem nodes_matchChildren {pexprs : List (CExpression α γ)}
    (ih : ∀ c ∈ pexprs, ∀ flags, ∀ v ∈ c.views flags, NodesSpec fAvailable v)
    (flags : EAdapterFlags) (k : ℕ) (states : List SNode)
    (hlive : ∀ s ∈ states, s.hasEntry fAvailable = true) (n : SNode) :
    n ∈ (matchChildren fAvailable flags k states pexprs).2 ↔
      n.hasEntry fAvailable = true ∧
        ∃ s ∈ states, ∃ q, ConsumesAll flags (pexprs.take k) q ∧ s.Leads q n := by
  induction pexprs generalizing flags k states with
  | nil => simpa [matchChildren] using nodes_stop hlive n
  | cons c cs ihcs =>
    cases k with
    | zero => simpa [matchChildren] using nodes_stop hlive n
    | succ k =>
      have found := nodes_views (ih c List.mem_cons_self flags) states
      have rest := ihcs (fun d hd => ih d (List.mem_cons_of_mem c hd)) .none k _
        fun m hm => ((found m).mp hm).1
      simp only [matchChildren,List.take_succ_cons,rest,found]
      constructor
      · rintro ⟨hn,m,⟨-,s,hs,v,hv,p,hp,hm⟩,q,hq,hlead⟩
        exact ⟨hn,s,hs,p ++ q,.cons hv hp hq,WildTrie.leads_append.mpr ⟨m,hm,hlead⟩⟩
      · rintro ⟨hn,s,hs,r,hr,hlead⟩
        obtain ⟨v,hv,p,q,rfl,hp,hq⟩ := consumesAll_cons.mp hr
        obtain ⟨m,hm,hlead⟩ := WildTrie.leads_append.mp hlead
        exact ⟨hn,m,⟨hlead.hasEntry hn,s,hs,v,hv,p,hp,hm⟩,q,hq,hlead⟩

theorem entries_matchChildren {pexprs : List (CExpression α γ)}
    (ihn : ∀ c ∈ pexprs, ∀ flags, ∀ v ∈ c.views flags, NodesSpec fAvailable v)
    (ihe : ∀ c ∈ pexprs, ∀ flags, ∀ v ∈ c.views flags, EntriesSpec fAvailable v)
    (flags : EAdapterFlags) (k : ℕ) (states : List SNode) (x : SRuleEntry) :
    x ∈ (matchChildren fAvailable flags k states pexprs).1 ↔
      fAvailable x = true ∧
        ∃ s ∈ states, ∃ q, TouchesAll flags (pexprs.take k) q ∧ s.Holds q x := by
  induction pexprs generalizing flags k states with
  | nil => simp [matchChildren,not_touchesAll_nil]
  | cons c cs ihcs =>
    cases k with
    | zero => simp [matchChildren,not_touchesAll_nil]
    | succ k =>
      have found := nodes_views (ihn c List.mem_cons_self flags) states
      have rest := ihcs (fun d hd => ihn d (List.mem_cons_of_mem c hd))
        (fun d hd => ihe d (List.mem_cons_of_mem c hd)) .none k
      have here := entries_views (ihe c List.mem_cons_self flags) states x
      simp only [matchChildren,List.take_succ_cons,List.mem_append,here,rest,found,
        touchesAll_cons]
      constructor
      · rintro (⟨hx,s,hs,v,hv,p,hp,hlead⟩ | ⟨hx,m,⟨-,s,hs,v,hv,p,hp,hm⟩,q,hq,hlead⟩)
        · exact ⟨hx,s,hs,p,⟨v,hv,.inl hp⟩,hlead⟩
        · exact ⟨hx,s,hs,p ++ q,⟨v,hv,.inr ⟨p,q,rfl,hp,hq⟩⟩,
            WildTrie.holds_append.mpr ⟨m,hm,hlead⟩⟩
      · rintro ⟨hx,s,hs,r,⟨v,hv,hr⟩,hlead⟩
        rcases hr with hr | ⟨p,q,rfl,hp,hq⟩
        · exact .inl ⟨hx,s,hs,v,hv,r,hr,hlead⟩
        · obtain ⟨m,hm,hlead⟩ := WildTrie.holds_append.mp hlead
          exact .inr ⟨hx,m,⟨hlead.hasEntry hx,s,hs,v,hv,p,hp,hm⟩,q,hq,hlead⟩

theorem mem_matchOne_nodes {pnode n : SNode} {pexpr : CExpression α γ} :
    n ∈ (matchOne fAvailable pnode pexpr).2 ↔
      n ∈ (matchInput fAvailable pnode).2 ∨ ∃ edge ∈ pnode.edges,
        fFollows fAvailable edge pexpr = true ∧
          n ∈ (matchChildren fAvailable edge.1.ulAdapterFlags edge.1.ulChildren [edge.2]
            pexpr.pdrgpexpr).2 := by
  cases pexpr with
  | node pop g cs =>
    simp only [matchOne,mem_collect_nodes,List.mem_cons,exists_eq_or_imp,List.mem_map,
      exists_exists_and_eq_and,
      CExpression.pdrgpexpr]
    refine or_congr Iff.rfl (exists_congr fun edge => and_congr_right fun _ => ?_)
    split
    · rename_i h
      simp [h]
    · rename_i h
      simp [h]

theorem mem_matchOne_entries {pnode : SNode} {x : SRuleEntry} {pexpr : CExpression α γ} :
    x ∈ (matchOne fAvailable pnode pexpr).1 ↔
      x ∈ (matchInput fAvailable pnode).1 ∨ ∃ edge ∈ pnode.edges,
        fFollows fAvailable edge pexpr = true ∧
          (x ∈ availableEntries fAvailable edge.2 ∨
            x ∈ (matchChildren fAvailable edge.1.ulAdapterFlags edge.1.ulChildren [edge.2]
              pexpr.pdrgpexpr).1) := by
  cases pexpr with
  | node pop g cs =>
    simp only [matchOne,mem_collect_entries,List.mem_cons,exists_eq_or_imp,List.mem_map,
      exists_exists_and_eq_and,
      CExpression.pdrgpexpr]
    refine or_congr Iff.rfl (exists_congr fun edge => and_congr_right fun _ => ?_)
    split
    · rename_i h
      simp [h]
    · rename_i h
      simp [h]

theorem fFollows_iff {edge : SExactEdge × SNode} {pexpr : CExpression α γ} :
    fFollows fAvailable edge pexpr = true ↔
      edge.1.fEdgeMatchesOperator pexpr.pop pexpr.fGbAggHasSubquery = true ∧
        edge.1.ulChildren ≤ pexpr.pdrgpexpr.length ∧ edge.2.hasEntry fAvailable = true := by
  simp [fFollows,and_assoc]

theorem sizeOf_child {c pexpr : CExpression α γ} (hc : c ∈ pexpr.pdrgpexpr) :
    sizeOf c < sizeOf pexpr := by
  cases pexpr with
  | node pop g cs =>
    have := List.sizeOf_lt_of_mem hc
    simp only [CExpression.pdrgpexpr] at this
    simp only [CExpression.node.sizeOf_spec]
    omega

theorem nodesSpec (pexpr : CExpression α γ) : NodesSpec fAvailable pexpr := by
  induction h : sizeOf pexpr using Nat.strong_induction_on generalizing pexpr with
  | _ size ih =>
    subst h
    have ihc : ∀ c ∈ pexpr.pdrgpexpr, ∀ flags, ∀ v ∈ c.views flags, NodesSpec fAvailable v :=
      fun c hc flags v hv =>
        ih _ ((CExpression.sizeOf_of_mem_views hv).trans_lt (sizeOf_child hc)) v rfl
    intro pnode n
    rw [mem_matchOne_nodes,mem_matchInput_nodes]
    constructor
    · rintro (⟨hn,hlead⟩ | ⟨edge,he,hf,hn⟩)
      · exact ⟨hn,_,.wild pexpr,hlead⟩
      · obtain ⟨hmatch,hk,hlive⟩ := fFollows_iff.mp hf
        rw [nodes_matchChildren ihc _ _ _ (by simpa using hlive)] at hn
        obtain ⟨hn,s,hs,q,hq,hlead⟩ := hn
        rw [List.mem_singleton.mp hs] at hlead
        exact ⟨hn,_,.exact hmatch hk hq,edge.2,he,hlead⟩
    · rintro ⟨hn,p,hp,hlead⟩
      cases hp with
      | wild => exact .inl ⟨hn,hlead⟩
      | @exact _ edge q hmatch hk hq =>
        obtain ⟨c,hc,hlead⟩ := WildTrie.leads_cons.mp hlead
        have hlive := hlead.hasEntry hn
        refine .inr ⟨(edge, c),hc,fFollows_iff.mpr ⟨hmatch,hk,hlive⟩,?_⟩
        rw [nodes_matchChildren ihc _ _ _ (by simpa using hlive)]
        exact ⟨hn,c,List.mem_singleton_self c,q,hq,hlead⟩

theorem entriesSpec (pexpr : CExpression α γ) : EntriesSpec fAvailable pexpr := by
  induction h : sizeOf pexpr using Nat.strong_induction_on generalizing pexpr with
  | _ size ih =>
    subst h
    have ihc : ∀ c ∈ pexpr.pdrgpexpr, ∀ flags, ∀ v ∈ c.views flags, EntriesSpec fAvailable v :=
      fun c hc flags v hv =>
        ih _ ((CExpression.sizeOf_of_mem_views hv).trans_lt (sizeOf_child hc)) v rfl
    have below := entries_matchChildren (fun c _ _ v _ => nodesSpec v) ihc
    intro pnode x
    rw [mem_matchOne_entries,mem_matchInput_entries]
    constructor
    · rintro (⟨hx,hholds⟩ | ⟨edge,he,hf,hx⟩)
      · exact ⟨hx,_,.wild pexpr,hholds⟩
      · obtain ⟨hmatch,hk,hlive⟩ := fFollows_iff.mp hf
        rcases hx with hx | hx
        · obtain ⟨hmem,hok⟩ := List.mem_filter.mp hx
          exact ⟨hok,_,.head hmatch hk,
            WildTrie.holds_cons.mpr ⟨edge.2,he,WildTrie.holds_nil.mpr hmem⟩⟩
        · rw [below] at hx
          obtain ⟨hok,s,hs,q,hq,hholds⟩ := hx
          rw [List.mem_singleton.mp hs] at hholds
          exact ⟨hok,_,.inside hmatch hk hq,WildTrie.holds_cons.mpr ⟨edge.2,he,hholds⟩⟩
    · rintro ⟨hok,p,hp,hholds⟩
      cases hp with
      | wild => exact .inl ⟨hok,hholds⟩
      | @head _ edge hmatch hk =>
        obtain ⟨c,hc,hholds⟩ := WildTrie.holds_cons.mp hholds
        refine .inr ⟨(edge, c),hc,fFollows_iff.mpr ⟨hmatch,hk,hholds.hasEntry hok⟩,.inl ?_⟩
        exact List.mem_filter.mpr ⟨WildTrie.holds_nil.mp hholds,hok⟩
      | @inside _ edge q hmatch hk hq =>
        obtain ⟨c,hc,hholds⟩ := WildTrie.holds_cons.mp hholds
        refine .inr ⟨(edge, c),hc,fFollows_iff.mpr ⟨hmatch,hk,hholds.hasEntry hok⟩,.inr ?_⟩
        rw [below]
        exact ⟨hok,c,List.mem_singleton_self c,q,hq,hholds⟩

end Spec

/-! ## Candidates -/

/-- The loop that drops an entry of the rule just returned. -/
def skipRepeats : Option CDSLRule → List SRuleEntry → List CDSLRule
  | _, [] => []
  | prulePrevious, pentry :: pdrgpentry =>
    if prulePrevious.any (·.address == pentry.prule.address) then
      skipRepeats prulePrevious pdrgpentry
    else
      pentry.prule :: skipRepeats (some pentry.prule) pdrgpentry

namespace CDSLRulePrefixIndex

variable {α γ : Type}

def collectedEntries (index : CDSLRulePrefixIndex) (poctxt : Option COptCtxt)
    (pexpr : CExpression α γ) : List SRuleEntry :=
  availableEntries (fRuleAvailable poctxt) index.pnodeRoot ++
    (matchOne (fRuleAvailable poctxt) index.pnodeRoot pexpr).1

def pdrgpruleCandidates (index : CDSLRulePrefixIndex) (poctxt : Option COptCtxt)
    (pexpr : CExpression α γ) : List CDSLRule :=
  skipRepeats none
    ((index.collectedEntries poctxt pexpr).mergeSort fun a b => a.ulOrdinal ≤ b.ulOrdinal)

theorem mem_collectedEntries (index : CDSLRulePrefixIndex) (poctxt : Option COptCtxt)
    (pexpr : CExpression α γ) (x : SRuleEntry) :
    x ∈ index.collectedEntries poctxt pexpr ↔
      fRuleAvailable poctxt x = true ∧
        ∃ p, (p = [] ∨ Touches pexpr p) ∧ index.pnodeRoot.Holds p x := by
  simp only [collectedEntries,List.mem_append,availableEntries,List.mem_filter,
    entriesSpec pexpr index.pnodeRoot x]
  constructor
  · rintro (⟨hx,hok⟩ | ⟨hok,p,hp,hholds⟩)
    · exact ⟨hok,[],.inl rfl,WildTrie.holds_nil.mpr hx⟩
    · exact ⟨hok,p,.inr hp,hholds⟩
  · rintro ⟨hok,p,rfl | hp,hholds⟩
    · exact .inl ⟨WildTrie.holds_nil.mp hholds,hok⟩
    · exact .inr ⟨hok,p,hp,hholds⟩

/-- Which entries the walk over an index collects depends on each entry alone. -/
theorem mem_collectedEntries_build (eopidBucket : EOperatorId) (entries : List SRuleEntry)
    (poctxt : Option COptCtxt) (pexpr : CExpression α γ) (x : SRuleEntry) :
    x ∈ (build eopidBucket entries).collectedEntries poctxt pexpr ↔
      x ∈ entries ∧ fRuleAvailable poctxt x = true ∧
        (x.prule.path eopidBucket = [] ∨ Touches pexpr (x.prule.path eopidBucket)) := by
  simp only [mem_collectedEntries,holds_build]
  constructor
  · rintro ⟨hok,p,hp,hx,rfl⟩
    exact ⟨hx,hok,hp⟩
  · rintro ⟨hx,hok,hp⟩
    exact ⟨hok,_,hp,hx,rfl⟩

/-- Ordinals and objects tell the entries of a list apart. -/
structure Identified (entries : List SRuleEntry) : Prop where
  ordinal : ∀ x ∈ entries, ∀ y ∈ entries, x.ulOrdinal = y.ulOrdinal → x = y
  object : ∀ x ∈ entries, ∀ y ∈ entries, x.prule.address = y.prule.address → x = y

theorem Identified.subset {entries entries' : List SRuleEntry} (h : Identified entries)
    (hsub : ∀ x ∈ entries', x ∈ entries) : Identified entries' where
  ordinal x hx y hy := h.ordinal x (hsub x hx) y (hsub y hy)
  object x hx y hy := h.object x (hsub x hx) y (hsub y hy)

theorem identified_of_nodup {entries : List SRuleEntry}
    (hrules : (entries.map (·.prule.address)).Nodup)
    (hordinals : (entries.map (·.ulOrdinal)).Nodup) : Identified entries where
  ordinal _ hx _ hy := List.inj_on_of_nodup_map hordinals hx hy
  object _ hx _ hy := List.inj_on_of_nodup_map hrules hx hy

/-- On a sorted list the loop keeps one entry of each rule, in order, except for the one of the rule
that was returned last. -/
theorem skipRepeats_spec (entries : List SRuleEntry) (last : Option SRuleEntry)
    (hsorted : (last.toList ++ entries).Pairwise fun a b => a.ulOrdinal ≤ b.ulOrdinal)
    (hid : Identified (last.toList ++ entries)) :
    ∃ kept : List SRuleEntry, skipRepeats (last.map (·.prule)) entries = kept.map (·.prule) ∧
      kept.Pairwise (fun a b => a.ulOrdinal < b.ulOrdinal) ∧
      ∀ x, x ∈ kept ↔ x ∈ entries ∧ last ≠ some x := by
  induction entries generalizing last with
  | nil => exact ⟨[],rfl,.nil,by simp⟩
  | cons x xs ih =>
    by_cases hlast : last = some x
    · subst hlast
      obtain ⟨kept,heq,hpair,hmem⟩ := ih (some x) (List.Pairwise.of_cons hsorted)
        (hid.subset fun y hy => List.mem_cons_of_mem _ hy)
      refine ⟨kept,?_,hpair,fun y => ?_⟩
      · simpa [skipRepeats] using heq
      · simp only [hmem,List.mem_cons]
        grind
    · have hnew : (last.map (·.prule)).any (·.address == x.prule.address) = false := by
        cases last with
        | none => rfl
        | some z =>
          have : z.prule.address ≠ x.prule.address := fun h =>
            hlast (congrArg some (hid.object z (by simp) x (by simp) h))
          simpa using this
      have hsorted' := (List.pairwise_append.mp hsorted).2.1
      obtain ⟨kept,heq,hpair,hmem⟩ := ih (some x) (by simpa using hsorted')
        (hid.subset fun y hy => List.mem_append_right _ hy)
      refine ⟨x :: kept,?_,?_,fun y => ?_⟩
      · simpa [skipRepeats,hnew] using heq
      · refine List.pairwise_cons.mpr ⟨fun y hy => ?_,hpair⟩
        obtain ⟨hy,hne⟩ := (hmem y).mp hy
        refine UInt32.lt_of_le_of_ne (List.rel_of_pairwise_cons hsorted' hy) fun h => hne ?_
        exact congrArg some (hid.ordinal x (by simp) y (by simp [hy]) h)
      · have hback : y ∈ xs → last = some y → x = y := by
          rintro hy rfl
          have hle := (List.pairwise_append.mp hsorted).2.2 y (by simp) x (by simp)
          have hge := List.rel_of_pairwise_cons hsorted' hy
          exact hid.ordinal x (by simp) y (by simp [hy]) (UInt32.le_antisymm hge hle)
        simp only [hmem,List.mem_cons]
        grind

theorem pairwise_mergeSort_ordinal (entries : List SRuleEntry) :
    (entries.mergeSort fun a b => a.ulOrdinal ≤ b.ulOrdinal).Pairwise
      fun a b => a.ulOrdinal ≤ b.ulOrdinal := by
  have h := @List.pairwise_mergeSort SRuleEntry (fun a b => a.ulOrdinal ≤ b.ulOrdinal)
    (by simpa using fun a b c => UInt32.le_trans) (by simpa using fun a b => UInt32.le_total _ _)
    entries
  simpa using h

/-- The candidates are the rules of the collected entries, each once and by rising ordinal. -/
theorem pdrgpruleCandidates_spec (index : CDSLRulePrefixIndex) (poctxt : Option COptCtxt)
    (pexpr : CExpression α γ) (hid : Identified (index.collectedEntries poctxt pexpr)) :
    ∃ kept : List SRuleEntry, index.pdrgpruleCandidates poctxt pexpr = kept.map (·.prule) ∧
      kept.Pairwise (fun a b => a.ulOrdinal < b.ulOrdinal) ∧
      ∀ x, x ∈ kept ↔ x ∈ index.collectedEntries poctxt pexpr := by
  obtain ⟨kept,heq,hpair,hmem⟩ := skipRepeats_spec
    ((index.collectedEntries poctxt pexpr).mergeSort fun a b => a.ulOrdinal ≤ b.ulOrdinal) none
    (pairwise_mergeSort_ordinal _) (hid.subset fun x hx => List.mem_mergeSort.mp hx)
  exact ⟨kept,heq,hpair,fun x => by simp [hmem,List.mem_mergeSort]⟩

/-- The scan that asks an index of its own for every rule, in the order of the ordinals. -/
def linearScan (eopidBucket : EOperatorId) (entries : List SRuleEntry)
    (poctxt : Option COptCtxt) (pexpr : CExpression α γ) : List CDSLRule :=
  ((entries.mergeSort fun a b => a.ulOrdinal ≤ b.ulOrdinal).filter fun pentry =>
    fRuleAvailable poctxt pentry &&
      ((build eopidBucket [pentry]).pdrgpruleCandidates poctxt pexpr).any
        (·.address == pentry.prule.address)).map (·.prule)

theorem mem_candidates_single (eopidBucket : EOperatorId) (pentry : SRuleEntry)
    (poctxt : Option COptCtxt) (pexpr : CExpression α γ) :
    ((build eopidBucket [pentry]).pdrgpruleCandidates poctxt pexpr).any
        (·.address == pentry.prule.address) = true ↔
      pentry ∈ (build eopidBucket [pentry]).collectedEntries poctxt pexpr := by
  have honly : ∀ x ∈ (build eopidBucket [pentry]).collectedEntries poctxt pexpr, x = pentry :=
    fun x hx => List.mem_singleton.mp ((mem_collectedEntries_build _ _ _ _ _).mp hx).1
  have hid : Identified ((build eopidBucket [pentry]).collectedEntries poctxt pexpr) :=
    ⟨fun x hx y hy _ => (honly x hx).trans (honly y hy).symm,
      fun x hx y hy _ => (honly x hx).trans (honly y hy).symm⟩
  obtain ⟨kept,heq,-,hmem⟩ := pdrgpruleCandidates_spec _ poctxt pexpr hid
  simp only [heq,List.any_map,List.any_eq_true,Function.comp,beq_iff_eq]
  constructor
  · rintro ⟨x,hx,-⟩
    have hx := (hmem x).mp hx
    exact honly x hx ▸ hx
  · intro h
    exact ⟨pentry,(hmem pentry).mpr h,rfl⟩

/-- The index answers what the linear scan answers: the same rules, in the same order. -/
theorem pdrgpruleCandidates_eq_linearScan (eopidBucket : EOperatorId) (entries : List SRuleEntry)
    (hrules : (entries.map (·.prule.address)).Nodup)
    (hordinals : (entries.map (·.ulOrdinal)).Nodup) (poctxt : Option COptCtxt)
    (pexpr : CExpression α γ) :
    (build eopidBucket entries).pdrgpruleCandidates poctxt pexpr =
      linearScan eopidBucket entries poctxt pexpr := by
  have hid := identified_of_nodup hrules hordinals
  obtain ⟨kept,heq,hpair,hmem⟩ := pdrgpruleCandidates_spec (build eopidBucket entries) poctxt
    pexpr (hid.subset fun x hx => ((mem_collectedEntries_build _ _ _ _ _).mp hx).1)
  have hentries : entries.Nodup := List.Nodup.of_map _ hordinals
  have hkept : kept.Nodup := by
    refine List.Pairwise.imp ?_ hpair
    intro a b hlt hab
    exact UInt32.lt_irrefl _ (hab ▸ hlt)
  -- Two lists that are sorted by ordinal agree once they have the same members.
  rw [heq,linearScan]
  congr 1
  apply @List.Perm.eq_of_pairwise SRuleEntry (fun a b => a.ulOrdinal ≤ b.ulOrdinal)
  · intro a b ha hb hab hba
    rw [hmem,mem_collectedEntries_build] at ha
    have hb := List.mem_mergeSort.mp (List.mem_filter.mp hb).1
    exact hid.ordinal a ha.1 b hb (UInt32.le_antisymm hab hba)
  · exact hpair.imp UInt32.le_of_lt
  · exact (pairwise_mergeSort_ordinal entries).filter _
  · rw [List.perm_ext_iff_of_nodup hkept
      (List.Nodup.filter _ ((List.mergeSort_perm entries _).nodup_iff.mpr hentries))]
    intro x
    simp only [hmem,List.mem_filter,List.mem_mergeSort,Bool.and_eq_true,mem_candidates_single,
      mem_collectedEntries_build,List.mem_singleton]
    tauto

end CDSLRulePrefixIndex

/-! A join of joins and a join share the first edge of their paths; the live join of two tables has
the second one as its only candidate. -/

namespace SharedPrefix

def input : CDSLOp :=
  .node .input false [] []

def joined (left right : CDSLOp) : CDSLOp :=
  .node .innerJoin false [] [left, right]

def library : List SRuleEntry :=
  [⟨⟨10, joined (joined input input) input, false, 1⟩, 0⟩, ⟨⟨11, joined input input, false, 2⟩, 1⟩]

def table (id : ℕ) : CExpression Unit Unit :=
  .node ⟨.logical id, .global, ()⟩ none []

def live : CExpression Unit Unit :=
  .node ⟨.logicalInnerJoin, .global, ()⟩ none
    [table 0, table 1, .node ⟨.scalar 0, .global, ()⟩ none []]

theorem shared_prefix_scan :
    (library.map (·.prule.address)).Nodup ∧ (library.map (·.ulOrdinal)).Nodup ∧
      (CDSLRulePrefixIndex.build .logicalInnerJoin library).pdrgpruleCandidates none live =
        CDSLRulePrefixIndex.linearScan .logicalInnerJoin library none live ∧
      ((CDSLRulePrefixIndex.build .logicalInnerJoin library).pdrgpruleCandidates none live).map
        (·.address) = [11] :=
  ⟨by decide,by decide,
    CDSLRulePrefixIndex.pdrgpruleCandidates_eq_linearScan _ library (by decide) (by decide) none
      live,by decide +kernel⟩

end SharedPrefix

end PgOrca.Index
