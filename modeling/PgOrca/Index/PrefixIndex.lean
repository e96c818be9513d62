import PgOrca.Library.WildTrie

/-!
# The prefix index of source templates

The rules of one bucket are stored in a trie of their source templates: an exact edge stands for a
template operator with its number of relational children, the wildcard edge for `Input`. This module
models how a rule is compiled to a path of the trie and inserted there.

A node is owned by the one edge that leads to it, so a node pointer is modelled by the path from
the root.
-/

namespace PgOrca.Index

/-! ## Operators -/

/-- The operator identifiers that the index names; the others are kept apart by their number. -/
inductive EOperatorId
  | logicalSelect | logicalUnion | logicalUnionAll | logicalIntersect | logicalIntersectAll
  | logicalDifference | logicalDifferenceAll | logicalInnerJoin | logicalLeftOuterJoin
  | logicalLeftSemiJoin | logicalLeftAntiSemiJoin | logicalLeftAntiSemiJoinNotIn
  | logicalFullOuterJoin | logicalGbAgg | logicalGbAggDeduplicate | logicalLimit | logicalProject
  | logicalInnerApply | logicalInnerCorrelatedApply | logicalLeftOuterApply
  | logicalLeftOuterCorrelatedApply | logicalLeftSemiApply | logicalLeftSemiCorrelatedApply
  | logicalLeftSemiApplyIn | logicalLeftSemiCorrelatedApplyIn | logicalLeftAntiSemiApply
  | logicalLeftAntiSemiCorrelatedApply | logicalLeftAntiSemiApplyNotIn
  | logicalLeftAntiSemiCorrelatedApplyNotIn | logicalConstTableGet | logicalCTEAnchor
  | logicalCTEConsumer | logicalSequenceProject | logicalAssert | logicalMaxOneRow
  | logical (id : ℕ)
  | scalarSubquery | scalarSubqueryAny | scalarSubqueryAll | scalarSubqueryExists
  | scalarSubqueryNotExists
  | scalar (id : ℕ)
  | physical (id : ℕ)
  | sentinel
  deriving DecidableEq, Repr

namespace EOperatorId

def fScalar : EOperatorId → Bool
  | scalarSubquery | scalarSubqueryAny | scalarSubqueryAll | scalarSubqueryExists
  | scalarSubqueryNotExists | scalar _ => true
  | _ => false

def fSubquery : EOperatorId → Bool
  | scalarSubquery | scalarSubqueryAny | scalarSubqueryAll | scalarSubqueryExists
  | scalarSubqueryNotExists => true
  | _ => false

end EOperatorId

inductive EGbAggType
  | global | local | intermediate
  deriving DecidableEq, Repr

/-- A live operator: what the index reads of it, and the rest, which only `Matches` compares. -/
structure COperator (α : Type) where
  eopid : EOperatorId
  egbaggtype : EGbAggType
  args : α
  deriving DecidableEq, Repr

/-! ## Rules -/

inductive EDslOpKind
  | input | innerJoin | leftJoin | filter | inSubFilter | exists | notExists | proj | agg | sort
  | limit | union | compute | any | all | empty | semiJoin | semiApply | antiJoin | antiApply
  | innerApply | leftOuterApply | antiJoinNotIn | antiApplyNotIn | windowRows | windowFrame
  | maxOneRow | assertMaxOneRow | intersect | except | rowNumber | fullJoin | cteConsumer
  | cteAnchor
  deriving DecidableEq, Repr

/-- A template over the rule's symbols, which are told apart by their names. -/
inductive CDSLOp
  | node (edslop : EDslOpKind) (fDistinct : Bool) (pdrgpsym : List String)
      (pdrgpchild : List CDSLOp)

namespace CDSLOp

def edslop : CDSLOp → EDslOpKind
  | node edslop _ _ _ => edslop

def fDistinct : CDSLOp → Bool
  | node _ fDistinct _ _ => fDistinct

def pdrgpchild : CDSLOp → List CDSLOp
  | node _ _ _ pdrgpchild => pdrgpchild

/-- The operator table: the live operator that a template operator stands for. -/
def eopidOf : EDslOpKind → Bool → EOperatorId
  | .filter, _ => .logicalSelect
  | .proj, fDistinct => if fDistinct then .logicalGbAgg else .logicalProject
  | .compute, _ => .logicalProject
  | .innerJoin, _ => .logicalInnerJoin
  | .leftJoin, _ => .logicalLeftOuterJoin
  | .fullJoin, _ => .logicalFullOuterJoin
  | .semiJoin, _ => .logicalLeftSemiJoin
  | .semiApply, _ => .logicalLeftSemiApply
  | .antiJoin, _ => .logicalLeftAntiSemiJoin
  | .antiApply, _ => .logicalLeftAntiSemiApply
  | .antiJoinNotIn, _ => .logicalLeftAntiSemiJoinNotIn
  | .antiApplyNotIn, _ => .logicalLeftAntiSemiApplyNotIn
  | .innerApply, _ => .logicalInnerApply
  | .leftOuterApply, _ => .logicalLeftOuterApply
  | .agg, _ => .logicalGbAgg
  | .exists, _ => .logicalLeftSemiApply
  | .notExists, _ => .logicalLeftAntiSemiApply
  | .inSubFilter, _ => .logicalLeftSemiApplyIn
  | .any, _ => .logicalLeftSemiApplyIn
  | .all, _ => .logicalLeftAntiSemiApplyNotIn
  | .union, fDistinct => if fDistinct then .logicalUnion else .logicalUnionAll
  | .intersect, fDistinct => if fDistinct then .logicalIntersect else .logicalIntersectAll
  | .except, fDistinct => if fDistinct then .logicalDifference else .logicalDifferenceAll
  | .sort, _ | .limit, _ => .logicalLimit
  | .windowRows, _ | .windowFrame, _ | .rowNumber, _ => .logicalSequenceProject
  | .maxOneRow, _ => .logicalMaxOneRow
  | .assertMaxOneRow, _ => .logicalAssert
  | .empty, _ => .logicalConstTableGet
  | .cteConsumer, _ => .logicalCTEConsumer
  | .cteAnchor, _ => .logicalCTEAnchor
  | .input, _ => .sentinel

def eopid (pop : CDSLOp) : EOperatorId :=
  eopidOf pop.edslop pop.fDistinct

/-- The first operator below a chain of `Filter`s. -/
def popFilterBase : CDSLOp → CDSLOp
  | node .filter _ _ [child] => popFilterBase child
  | pop => pop

def popAfterProjectChain : CDSLOp → CDSLOp
  | node .proj _ _ [child] => popAfterProjectChain child
  | pop => pop

def fCompensationChainEndsInLeftApply : CDSLOp → Bool
  | node .proj _ _ [child] | node .agg _ _ [child] => fCompensationChainEndsInLeftApply child
  | pop => pop.edslop == .leftOuterApply

end CDSLOp

/-- A loaded rule. Rules are compared as objects, by `address`; `popRoot` is the root of the source
fragment. -/
structure CDSLRule where
  address : ℕ
  popRoot : CDSLOp
  fHasBindings : Bool
  ulSourceLine : UInt32

structure SRuleEntry where
  prule : CDSLRule
  ulOrdinal : UInt32

/-! ## Edges and nodes -/

structure EAdapterFlags where
  projectPeelLimit : Bool
  projectPeelAgg : Bool
  gbAggGlobal : Bool
  nullRejectedInnerJoin : Bool
  gbAggHasSubquery : Bool
  gbAggPeelProject : Bool
  deriving DecidableEq, Repr

def EAdapterFlags.none : EAdapterFlags :=
  ⟨false, false, false, false, false, false⟩

structure SExactEdge where
  eopid : EOperatorId
  ulChildren : ℕ
  ulAdapterFlags : EAdapterFlags
  deriving DecidableEq, Repr

abbrev SNode := WildTrie SExactEdge SRuleEntry

/-- The steps from the root to a node. -/
abbrev PNode := List (WildTrie.Step SExactEdge)

namespace SExactEdge

variable {α : Type}

/-- The live operators that a matcher accepts in place of the operator of the edge. -/
def fView (pedge : SExactEdge) (pop : COperator α) : Bool :=
  let fNullRejectedInnerView :=
    pedge.ulAdapterFlags.nullRejectedInnerJoin && pedge.eopid == .logicalInnerJoin &&
      (pop.eopid == .logicalLeftOuterJoin || pop.eopid == .logicalFullOuterJoin)
  let fDedupAggView := pedge.eopid == .logicalGbAgg && pop.eopid == .logicalGbAggDeduplicate
  let fCorrelatedNotInApplyView :=
    pedge.eopid == .logicalLeftAntiSemiApplyNotIn &&
      pop.eopid == .logicalLeftAntiSemiCorrelatedApplyNotIn
  let fSemiApplyView :=
    pedge.eopid == .logicalLeftSemiApply &&
      (pop.eopid == .logicalLeftSemiCorrelatedApply || pop.eopid == .logicalLeftSemiApplyIn ||
        pop.eopid == .logicalLeftSemiCorrelatedApplyIn)
  let fAntiApplyView :=
    pedge.eopid == .logicalLeftAntiSemiApply && pop.eopid == .logicalLeftAntiSemiCorrelatedApply
  let fCorrelatedJoinApplyView :=
    (pedge.eopid == .logicalInnerApply && pop.eopid == .logicalInnerCorrelatedApply) ||
      (pedge.eopid == .logicalLeftOuterApply && pop.eopid == .logicalLeftOuterCorrelatedApply)
  fNullRejectedInnerView || fDedupAggView || fCorrelatedNotInApplyView || fSemiApplyView ||
    fAntiApplyView || fCorrelatedJoinApplyView

def fEdgeMatchesOperator (pedge : SExactEdge) (pop : COperator α) (fGbAggHasSubquery : Bool) :
    Bool :=
  if pedge.eopid != pop.eopid && !pedge.fView pop then
    false
  else if pedge.ulAdapterFlags.gbAggHasSubquery && !fGbAggHasSubquery then
    false
  else if !pedge.ulAdapterFlags.gbAggGlobal && !pedge.ulAdapterFlags.gbAggHasSubquery then
    true
  else
    !pedge.ulAdapterFlags.gbAggGlobal || pop.egbaggtype == .global

end SExactEdge

/-! ## Compiling a source template -/

def fStructurallyExact : EDslOpKind → Bool
  | .input | .innerJoin | .leftJoin | .fullJoin | .union | .intersect | .except | .compute
  | .empty | .semiJoin | .semiApply | .antiJoin | .antiApply | .antiJoinNotIn | .antiApplyNotIn
  | .innerApply | .leftOuterApply | .windowRows | .windowFrame | .rowNumber | .maxOneRow
  | .assertMaxOneRow | .cteConsumer | .cteAnchor => true
  | .filter | .inSubFilter | .exists | .notExists | .any | .all | .proj | .agg | .sort
  | .limit => false

def pnodeInput (t : SNode) (pnode : PNode) : SNode × PNode :=
  let pnodeInput := pnode ++ [.wild]
  (t.grow pnodeInput, pnodeInput)

def pnodeExact (t : SNode) (pnode : PNode) (eopid : EOperatorId) (ulChildren : ℕ)
    (ulAdapterFlags : EAdapterFlags) : SNode × PNode :=
  let pnodeChild := pnode ++ [.exact ⟨eopid, ulChildren, ulAdapterFlags⟩]
  (t.grow pnodeChild, pnodeChild)

mutual

/-- `PnodeInsertOp` below the source root: the trie with the nodes it created, the node it stopped
at and `*pfComplete`. -/
def pnodeInsertOp (t : SNode) (pnode : PNode) (ulAdapterFlags : EAdapterFlags) (fLiteral : Bool) :
    CDSLOp → SNode × PNode × Bool
  | .node edslop fDistinct pdrgpsym pdrgpchild =>
    if !fLiteral && !fStructurallyExact edslop then
      (t, pnode, false)
    else if edslop = .input then
      let (t, pnode) := pnodeInput t pnode
      (t, pnode, true)
    else
      let eopid := CDSLOp.eopidOf edslop fDistinct
      if eopid = .sentinel then
        (t, pnode, false)
      else
        let fDedup := fLiteral && edslop == .proj && fDistinct
        let fPeelProject :=
          fDedup && pdrgpsym.length == 3 && !pdrgpchild.head?.any (·.edslop == .input)
        let flags :=
          { ulAdapterFlags with
            gbAggGlobal := ulAdapterFlags.gbAggGlobal || fDedup
            gbAggPeelProject := ulAdapterFlags.gbAggPeelProject || fPeelProject }
        let (t, pnodeCurrent) := pnodeExact t pnode eopid pdrgpchild.length flags
        insertChildren t pnodeCurrent fLiteral pdrgpchild

def insertChildren (t : SNode) (pnodeCurrent : PNode) (fLiteral : Bool) :
    List CDSLOp → SNode × PNode × Bool
  | [] => (t, pnodeCurrent, true)
  | pop :: pops =>
    match pnodeInsertOp t pnodeCurrent .none fLiteral pop with
    | (t, pnodeCurrent, false) => (t, pnodeCurrent, false)
    | (t, pnodeCurrent, true) => insertChildren t pnodeCurrent fLiteral pops

end

/-- `PnodeInsertOp` at the source root, with the shells of the root adapters. -/
def pnodeInsertRoot (t : SNode) (pnode : PNode) (pop : CDSLOp) : SNode × PNode × Bool :=
  match pop with
  | .node .filter _ _ _ =>
    let popBase := pop.popFilterBase
    if popBase.edslop = .leftOuterApply then
      let (t, pnode) := pnodeExact t pnode .logicalSelect 0 .none
      (t, pnode, false)
    else
      let (t, pnodeCurrent) := pnodeExact t pnode .logicalSelect 1 .none
      let flags :=
        { EAdapterFlags.none with nullRejectedInnerJoin := popBase.edslop == .innerJoin }
      pnodeInsertOp t pnodeCurrent flags false popBase
  | .node .proj fDistinct _ [child] =>
    let popAfter := child.popAfterProjectChain
    if !fDistinct && (popAfter.edslop == .innerApply || popAfter.edslop == .leftOuterApply) then
      let (t, pnode) := pnodeExact t pnode pop.eopid 0 .none
      (t, pnode, false)
    else
      let flags :=
        { EAdapterFlags.none with
          gbAggGlobal := fDistinct
          projectPeelLimit := !fDistinct && child.edslop != .limit && child.edslop != .sort
          projectPeelAgg :=
            !fDistinct && child.edslop != .input && child.edslop != .proj &&
              child.edslop != .agg }
      let (t, pnodeCurrent) := pnodeExact t pnode pop.eopid 1 flags
      pnodeInsertOp t pnodeCurrent .none false child
  | .node .agg _ _ [child] =>
    if child.fCompensationChainEndsInLeftApply then
      let flags :=
        { EAdapterFlags.none with gbAggGlobal := true, gbAggHasSubquery := true }
      let (t, pnode) := pnodeExact t pnode .logicalGbAgg 0 flags
      (t, pnode, false)
    else
      let flags := { EAdapterFlags.none with gbAggGlobal := true }
      let (t, pnodeCurrent) := pnodeExact t pnode .logicalGbAgg 1 flags
      pnodeInsertOp t pnodeCurrent .none false child
  | _ => pnodeInsertOp t pnode .none false pop

/-- The index of one bucket: its root and `m_fFollowDSLSelectAlternatives`. -/
structure CDSLRulePrefixIndex where
  pnodeRoot : SNode
  fFollowDSLSelectAlternatives : Bool

namespace CDSLRulePrefixIndex

def empty : CDSLRulePrefixIndex :=
  ⟨WildTrie.empty, false⟩

end CDSLRulePrefixIndex

namespace CDSLRule

variable (prule : CDSLRule) (eopidBucket : EOperatorId)

def fDedupAggView : Bool :=
  prule.popRoot.edslop == .proj && prule.popRoot.fDistinct &&
    eopidBucket == .logicalGbAggDeduplicate

def fCorrelatedNotInApplyView : Bool :=
  prule.popRoot.edslop == .antiApplyNotIn &&
    eopidBucket == .logicalLeftAntiSemiCorrelatedApplyNotIn

/-- The second child of a two-child root is a `Filter`. -/
def fFilterBelow : Bool :=
  match prule.popRoot.pdrgpchild with
  | [_, pop] => pop.edslop == .filter
  | _ => false

def fSemiApplyView : Bool :=
  prule.popRoot.edslop == .semiApply && prule.fFilterBelow &&
    (eopidBucket == .logicalLeftSemiCorrelatedApply || eopidBucket == .logicalLeftSemiApplyIn ||
      eopidBucket == .logicalLeftSemiCorrelatedApplyIn)

def fAntiApplyView : Bool :=
  prule.popRoot.edslop == .antiApply && prule.fFilterBelow &&
    eopidBucket == .logicalLeftAntiSemiCorrelatedApply

def fCorrelatedApply : Bool :=
  (prule.popRoot.edslop == .innerApply && eopidBucket == .logicalInnerCorrelatedApply) ||
    (prule.popRoot.edslop == .leftOuterApply &&
      eopidBucket == .logicalLeftOuterCorrelatedApply) ||
    (prule.popRoot.edslop == .semiApply && eopidBucket == .logicalLeftSemiCorrelatedApply) ||
    (prule.popRoot.edslop == .antiApply && eopidBucket == .logicalLeftAntiSemiCorrelatedApply)

/-- The node a rule is stored at, the trie with the nodes created for it, and whether the whole
template was compiled. A rule that reaches its shell through another representation stays at the
root. -/
def pnodeTerminal (t : SNode) : SNode × PNode × Bool :=
  if (prule.popRoot.eopid == eopidBucket || prule.fCorrelatedApply eopidBucket) &&
      prule.fHasBindings then
    pnodeInsertOp t [] .none true prule.popRoot
  else if prule.popRoot.eopid == eopidBucket || prule.fDedupAggView eopidBucket ||
      prule.fCorrelatedNotInApplyView eopidBucket || prule.fSemiApplyView eopidBucket ||
      prule.fAntiApplyView eopidBucket then
    pnodeInsertRoot t [] prule.popRoot
  else
    (t, [], false)

end CDSLRule

namespace CDSLRulePrefixIndex

def insert (index : CDSLRulePrefixIndex) (prule : CDSLRule) (ulOrdinal : UInt32)
    (eopidBucket : EOperatorId) : CDSLRulePrefixIndex :=
  let (t, pnodeTerminal, _) := prule.pnodeTerminal eopidBucket index.pnodeRoot
  { pnodeRoot := t.store pnodeTerminal ⟨prule, ulOrdinal⟩
    fFollowDSLSelectAlternatives :=
      index.fFollowDSLSelectAlternatives || prule.fSemiApplyView eopidBucket ||
        prule.fAntiApplyView eopidBucket }

/-- The index of a bucket after its rules were inserted one after another. -/
def build (eopidBucket : EOperatorId) (entries : List SRuleEntry) : CDSLRulePrefixIndex :=
  entries.foldl (fun index entry => index.insert entry.prule entry.ulOrdinal eopidBucket) empty

end CDSLRulePrefixIndex

/-! ## What an insertion changes -/

/-- The node that a compilation stops at, relative to the node it starts from, and its
completeness do not depend on the trie, and the nodes it creates hold nothing. -/
def Compiles (compile : SNode → PNode → SNode × PNode × Bool) : Prop :=
  ∃ p ok, ∀ t pnode, ∃ t', compile t pnode = (t', pnode ++ p, ok) ∧
    ∀ q x, t'.Holds q x ↔ t.Holds q x

theorem compiles_stop (ok : Bool) : Compiles fun t pnode => (t, pnode, ok) :=
  ⟨[],ok,fun t _ => ⟨t,by simp,fun _ _ => Iff.rfl⟩⟩

theorem compiles_input : Compiles fun t pnode =>
    ((pnodeInput t pnode).1, (pnodeInput t pnode).2, true) :=
  ⟨[.wild],true,fun t _ => ⟨_,rfl,fun q x => WildTrie.holds_grow _ q t x⟩⟩

theorem compiles_exact {compile : SNode → PNode → SNode × PNode × Bool} (h : Compiles compile)
    (eopid : EOperatorId) (ulChildren : ℕ) (flags : EAdapterFlags) :
    Compiles fun t pnode =>
      compile (pnodeExact t pnode eopid ulChildren flags).1
        (pnodeExact t pnode eopid ulChildren flags).2 := by
  obtain ⟨p,ok,h⟩ := h
  refine ⟨.exact ⟨eopid,ulChildren,flags⟩ :: p,ok,fun t pnode => ?_⟩
  obtain ⟨t',heq,hholds⟩ := h (pnodeExact t pnode eopid ulChildren flags).1
    (pnodeExact t pnode eopid ulChildren flags).2
  refine ⟨t',heq.trans ?_,fun q x => ?_⟩
  · simp [pnodeExact]
  · simp [hholds,pnodeExact]

mutual

theorem compiles_insertOp (flags : EAdapterFlags) (fLiteral : Bool) :
    ∀ pop : CDSLOp, Compiles fun t pnode => pnodeInsertOp t pnode flags fLiteral pop
  | .node edslop fDistinct pdrgpsym pdrgpchild => by
    simp only [pnodeInsertOp]
    split
    · exact compiles_stop false
    · split
      · exact compiles_input
      · split
        · exact compiles_stop false
        · exact compiles_exact (compiles_insertChildren fLiteral pdrgpchild) _ _ _

theorem compiles_insertChildren (fLiteral : Bool) :
    ∀ pops : List CDSLOp, Compiles fun t pnode => insertChildren t pnode fLiteral pops
  | [] => by
    simp only [insertChildren]
    exact compiles_stop true
  | pop :: pops => by
    obtain ⟨p,ok,hp⟩ := compiles_insertOp .none fLiteral pop
    obtain ⟨q,ok',hq⟩ := compiles_insertChildren fLiteral pops
    cases ok with
    | false =>
      refine ⟨p,false,fun t pnode => ?_⟩
      obtain ⟨t',heq,hholds⟩ := hp t pnode
      exact ⟨t',by simp [insertChildren,heq],hholds⟩
    | true =>
      refine ⟨p ++ q,ok',fun t pnode => ?_⟩
      obtain ⟨t₁,heq₁,hholds₁⟩ := hp t pnode
      obtain ⟨t₂,heq₂,hholds₂⟩ := hq t₁ (pnode ++ p)
      exact ⟨t₂,by simp [insertChildren,heq₁,heq₂],fun r x => (hholds₂ r x).trans (hholds₁ r x)⟩

end

theorem compiles_insertRoot (pop : CDSLOp) :
    Compiles fun t pnode => pnodeInsertRoot t pnode pop := by
  unfold pnodeInsertRoot
  split
  · dsimp only
    split
    · exact compiles_exact (compiles_stop false) _ _ _
    · exact compiles_exact (compiles_insertOp _ _ _) _ _ _
  · dsimp only
    split
    · exact compiles_exact (compiles_stop false) _ _ _
    · exact compiles_exact (compiles_insertOp _ _ _) _ _ _
  · dsimp only
    split
    · exact compiles_exact (compiles_stop false) _ _ _
    · exact compiles_exact (compiles_insertOp _ _ _) _ _ _
  · exact compiles_insertOp _ _ _

namespace CDSLRule

theorem compiles_terminal (prule : CDSLRule) (eopidBucket : EOperatorId) :
    ∃ p ok, ∀ t, ∃ t', prule.pnodeTerminal eopidBucket t = (t', p, ok) ∧
      ∀ q x, t'.Holds q x ↔ t.Holds q x := by
  unfold pnodeTerminal
  split
  · obtain ⟨p,ok,h⟩ := compiles_insertOp .none true prule.popRoot
    exact ⟨p,ok,fun t => h t []⟩
  · split
    · obtain ⟨p,ok,h⟩ := compiles_insertRoot prule.popRoot
      exact ⟨p,ok,fun t => h t []⟩
    · exact ⟨[],false,fun t => ⟨t,rfl,fun _ _ => Iff.rfl⟩⟩

/-- The path that the rule is stored at in every trie of the bucket. -/
def path (prule : CDSLRule) (eopidBucket : EOperatorId) : PNode :=
  (prule.pnodeTerminal eopidBucket .empty).2.1

/-- The source was compiled to its end. -/
def fComplete (prule : CDSLRule) (eopidBucket : EOperatorId) : Bool :=
  (prule.pnodeTerminal eopidBucket .empty).2.2

theorem pnodeTerminal_eq (prule : CDSLRule) (eopidBucket : EOperatorId) (t : SNode) :
    ∃ t', prule.pnodeTerminal eopidBucket t =
        (t', prule.path eopidBucket, prule.fComplete eopidBucket) ∧
      ∀ q x, t'.Holds q x ↔ t.Holds q x := by
  obtain ⟨p,ok,h⟩ := prule.compiles_terminal eopidBucket
  obtain ⟨t₀,heq₀,-⟩ := h .empty
  obtain ⟨t',heq,hholds⟩ := h t
  exact ⟨t',by simp [path,fComplete,heq₀,heq],hholds⟩

end CDSLRule

namespace CDSLRulePrefixIndex

theorem holds_insert (index : CDSLRulePrefixIndex) (prule : CDSLRule) (ulOrdinal : UInt32)
    (eopidBucket : EOperatorId) (q : PNode) (x : SRuleEntry) :
    (index.insert prule ulOrdinal eopidBucket).pnodeRoot.Holds q x ↔
      index.pnodeRoot.Holds q x ∨ (q = prule.path eopidBucket ∧ x = ⟨prule, ulOrdinal⟩) := by
  obtain ⟨t',heq,hholds⟩ := prule.pnodeTerminal_eq eopidBucket index.pnodeRoot
  simp [insert,heq,WildTrie.holds_store,hholds]

theorem holds_foldl (eopidBucket : EOperatorId) (entries : List SRuleEntry)
    (index : CDSLRulePrefixIndex) (q : PNode) (x : SRuleEntry) :
    (entries.foldl (fun index entry => index.insert entry.prule entry.ulOrdinal eopidBucket)
        index).pnodeRoot.Holds q x ↔
      index.pnodeRoot.Holds q x ∨ (x ∈ entries ∧ q = x.prule.path eopidBucket) := by
  induction entries generalizing index with
  | nil => simp
  | cons entry entries ih =>
    rw [List.foldl_cons,ih,holds_insert]
    constructor
    · rintro ((h | ⟨hq,rfl⟩) | ⟨hx,hq⟩)
      · exact .inl h
      · exact .inr ⟨List.mem_cons_self,hq⟩
      · exact .inr ⟨List.mem_cons_of_mem _ hx,hq⟩
    · rintro (h | ⟨hx,hq⟩)
      · exact .inl (.inl h)
      · cases hx with
        | head => exact .inl (.inr ⟨hq,rfl⟩)
        | tail _ hx => exact .inr ⟨hx,hq⟩

/-- After the insertions the index holds each rule at its own path and nothing else. -/
theorem holds_build (eopidBucket : EOperatorId) (entries : List SRuleEntry) (q : PNode)
    (x : SRuleEntry) :
    (build eopidBucket entries).pnodeRoot.Holds q x ↔
      x ∈ entries ∧ q = x.prule.path eopidBucket := by
  have hempty : ¬ (empty : CDSLRulePrefixIndex).pnodeRoot.Holds q x := WildTrie.holds_empty
  simp [build,holds_foldl,hempty]

end CDSLRulePrefixIndex

end PgOrca.Index
