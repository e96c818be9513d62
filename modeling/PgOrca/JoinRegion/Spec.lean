import Mathlib

/-!
# The join region specification

Inputs are numbered from left to right, and an edge is listed after all edges below it. An edge has
the nodes that must be present before it (its TES) and conflict rules.
-/

namespace PgOrca

inductive JoinType where
  | inner
  | leftOuter
  | leftSemi
  | leftAntiSemi
  | leftAntiSemiNotIn
  | fullOuter
  | rightOuter
  deriving DecidableEq, Repr

class ScalarPredicate (P : Type*) where
  usedColumns : P → Finset ℕ
  fNullRejecting : P → Finset ℕ → Bool

structure CAtom where
  outputColumns : Finset ℕ
  outerReferences : Finset ℕ
  deriving DecidableEq

/-- A relational expression as `PbsCollect` sees it: a supported join with its
three children, or anything else. The comparison marks the raw part of a
qualified NOT IN predicate. -/
inductive CExpression (P : Type*) where
  | atom (input : CAtom)
  | join (joinType : JoinType) (left right : CExpression P) (predicate : P)
      (comparison : Option P)

structure CConflictRule where
  activate : Finset ℕ
  required : Finset ℕ
  deriving DecidableEq

/-- `ses` and `tes` are null until `BuildEligibility` has run on the edge. -/
structure CEdge (P : Type*) where
  joinType : JoinType
  left : Finset ℕ
  right : Finset ℕ
  ses : Option (Finset ℕ)
  tes : Option (Finset ℕ)
  predicate : P
  notinComparison : Option P
  conflictRules : List CConflictRule

structure CJoinRegionSpec (P : Type*) where
  atoms : List CAtom
  edges : List (CEdge P)
  dependencies : List (Finset ℕ)
  pureInner : Bool
  cdcSupported : Bool
  externalDependencies : Bool
  dependencyCount : ℕ

namespace CConflictRule

def Holds (rule : CConflictRule) (nodes : Finset ℕ) : Prop :=
  ¬ Disjoint nodes rule.activate → rule.required ⊆ nodes

instance (rule : CConflictRule) (nodes : Finset ℕ) : Decidable (rule.Holds nodes) :=
  inferInstanceAs (Decidable (_ → _))

end CConflictRule

namespace CEdge

variable {P : Type*}

def new (joinType : JoinType) (left right : Finset ℕ) (predicate : P)
    (notinComparison : Option P) : CEdge P :=
  ⟨joinType, left, right, none, none, predicate, notinComparison, []⟩

variable (edge : CEdge P)

def all : Finset ℕ := edge.left ∪ edge.right

variable (tes left right : Finset ℕ)

/-- The tests of `FApplicable` that do not depend on the orientation. -/
def tesApplicable : Bool :=
  Disjoint left right ∧ tes ⊆ left ∪ right ∧ ¬ Disjoint tes left ∧ ¬ Disjoint tes right ∧
    ∀ rule ∈ edge.conflictRules, rule.Holds (left ∪ right)

def tesOriented : Bool :=
  ∀ node ∈ tes, (node ∈ edge.left → node ∈ left) ∧ (node ∈ edge.right → node ∈ right)

def fApplicable (left right : Finset ℕ) : Bool :=
  match edge.tes with
  -- the source asserts that the TES has been computed
  | none => false
  | some tes =>
    edge.tesApplicable tes left right &&
      (edge.joinType = .inner || edge.tesOriented tes left right)

/-- What a positive answer of `FApplicable` says about the two inputs. -/
structure Connecting (edge : CEdge P) (tes left right : Finset ℕ) : Prop where
  disjoint : Disjoint left right
  tes_subset : tes ⊆ left ∪ right
  meets_left : ¬ Disjoint tes left
  meets_right : ¬ Disjoint tes right
  rules : ∀ rule ∈ edge.conflictRules, rule.Holds (left ∪ right)
  oriented : edge.joinType = .inner ∨
    ∀ node ∈ tes, (node ∈ edge.left → node ∈ left) ∧ (node ∈ edge.right → node ∈ right)

theorem fApplicable_eq_true {edge : CEdge P} {left right : Finset ℕ}
    (h : edge.fApplicable left right = true) :
    ∃ tes, edge.tes = some tes ∧ edge.Connecting tes left right := by
  unfold fApplicable at h
  split at h
  · cases h
  case h_2 tes htes =>
    simp only [tesApplicable,tesOriented,Bool.and_eq_true,Bool.or_eq_true,decide_eq_true_eq] at h
    obtain ⟨⟨hd,hsub,hl,hr,hrl⟩,hori⟩ := h
    exact ⟨tes,htes,hd,hsub,hl,hr,hrl,hori⟩

end CEdge

namespace CJoinRegionSpec

variable {P : Type*}

def new : CJoinRegionSpec P := ⟨[], [], [], true, true, false, 0⟩

variable (spec : CJoinRegionSpec P)

def nodeCount : ℕ := spec.atoms.length

def edgeCount : ℕ := spec.edges.length

def hasDependencies : Bool := 0 < spec.dependencyCount

def fCDCSupportedJoin : JoinType → Bool
  | .rightOuter => false
  | _ => true

def fInnerJoin (joinType : JoinType) : Bool := joinType = .inner

/-- The node set of the expression; atoms and edges are appended to the specification. -/
def pbsCollect : CExpression P → CJoinRegionSpec P → Finset ℕ × CJoinRegionSpec P
  | .atom input, spec => ({spec.nodeCount}, { spec with atoms := spec.atoms ++ [input] })
  | .join joinType l r predicate comparison, spec =>
    let (left, spec) := pbsCollect l spec
    let (right, spec) := pbsCollect r spec
    let comparison := if joinType = .leftAntiSemiNotIn then comparison else none
    (left ∪ right,
      { spec with
        edges := spec.edges ++ [CEdge.new joinType left right predicate comparison]
        pureInner := spec.pureInner && fInnerJoin joinType
        cdcSupported := spec.cdcSupported && fCDCSupportedJoin joinType })

section

variable [ScalarPredicate P] (atoms : List CAtom)

def outputColumns (node : ℕ) : Finset ℕ := (atoms.map CAtom.outputColumns).getD node ∅

def pbsPredicateCover (predicate : P) : Finset ℕ :=
  (Finset.range atoms.length).filter fun node =>
    ¬ Disjoint (ScalarPredicate.usedColumns predicate) (outputColumns atoms node)

def pcrsNodes (nodes : Finset ℕ) : Finset ℕ := nodes.biUnion (outputColumns atoms)

def fNullRejecting (edge : CEdge P) (nodes : Finset ℕ) : Bool :=
  ScalarPredicate.fNullRejecting edge.predicate (pcrsNodes atoms nodes)

variable (left right : CEdge P)

def fAssociative : Bool :=
  if (left.joinType = .leftOuter ∨ left.joinType = .fullOuter) ∧ right.joinType = .leftOuter then
    fNullRejecting atoms right right.left
  else if left.joinType = .fullOuter ∧ right.joinType = .fullOuter then
    fNullRejecting atoms left left.right && fNullRejecting atoms right right.left
  else fInnerJoin left.joinType && right.joinType ≠ .fullOuter

def fLeftAsscom : Bool :=
  if left.joinType = .leftOuter then
    right.joinType ≠ .fullOuter || fNullRejecting atoms left left.left
  else if left.joinType = .fullOuter then
    if right.joinType = .leftOuter then fNullRejecting atoms right right.right
    else if right.joinType = .fullOuter then
      fNullRejecting atoms left left.left && fNullRejecting atoms right right.left
    else false
  else right.joinType ≠ .fullOuter

def fRightAsscom : Bool :=
  if left.joinType = .fullOuter ∧ right.joinType = .fullOuter then
    fNullRejecting atoms left left.right && fNullRejecting atoms right right.right
  else fInnerJoin left.joinType && fInnerJoin right.joinType

def pbsIntersectIfNotDegenerate (used available : Finset ℕ) : Finset ℕ :=
  if used ∩ available = ∅ then available else used ∩ available

/-- Once a node right of `child` is present, its left side has to be reached. -/
def rightNeedsLeft (child : CEdge P) : CConflictRule :=
  ⟨child.right, pbsIntersectIfNotDegenerate (child.ses.getD ∅) child.left⟩

def leftNeedsRight (child : CEdge P) : CConflictRule :=
  ⟨child.left, pbsIntersectIfNotDegenerate (child.ses.getD ∅) child.right⟩

/-- The rules that the edge `child`, listed before `edge`, contributes. -/
def childRules (edge child : CEdge P) : List CConflictRule :=
  if child.all ⊆ edge.left then
    (if fAssociative atoms child edge then [] else [rightNeedsLeft child]) ++
      (if fLeftAsscom atoms child edge then [] else [leftNeedsRight child])
  else if child.all ⊆ edge.right then
    (if fAssociative atoms edge child then [] else [leftNeedsRight child]) ++
      (if fRightAsscom atoms edge child then [] else [rightNeedsLeft child])
  else []

end

structure SEligibility where
  tes : Finset ℕ
  conflictRules : List CConflictRule

namespace SEligibility

def absorbRule (state : Bool × Finset ℕ) (rule : CConflictRule) : Bool × Finset ℕ :=
  if rule.Holds state.2 then state else (true, state.2 ∪ rule.required)

def absorbPass (rules : List CConflictRule) (tes : Finset ℕ) : Bool × Finset ℕ :=
  rules.foldl absorbRule (false, tes)

/-- The `while (changed)` loop. A pass that changes the TES satisfies one more
rule for good, so a bound above the number of rules is never reached. -/
def absorbLoop (rules : List CConflictRule) : ℕ → Finset ℕ → Finset ℕ
  | 0, tes => tes
  | fuel + 1, tes =>
    let (changed, tes) := absorbPass rules tes
    if changed then absorbLoop rules fuel tes else tes

def absorbConflictRules (s : SEligibility) : SEligibility :=
  let tes := absorbLoop s.conflictRules (s.conflictRules.length + 1) s.tes
  ⟨tes, s.conflictRules.filter fun rule => ¬ rule.required ⊆ tes⟩

/-- A side of the edge that the TES does not touch is added as a whole. -/
def coverSide (side : Finset ℕ) (s : SEligibility) : SEligibility :=
  if Disjoint s.tes side then absorbConflictRules { s with tes := s.tes ∪ side } else s

end SEligibility

section

variable [ScalarPredicate P] (atoms : List CAtom)

def buildEligibility (earlier : List (CEdge P)) (edge : CEdge P) : CEdge P :=
  let ses := pbsPredicateCover atoms edge.predicate
  let rules := earlier.flatMap (childRules atoms edge)
  let s := (SEligibility.absorbConflictRules ⟨ses, rules⟩).coverSide edge.left
  let s := s.coverSide edge.right
  { edge with ses := some ses, tes := some s.tes, conflictRules := s.conflictRules }

def buildEligibilities (edges : List (CEdge P)) : List (CEdge P) :=
  edges.foldl (fun earlier edge => earlier ++ [buildEligibility atoms earlier edge]) []

structure SProviders where
  unresolved : Finset ℕ
  providers : List ℕ

def resolveProvider (node : ℕ) (s : SProviders) (provider : ℕ) : SProviders :=
  let outputs := outputColumns atoms provider
  if provider = node ∨ Disjoint s.unresolved outputs then s
  else ⟨s.unresolved \ outputs, s.providers ++ [provider]⟩

def resolveProviders (node : ℕ) : SProviders :=
  let unresolved := (atoms.map CAtom.outerReferences).getD node ∅
  (List.range atoms.length).foldl (resolveProvider atoms node) ⟨unresolved, []⟩

def buildDependencies : CJoinRegionSpec P :=
  let resolved := (List.range spec.nodeCount).map (resolveProviders spec.atoms)
  { spec with
    dependencies := resolved.map fun s => s.providers.toFinset
    externalDependencies := resolved.any fun s => s.unresolved ≠ ∅
    dependencyCount := (resolved.map fun s => s.providers.length).sum }

def fValid (nodes : Finset ℕ) (spec : CJoinRegionSpec P) : Bool :=
  2 ≤ spec.nodeCount ∧ spec.edgeCount ≠ 0 ∧ nodes.card = spec.nodeCount

/-- The part of `Build` after `PbsCollect`; `none` where the source returns false. -/
def buildCollected (nodes : Finset ℕ) (spec : CJoinRegionSpec P) : Option (CJoinRegionSpec P) :=
  if ¬ fValid nodes spec then none
  else
    let spec := buildDependencies spec
    some (if spec.cdcSupported then
      { spec with edges := buildEligibilities spec.atoms spec.edges } else spec)

def build : CExpression P → Option (CJoinRegionSpec P)
  | .atom _ => none
  | root => buildCollected (pbsCollect root new).1 (pbsCollect root new).2

end

end CJoinRegionSpec

end PgOrca
