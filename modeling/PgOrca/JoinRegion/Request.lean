import PgOrca.JoinRegion.Spec

/-!
# Join requests of a region

`FBuildJoinRequest` checks sibling dependencies first; in a region with a non-inner join every
original edge is then tested in both orientations.
-/

namespace PgOrca

open List
open Option (some)

structure CDPHyperJoinRegion (P : Type*) where
  components : List CAtom
  conjuncts : List P
  spec : Option (CJoinRegionSpec P)

structure SApplicableEdge where
  edgeId : ℕ
  swapped : Bool
  deriving DecidableEq

structure SJoinRequest (P : Type*) where
  joinType : JoinType
  swapped : Bool
  dependencyDirectional : Bool
  notinComparison : Option P
  edgeIds : List ℕ

structure SDirection where
  swapped : Bool
  directional : Bool
  deriving DecidableEq

namespace SDirection

def free : SDirection := ⟨false, false⟩

end SDirection

namespace CJoinRegionSpec

variable {P : Type*}

def dependenciesOf (spec : CJoinRegionSpec P) (node : ℕ) : Finset ℕ :=
  spec.dependencies.getD node ∅

/-- The side a dependency of `node` reaches across, if it crosses the cut. -/
def crossing (required left right : Finset ℕ) (node : ℕ) : Option Bool :=
  if node ∈ left ∧ ¬ Disjoint right required then some true
  else if node ∈ right ∧ ¬ Disjoint left required then some false
  else none

def dependencyStep (spec : CJoinRegionSpec P) (left right : Finset ℕ) (direction : SDirection)
    (node : ℕ) : Option SDirection :=
  if node ∉ left ∪ right then some direction
  else if ¬ spec.dependenciesOf node ⊆ left ∪ right then none
  else
    match crossing (spec.dependenciesOf node) left right node with
    | none => some direction
    | some swapped =>
      if direction.directional && direction.swapped != swapped then none
      else some ⟨swapped, true⟩

end CJoinRegionSpec

namespace CDPHyperJoinRegion

variable {P : Type*} {request : SJoinRequest P}

/-- `none` where the source returns false. -/
def fDependencyApplicable (region : CDPHyperJoinRegion P) (left right : Finset ℕ) :
    Option SDirection :=
  match region.spec with
  | none => some SDirection.free
  | some spec =>
    if spec.hasDependencies then
      (List.range spec.nodeCount).foldlM (spec.dependencyStep left right) SDirection.free
    else some SDirection.free

def complexSpec (region : CDPHyperJoinRegion P) : Option (CJoinRegionSpec P) :=
  region.spec.filter fun spec => !spec.pureInner

/-- `some swapped` where the source returns true. -/
def fPairApplicable (region : CDPHyperJoinRegion P) (left right : Finset ℕ) (edgeId : ℕ) :
    Option Bool :=
  if (region.fDependencyApplicable left right).isNone then none
  else
    match region.complexSpec with
    | none => some false
    | some spec =>
      match spec.edges[edgeId]? with
      -- the source asserts that the edge exists
      | none => none
      | some edge =>
        if edge.fApplicable left right then some false
        else if edge.fApplicable right left then some true
        else none

def applicableEdges (region : CDPHyperJoinRegion P) (left right : Finset ℕ) :
    List SApplicableEdge :=
  match region.complexSpec with
  | none => []
  | some spec =>
    (List.range spec.edgeCount).filterMap fun edgeId =>
      (region.fPairApplicable left right edgeId).map (SApplicableEdge.mk edgeId)

structure SRequestState (P : Type*) where
  request : SJoinRequest P
  nonInnerCount : ℕ
  nonInnerSwapped : Bool

def addEdge (spec : CJoinRegionSpec P) (s : SRequestState P) (candidate : SApplicableEdge) :
    SRequestState P :=
  let request := { s.request with edgeIds := s.request.edgeIds ++ [candidate.edgeId] }
  match spec.edges[candidate.edgeId]? with
  | none => { s with request := request }
  | some edge =>
    if edge.joinType = .inner then { s with request := request }
    else
      ⟨{ request with joinType := edge.joinType, notinComparison := edge.notinComparison },
        s.nonInnerCount + 1, candidate.swapped⟩

/-- The input order of a request with exactly one non-inner edge. -/
def orient (s : SRequestState P) : Option (SJoinRequest P) :=
  let commutative := s.request.joinType = .fullOuter
  if s.request.dependencyDirectional ∧ ¬ commutative ∧ s.request.swapped ≠ s.nonInnerSwapped then
    none
  else if ¬ s.request.dependencyDirectional ∨ ¬ commutative then
    some { s.request with swapped := s.nonInnerSwapped }
  else some s.request

def fBuildJoinRequest (region : CDPHyperJoinRegion P) (left right : Finset ℕ) :
    Option (SJoinRequest P) :=
  match region.fDependencyApplicable left right with
  | none => none
  | some direction =>
    let request : SJoinRequest P := ⟨.inner, direction.swapped, direction.directional, none, []⟩
    match region.complexSpec with
    | none => some request
    | some spec =>
      let applicable := region.applicableEdges left right
      if applicable = [] then none
      else
        let s := applicable.foldl (addEdge spec) ⟨request, 0, false⟩
        if s.nonInnerCount ≠ 0 ∧ ¬ (s.nonInnerCount = 1 ∧ applicable.length = 1) then none
        else if s.nonInnerCount = 1 then orient s
        else some s.request

/-- `PexprPredicate` of a request, as the list of its conjuncts. -/
def pexprPredicate (region : CDPHyperJoinRegion P) (request : SJoinRequest P) : List P :=
  match region.complexSpec with
  | none => []
  | some spec => request.edgeIds.filterMap fun edgeId => spec.edges[edgeId]?.map CEdge.predicate

variable {region : CDPHyperJoinRegion P} {spec : CJoinRegionSpec P} {left right : Finset ℕ}

section

variable (hspec : region.complexSpec = some spec)

include hspec

theorem fPairApplicable_eq_some {edgeId : ℕ} {swapped : Bool}
    (h : region.fPairApplicable left right edgeId = some swapped) :
    ∃ edge, spec.edges[edgeId]? = some edge ∧
      edge.fApplicable (if swapped then right else left) (if swapped then left else right) := by
  unfold fPairApplicable at h
  split at h
  · cases h
  · rw [hspec] at h
    dsimp only at h
    split at h
    · cases h
    case h_2 edge hedge =>
      refine ⟨edge,hedge,?_⟩
      split at h
      case isTrue happ =>
        rw [← some.inj h]
        exact happ
      case isFalse =>
        split at h
        case isTrue happ =>
          rw [← some.inj h]
          exact happ
        case isFalse => cases h

theorem mem_applicableEdges {candidate : SApplicableEdge} :
    candidate ∈ region.applicableEdges left right ↔
      candidate.edgeId < spec.edgeCount ∧
        region.fPairApplicable left right candidate.edgeId = some candidate.swapped := by
  simp only [applicableEdges,hspec,mem_filterMap,mem_range,Option.map_eq_some_iff]
  constructor
  · intro ⟨edgeId,hlt,swapped,hpair,heq⟩
    subst heq
    exact ⟨hlt,hpair⟩
  · intro ⟨hlt,hpair⟩
    exact ⟨candidate.edgeId,hlt,candidate.swapped,hpair,rfl⟩

theorem applicableEdges_sublist :
    ((region.applicableEdges left right).map SApplicableEdge.edgeId).Sublist
      (range spec.edgeCount) := by
  simp only [applicableEdges,hspec,map_filterMap]
  have hsome : ∀ edgeId x, ((region.fPairApplicable left right edgeId).map
      (SApplicableEdge.mk edgeId)).map SApplicableEdge.edgeId = some x → x = edgeId := by
    intro edgeId x hx
    simp only [Option.map_map,Option.map_eq_some_iff,Function.comp_apply] at hx
    obtain ⟨_,_,heq⟩ := hx
    exact heq.symm
  induction range spec.edgeCount with
  | nil => exact List.Sublist.refl _
  | cons edgeId ids ih =>
    rw [filterMap_cons]
    split
    · exact ih.cons edgeId
    case h_2 x hx =>
      rw [hsome edgeId x hx]
      exact ih.cons_cons edgeId

end

private theorem edgeIds_addEdge (s : SRequestState P) (candidate : SApplicableEdge) :
    (addEdge spec s candidate).request.edgeIds = s.request.edgeIds ++ [candidate.edgeId] := by
  unfold addEdge
  dsimp only
  split
  · rfl
  · split <;> rfl

private theorem edgeIds_foldl (candidates : List SApplicableEdge) (s : SRequestState P) :
    (candidates.foldl (addEdge spec) s).request.edgeIds =
      s.request.edgeIds ++ candidates.map SApplicableEdge.edgeId := by
  induction candidates generalizing s with
  | nil => exact (append_nil _).symm
  | cons candidate candidates ih =>
    rw [foldl_cons,ih,edgeIds_addEdge,append_assoc]
    rfl

private theorem edgeIds_orient {s : SRequestState P}
    (h : orient s = some request) : request.edgeIds = s.request.edgeIds := by
  unfold orient at h
  dsimp only at h
  split at h
  · cases h
  · split at h
    all_goals
      rw [← some.inj h]

section

variable (hspec : region.complexSpec = some spec)

include hspec

theorem fBuildJoinRequest_edgeIds (h : region.fBuildJoinRequest left right = some request) :
    request.edgeIds = (region.applicableEdges left right).map SApplicableEdge.edgeId ∧
      request.edgeIds ≠ [] := by
  have hids : request.edgeIds = (region.applicableEdges left right).map SApplicableEdge.edgeId ∧
      region.applicableEdges left right ≠ [] := by
    unfold fBuildJoinRequest at h
    split at h
    · cases h
    · rw [hspec] at h
      dsimp only at h
      split at h
      · cases h
      case isFalse hne =>
        refine ⟨?_,hne⟩
        split at h
        · cases h
        · split at h
          · rw [edgeIds_orient h,edgeIds_foldl,nil_append]
          · rw [← some.inj h,edgeIds_foldl,nil_append]
  refine ⟨hids.1,?_⟩
  rw [hids.1]
  exact fun hnil => hids.2 (map_eq_nil_iff.mp hnil)

theorem fDependencyApplicable_free (hfree : spec.hasDependencies = false) :
    region.fDependencyApplicable left right = some SDirection.free := by
  have hsome : region.spec = some spec := by
    unfold complexSpec at hspec
    exact (Option.filter_eq_some_iff.mp hspec).1
  unfold fDependencyApplicable
  simp only [hsome,hfree,Bool.false_eq_true,if_false]

theorem fBuildJoinRequest_single (hfree : spec.hasDependencies = false)
    (h : region.fBuildJoinRequest left right = some request) (hone : request.edgeIds.length = 1) :
    ∃ id edge swapped, request.edgeIds = [id] ∧ spec.edges[id]? = some edge ∧
      edge.fApplicable (if swapped then right else left) (if swapped then left else right) ∧
      request.joinType = edge.joinType ∧
      request.swapped = if edge.joinType = .inner then false else swapped := by
  obtain ⟨hids,_⟩ := fBuildJoinRequest_edgeIds hspec h
  rw [hids,length_map] at hone
  obtain ⟨⟨id,swapped⟩,happ⟩ := length_eq_one_iff.mp hone
  have hmem : ⟨id,swapped⟩ ∈ region.applicableEdges left right := by
    rw [happ]
    exact mem_singleton_self _
  obtain ⟨_,hpair⟩ := (mem_applicableEdges hspec).mp hmem
  obtain ⟨edge,hedge,hedg⟩ := fPairApplicable_eq_some hspec hpair
  refine ⟨id,edge,swapped,by rw [hids,happ]; rfl,hedge,hedg,?_⟩
  unfold fBuildJoinRequest at h
  simp only [fDependencyApplicable_free hspec hfree,hspec,happ,cons_ne_self,if_false,
    foldl_cons,foldl_nil,length_singleton,addEdge,hedge,SDirection.free] at h
  by_cases hinn : edge.joinType = .inner
  · simp only [hinn,if_true] at h ⊢
    simp only [ne_eq,not_true_eq_false,false_and,if_false,reduceCtorEq] at h
    rw [← some.inj h]
    exact ⟨rfl,rfl⟩
  · simp only [hinn,if_false] at h ⊢
    simp only [orient] at h
    rw [← some.inj h]
    exact ⟨rfl,rfl⟩

end

end CDPHyperJoinRegion

end PgOrca
