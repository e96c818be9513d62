import PgOrca.DPHyper.Plan
import PgOrca.JoinRegion.Conjuncts
import PgOrca.JoinRegion.Request

/-!
# Materialising an enumerated plan in the Memo

Every node set has one group. The Memo holds an expression only once, so an insertion may return
the group that already has it.
-/

namespace PgOrca

open List

inductive CGroupExpression (P : Type*) where
  | component (node : ℕ)
  | join (joinType : JoinType) (left right : ℕ) (predicate : P) (comparison : Option P)
  deriving DecidableEq

structure CJoinMemo (P : Type*) where
  groups : List (List (CGroupExpression P))

namespace CJoinMemo

variable {P : Type*}

def group (memo : CJoinMemo P) (id : ℕ) : List (CGroupExpression P) := memo.groups.getD id []

/-- The container of the expression and the Memo after inserting it. -/
def pgroupInsert [DecidableEq P] (memo : CJoinMemo P) (target : Option ℕ)
    (expr : CGroupExpression P) : ℕ × CJoinMemo P :=
  match memo.groups.findIdx? (expr ∈ ·) with
  | some container => (container, memo)
  | none =>
    match target with
    | some id => (id, ⟨memo.groups.modify id (· ++ [expr])⟩)
    | none => (memo.groups.length, ⟨memo.groups ++ [[expr]]⟩)

end CJoinMemo

/-- The group of every node set. `merged` lists the calls of `Record` that met two groups
for one set; only then the source has duplicate groups to resolve. -/
structure CSubsetGroups where
  entries : List (Finset ℕ × ℕ)
  merged : List (ℕ × ℕ)

namespace CSubsetGroups

def lookup (groups : CSubsetGroups) (nodes : Finset ℕ) : Option ℕ :=
  (groups.entries.find? (·.1 = nodes)).map Prod.snd

def record (groups : CSubsetGroups) (nodes : Finset ℕ) (group : ℕ) : ℕ × CSubsetGroups :=
  match groups.lookup nodes with
  | some existing =>
    if existing = group then (existing, groups)
    else (existing, { groups with merged := groups.merged ++ [(existing, group)] })
  | none => (group, { groups with entries := groups.entries ++ [(nodes, group)] })

end CSubsetGroups

structure SMaterialization (P : Type*) where
  memo : CJoinMemo P
  subsetGroups : CSubsetGroups
  intermediateGroups : List ℕ

namespace CJoinRegionSpec

variable {P : Type*} (spec : CJoinRegionSpec P)

/-- Group `k` belongs to input `k`, the groups of the original subtrees follow. -/
def skeletonGroup (edgeId : ℕ) : ℕ := spec.nodeCount + edgeId

def rootGroup : ℕ := spec.skeletonGroup (spec.edgeCount - 1)

def nodeSets : List (Finset ℕ) :=
  (List.range spec.nodeCount).map (fun node => {node}) ++ spec.edges.map CEdge.all

def registerGroups : CSubsetGroups :=
  spec.nodeSets.zipIdx.foldl (fun groups entry => (groups.record entry.1 entry.2).2) ⟨[], []⟩

def skeletonExpression (groups : CSubsetGroups) (edge : CEdge P) : CGroupExpression P :=
  .join edge.joinType ((groups.lookup edge.left).getD 0) ((groups.lookup edge.right).getD 0)
    edge.predicate edge.notinComparison

def originalMemo : CJoinMemo P :=
  ⟨(List.range spec.nodeCount).map (fun node => [.component node]) ++
    spec.edges.map fun edge => [skeletonExpression spec.registerGroups edge]⟩

end CJoinRegionSpec

namespace CDPHyperJoinRegion

variable {C : Type*} [ScalarLeaf C]

def ofSpec (spec : CJoinRegionSpec (CScalar C)) : CDPHyperJoinRegion (CScalar C) :=
  ⟨spec.atoms, spec.edges.flatMap fun edge => edge.predicate.pdrgpexprConjuncts, some spec⟩

variable (region : CDPHyperJoinRegion (CScalar C))

def cover (conjunct : CScalar C) : Finset ℕ :=
  CJoinRegionSpec.pbsPredicateCover region.components conjunct

variable (left right : Finset ℕ)

def crosses (conjunct : CScalar C) : Bool :=
  region.cover conjunct ⊆ left ∪ right ∧ ¬ Disjoint left (region.cover conjunct) ∧
    ¬ Disjoint right (region.cover conjunct)

def isResidual (conjunct : CScalar C) : Bool :=
  (region.cover conjunct).card < 2

def cutConjuncts (includeResidual : Bool) : List (CScalar C) :=
  region.conjuncts.filter fun conjunct =>
    region.crosses left right conjunct || (includeResidual && region.isResidual conjunct)

/-- `PexprPredicate` of a cut in a pure inner region. -/
def pexprCutPredicate (includeResidual : Bool) : CScalar C :=
  CScalar.pexprConjunction (region.cutConjuncts left right includeResidual)

end CDPHyperJoinRegion

namespace SMaterialization

section

variable {P : Type*} [DecidableEq P] (s : SMaterialization P)

/-- `PgroupInsert` followed by `Record`. -/
def insertJoin (nodes : Finset ℕ) (target : Option ℕ)
    (expr : CGroupExpression P) : ℕ × SMaterialization P :=
  let (container, memo) := s.memo.pgroupInsert target expr
  let (group, subsetGroups) := s.subsetGroups.record nodes container
  (group, { s with memo := memo, subsetGroups := subsetGroups })

def addIntermediate (group : ℕ) : SMaterialization P :=
  if group ∈ s.intermediateGroups then s
  else { s with intermediateGroups := s.intermediateGroups ++ [group] }

/-- The join of the groups `first` and `second`, and the reverse one where it is allowed. -/
def insertJoins (nodes : Finset ℕ) (target : Option ℕ) (full addReverse : Bool)
    (joinType : JoinType) (first second : ℕ) (predicate : P)
    (comparison : Option P) : SMaterialization P :=
  let (target, s) := s.insertJoin nodes target (.join joinType first second predicate comparison)
  let s := if full then s else s.addIntermediate target
  if addReverse then
    (s.insertJoin nodes (some target) (.join joinType second first predicate comparison)).2
  else s

end

variable {C : Type*} [ScalarLeaf C] [DecidableEq C] (spec : CJoinRegionSpec (CScalar C))

def initial : SMaterialization (CScalar C) :=
  ⟨spec.originalMemo, spec.registerGroups, []⟩

variable (region : CDPHyperJoinRegion (CScalar C)) (s : SMaterialization (CScalar C))

/-- One round of the loop, with the groups of both sides looked up. -/
def materializeCut (left right : Finset ℕ)
    (leftGroup rightGroup : ℕ) : SMaterialization (CScalar C) :=
  let joined := left ∪ right
  let full : Bool := joined.card = region.components.length
  let target := if full then some spec.rootGroup else s.subsetGroups.lookup joined
  -- the source asserts that the request can be built
  let request := (region.fBuildJoinRequest left right).getD ⟨.inner, false, false, none, []⟩
  let joinType := if spec.pureInner then .inner else request.joinType
  let predicate :=
    if spec.pureInner then region.pexprCutPredicate left right full
    else CScalar.pexprConjunction (region.pexprPredicate request)
  let addReverse : Bool :=
    (joinType = .inner ∨ joinType = .fullOuter) && !request.dependencyDirectional
  s.insertJoins joined target full addReverse joinType
    (if request.swapped then rightGroup else leftGroup)
    (if request.swapped then leftGroup else rightGroup) predicate request.notinComparison

def materializePair (pair : SPair) : SMaterialization (CScalar C) :=
  match s.subsetGroups.lookup pair.left, s.subsetGroups.lookup pair.right with
  | some leftGroup, some rightGroup =>
    materializeCut spec region s pair.left pair.right leftGroup rightGroup
  -- the source asserts that both groups exist
  | _, _ => s

def materialize (pairs : List SPair) : SMaterialization (CScalar C) :=
  pairs.foldl (materializePair spec (CDPHyperJoinRegion.ofSpec spec)) (initial spec)

end SMaterialization

namespace CSubsetGroups

/-- One group for every recorded node set, and one set for every group below `count`. -/
structure Exact (groups : CSubsetGroups) (count : ℕ) : Prop where
  keys : (groups.entries.map Prod.fst).Nodup
  ids : groups.entries.map Prod.snd = List.range count
  merged : groups.merged = []

variable {groups : CSubsetGroups} {count id : ℕ} {s t : Finset ℕ}

theorem mem_of_lookup (h : groups.lookup s = some id) : (s, id) ∈ groups.entries := by
  obtain ⟨entry,hfind,rfl⟩ := Option.map_eq_some_iff.mp h
  have hkey : entry.1 = s := by
    have := List.find?_some hfind
    exact of_decide_eq_true this
  rw [← hkey]
  exact List.mem_of_find?_eq_some hfind

theorem lookup_eq_none (h : groups.lookup s = none) : ∀ id, (s, id) ∉ groups.entries := by
  intro id hmem
  rw [lookup,Option.map_eq_none_iff,List.find?_eq_none] at h
  exact h (s, id) hmem (decide_eq_true rfl)

namespace Exact

section

variable (h : groups.Exact count)

include h

theorem unique_id (hs : (s, id) ∈ groups.entries) {id' : ℕ}
    (hs' : (s, id') ∈ groups.entries) : id = id' :=
  congrArg Prod.snd (inj_on_of_nodup_map h.keys hs hs' rfl)

theorem unique_nodes (hs : (s, id) ∈ groups.entries) (ht : (t, id) ∈ groups.entries) : s = t := by
  have hnd : (groups.entries.map Prod.snd).Nodup := by
    rw [h.ids]
    exact nodup_range
  exact congrArg Prod.fst (inj_on_of_nodup_map hnd hs ht rfl)

theorem lookup_iff : groups.lookup s = some id ↔ (s, id) ∈ groups.entries := by
  constructor
  · exact mem_of_lookup
  · intro hmem
    cases hlk : groups.lookup s with
    | none => exact absurd hmem (lookup_eq_none hlk id)
    | some id' => rw [h.unique_id hmem (mem_of_lookup hlk)]

theorem mem_iff_lt : (∃ s, (s, id) ∈ groups.entries) ↔ id < count := by
  rw [← mem_range,← h.ids,mem_map]
  constructor
  · intro ⟨s,hs⟩
    exact ⟨(s, id),hs,rfl⟩
  · intro ⟨entry,hen,heq⟩
    rw [← heq]
    exact ⟨entry.1,hen⟩

theorem record_known (hs : (s, id) ∈ groups.entries) : groups.record s id = (id, groups) := by
  rw [record,h.lookup_iff.mpr hs]
  exact if_pos rfl

theorem record_new (hs : groups.lookup s = none) :
    ∃ groups', groups.record s count = (count, groups') ∧ groups'.Exact (count + 1) ∧
      groups'.entries = groups.entries ++ [(s, count)] := by
  refine ⟨⟨groups.entries ++ [(s, count)],groups.merged⟩,?_,⟨?_,?_,h.merged⟩,rfl⟩
  · rw [record,hs]
  · rw [map_append,map_singleton,nodup_append_comm,singleton_append,nodup_cons]
    refine ⟨?_,h.keys⟩
    intro hmem
    obtain ⟨entry,hen,heq⟩ := mem_map.mp hmem
    rw [← Prod.mk.eta (p := entry),show entry.1 = s from heq] at hen
    exact lookup_eq_none hs entry.2 hen
  · rw [map_append,h.ids,map_singleton,range_succ]

theorem foldl_record (keys : List (Finset ℕ)) (hfr : (groups.entries.map Prod.fst ++ keys).Nodup) :
    ((keys.zipIdx count).foldl (fun groups entry => (groups.record entry.1 entry.2).2)
        groups).Exact (count + keys.length) ∧
      ((keys.zipIdx count).foldl (fun groups entry => (groups.record entry.1 entry.2).2)
        groups).entries = groups.entries ++ keys.zipIdx count := by
  induction keys generalizing groups count with
  | nil =>
    rw [zipIdx_nil,foldl_nil,append_nil]
    exact ⟨h,rfl⟩
  | cons key keys ih =>
    have hnone : groups.lookup key = none := by
      cases hlk : groups.lookup key with
      | none => rfl
      | some id =>
        have hmem := mem_map_of_mem (f := Prod.fst) (mem_of_lookup hlk)
        exact absurd mem_cons_self ((nodup_append.mp hfr).2.2 _ hmem _ · rfl)
    obtain ⟨groups',hrec,hex,hens⟩ := h.record_new hnone
    rw [zipIdx_cons,foldl_cons,hrec,length_cons,← Nat.add_assoc,Nat.add_right_comm]
    have hfr' : (groups'.entries.map Prod.fst ++ keys).Nodup := by
      rw [hens,map_append,append_assoc]
      exact hfr
    obtain ⟨hout,houtE⟩ := ih hex hfr'
    refine ⟨hout,?_⟩
    rw [houtE,hens,append_assoc]
    rfl

end

end Exact

end CSubsetGroups

namespace CJoinMemo

variable {P : Type*} [DecidableEq P] {memo : CJoinMemo P} {id : ℕ} {expr : CGroupExpression P}

omit [DecidableEq P] in
theorem lt_of_mem_group (h : expr ∈ memo.group id) : id < memo.groups.length := by
  by_contra hge
  rw [group,getD_eq_getElem?_getD,List.getElem?_eq_none (not_lt.mp hge)] at h
  cases h

theorem pgroupInsert_known (h : expr ∈ memo.group id) (target : Option ℕ) :
    ∃ container, expr ∈ memo.group container ∧
      memo.pgroupInsert target expr = (container, memo) := by
  have hlt := lt_of_mem_group h
  have hget : memo.group id = memo.groups[id] := by
    rw [group,getD_eq_getElem?_getD,List.getElem?_eq_getElem hlt,Option.getD_some]
  rw [hget] at h
  unfold pgroupInsert
  cases hfind : memo.groups.findIdx? (expr ∈ ·) with
  | none =>
    rw [List.findIdx?_eq_none_iff] at hfind
    exact absurd h (of_decide_eq_false (hfind _ (getElem_mem hlt)))
  | some container =>
    obtain ⟨hc,hmem,_⟩ := List.findIdx?_eq_some_iff_getElem.mp hfind
    refine ⟨container,?_,rfl⟩
    rw [group,getD_eq_getElem?_getD,List.getElem?_eq_getElem hc,Option.getD_some]
    exact of_decide_eq_true hmem

theorem findIdx?_eq_none_of_forall (h : ∀ id, expr ∉ memo.group id) :
    memo.groups.findIdx? (expr ∈ ·) = none := by
  rw [List.findIdx?_eq_none_iff]
  intro exprs hexprs
  obtain ⟨id,hid,rfl⟩ := getElem_of_mem hexprs
  apply decide_eq_false
  have := h id
  rwa [group,getD_eq_getElem?_getD,List.getElem?_eq_getElem hid,Option.getD_some] at this

theorem pgroupInsert_target (h : ∀ id, expr ∉ memo.group id) (hid : id < memo.groups.length) :
    ∃ memo', memo.pgroupInsert (some id) expr = (id, memo') ∧
      memo'.groups.length = memo.groups.length ∧
      ∀ id' expr', expr' ∈ memo'.group id' ↔ expr' ∈ memo.group id' ∨ (id' = id ∧ expr' = expr) := by
  refine ⟨⟨memo.groups.modify id (· ++ [expr])⟩,?_,length_modify _ _ _,?_⟩
  · rw [pgroupInsert,findIdx?_eq_none_of_forall h]
  · intro id' expr'
    rw [group,group,getD_eq_getElem?_getD,getD_eq_getElem?_getD,List.getElem?_modify]
    by_cases heq : id = id'
    · subst heq
      rw [List.getElem?_eq_getElem hid]
      simp
    · simp [heq,Ne.symm heq]

theorem pgroupInsert_new (h : ∀ id, expr ∉ memo.group id) :
    ∃ memo', memo.pgroupInsert none expr = (memo.groups.length, memo') ∧
      memo'.groups.length = memo.groups.length + 1 ∧
      ∀ id' expr', expr' ∈ memo'.group id' ↔
        expr' ∈ memo.group id' ∨ (id' = memo.groups.length ∧ expr' = expr) := by
  refine ⟨⟨memo.groups ++ [[expr]]⟩,?_,?_,?_⟩
  · rw [pgroupInsert,findIdx?_eq_none_of_forall h]
  · rw [length_append,length_singleton]
  · intro id' expr'
    rw [group,group,getD_eq_getElem?_getD,getD_eq_getElem?_getD,List.getElem?_append]
    split
    case isTrue hlt => simp [Nat.ne_of_lt hlt]
    case isFalse hge =>
      rw [List.getElem?_eq_none (not_lt.mp hge),List.getElem?_singleton]
      by_cases heq : id' = memo.groups.length
      · simp [heq]
      · simp [heq,show id' - memo.groups.length ≠ 0 by omega]

end CJoinMemo

end PgOrca
