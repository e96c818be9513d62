import PgOrca.JoinRegion.Materialize
import PgOrca.JoinRegion.Subtrees

/-!
# What the Memo holds after the replay

Every expression of a group is an input, an original join or a join of a replayed pair.
-/

namespace PgOrca

open CJoinRegionSpec Finset CDPHyperJoinRegion
open Option (map_some some getD_some)
open SPair (sides)

variable {C : Type*} [ScalarLeaf C] {spec : CJoinRegionSpec (CScalar C)}

/-- The predicate that a pure inner region attaches to a cut. -/
def CJoinRegionSpec.cutPredicate (spec : CJoinRegionSpec (CScalar C)) (left right : Finset ℕ) :
    CScalar C :=
  (CDPHyperJoinRegion.ofSpec spec).pexprCutPredicate left right
    ((left ∪ right).card = spec.nodeCount)

theorem CDPHyperJoinRegion.cutConjuncts_comm (region : CDPHyperJoinRegion (CScalar C))
    (left right : Finset ℕ) (includeResidual : Bool) :
    region.cutConjuncts left right includeResidual =
      region.cutConjuncts right left includeResidual := by
  have hcro : ∀ c, region.crosses left right c = region.crosses right left c := by
    intro c
    rw [crosses,crosses,union_comm,decide_eq_decide,and_comm (a := ¬ Disjoint left _)]
  simp only [cutConjuncts,hcro]

theorem CJoinRegionSpec.cutPredicate_comm (spec : CJoinRegionSpec (CScalar C))
    (left right : Finset ℕ) : spec.cutPredicate left right = spec.cutPredicate right left := by
  rw [cutPredicate,cutPredicate,pexprCutPredicate,pexprCutPredicate,cutConjuncts_comm,union_comm]

/-- Where an expression in the group of the node set `nodes` comes from. -/
inductive Explained (spec : CJoinRegionSpec (CScalar C)) (plan : List SPair)
    (entries : List (Finset ℕ × ℕ)) (nodes : Finset ℕ) : CGroupExpression (CScalar C) → Prop
  | component {node : ℕ} : nodes = {node} → Explained spec plan entries nodes (.component node)
  | original {edge : CEdge (CScalar C)} {l r : ℕ} : edge ∈ spec.edges → nodes = edge.all →
      (edge.left, l) ∈ entries → (edge.right, r) ∈ entries →
      Explained spec plan entries nodes
        (.join edge.joinType l r edge.predicate edge.notinComparison)
  | pair {left right : Finset ℕ} {l r : ℕ} {comparison : Option (CScalar C)} :
      (left, right) ∈ plan.map SPair.sides ∨ (right, left) ∈ plan.map SPair.sides →
      nodes = left ∪ right → (left, l) ∈ entries → (right, r) ∈ entries →
      Explained spec plan entries nodes (.join .inner l r (spec.cutPredicate left right) comparison)

variable {nodes side : Finset ℕ}

theorem Explained.mono {plan : List SPair} {entries entries' : List (Finset ℕ × ℕ)}
    {expr : CGroupExpression (CScalar C)} (h : Explained spec plan entries nodes expr)
    (hsub : entries ⊆ entries') : Explained spec plan entries' nodes expr := by
  cases h with
  | component hns => exact .component hns
  | original hedge hns hl hr => exact .original hedge hns (hsub hl) (hsub hr)
  | pair hmem hns hl hr => exact .pair hmem hns (hsub hl) (hsub hr)

theorem Explained.nodes_eq {plan : List SPair} {groups : CSubsetGroups} {count : ℕ}
    {left right : Finset ℕ} {joinType : JoinType} {l r : ℕ} {p : CScalar C}
    {comparison : Option (CScalar C)} (hex : groups.Exact count)
    (h : Explained spec plan groups.entries nodes (.join joinType l r p comparison))
    (hl : (left, l) ∈ groups.entries) (hr : (right, r) ∈ groups.entries) :
    nodes = left ∪ right := by
  cases h with
  | original _ hns hl' hr' =>
    rw [hns,CEdge.all,hex.unique_nodes hl' hl,hex.unique_nodes hr' hr]
  | pair _ hns hl' hr' =>
    rw [hns,hex.unique_nodes hl' hl,hex.unique_nodes hr' hr]

/-- The join of a pair stands in the group of its union, in one of the two orders. -/
def Present (spec : CJoinRegionSpec (CScalar C)) (s : SMaterialization (CScalar C))
    (left right : Finset ℕ) : Prop :=
  ∃ id l r comparison, (left ∪ right, id) ∈ s.subsetGroups.entries ∧
    .join .inner l r (spec.cutPredicate left right) comparison ∈ s.memo.group id ∧
    (((left, l) ∈ s.subsetGroups.entries ∧ (right, r) ∈ s.subsetGroups.entries) ∨
      ((right, l) ∈ s.subsetGroups.entries ∧ (left, r) ∈ s.subsetGroups.entries))

/-- The loop after the pairs `done` of the plan. -/
structure Replayed (spec : CJoinRegionSpec (CScalar C)) (plan done : List SPair)
    (s : SMaterialization (CScalar C)) : Prop where
  exact : s.subsetGroups.Exact s.memo.groups.length
  singles : ∀ node < spec.nodeCount, ({node}, node) ∈ s.subsetGroups.entries ∧
    .component node ∈ s.memo.group node
  skeleton : ∀ id edge, spec.edges[id]? = some edge →
    (edge.all, spec.skeletonGroup id) ∈ s.subsetGroups.entries
  explained : ∀ nodes id, (nodes, id) ∈ s.subsetGroups.entries → ∀ expr ∈ s.memo.group id,
    Explained spec plan s.subsetGroups.entries nodes expr
  present : ∀ pair ∈ done, Present spec s pair.left pair.right

variable {id : ℕ}

section

variable {spec : CJoinRegionSpec (CScalar C)} {plan done : List SPair}
  {s s' : SMaterialization (CScalar C)} {left right : Finset ℕ} {l r : ℕ}
  {expr : CGroupExpression (CScalar C)} {target : Option ℕ} {pair : SPair}

/-- `s'` extends `s`, by at most the expression `expr` in group `id`. -/
structure Extends (s s' : SMaterialization (CScalar C)) (id : ℕ)
    (expr : CGroupExpression (CScalar C)) : Prop where
  exact : s'.subsetGroups.Exact s'.memo.groups.length
  entries : s.subsetGroups.entries ⊆ s'.subsetGroups.entries
  old : ∀ nodes id', (nodes, id') ∈ s'.subsetGroups.entries →
    (nodes, id') ∈ s.subsetGroups.entries ∨ s.memo.group id' = []
  group : ∀ id' expr', expr' ∈ s'.memo.group id' →
    expr' ∈ s.memo.group id' ∨ (id' = id ∧ expr' = expr)
  keeps : ∀ id' expr', expr' ∈ s.memo.group id' → expr' ∈ s'.memo.group id'

omit [ScalarLeaf C] in
theorem Extends.refl (h : s.subsetGroups.Exact s.memo.groups.length) (id : ℕ)
    (expr : CGroupExpression (CScalar C)) : Extends s s id expr :=
  ⟨h,fun _ h => h,fun _ _ h => .inl h,fun _ _ h => .inl h,fun _ _ h => h⟩

theorem Extends.present (h : Extends s s' id expr) (hp : Present spec s left right) :
    Present spec s' left right := by
  obtain ⟨id',l,r,comparison,hid,hmem,hsd⟩ := hp
  exact ⟨id',l,r,comparison,h.entries hid,h.keeps _ _ hmem,
    hsd.imp (And.imp (h.entries ·) (h.entries ·)) (And.imp (h.entries ·) (h.entries ·))⟩

theorem Replayed.extend (h : Replayed spec plan done s) (hext : Extends s s' id expr)
    (hexpr : ∀ nodes, (nodes, id) ∈ s'.subsetGroups.entries →
      Explained spec plan s'.subsetGroups.entries nodes expr) : Replayed spec plan done s' where
  exact := hext.exact
  singles node hnode :=
    ⟨hext.entries (h.singles node hnode).1,hext.keeps _ _ (h.singles node hnode).2⟩
  skeleton edgeId edge hedge := hext.entries (h.skeleton edgeId edge hedge)
  explained := by
    intro nodes id' hid' expr' hexpr'
    rcases hext.group id' expr' hexpr' with hold | ⟨rfl,rfl⟩
    · rcases hext.old nodes id' hid' with hmem | hemp
      · exact (h.explained nodes id' hmem expr' hold).mono hext.entries
      · rw [hemp] at hold
        cases hold
    · exact hexpr nodes hid'
  present pair hpair := hext.present (h.present pair hpair)

variable [DecidableEq C]

theorem Replayed.insertJoin (h : Replayed spec plan done s)
    (hl : (left, l) ∈ s.subsetGroups.entries) (hr : (right, r) ∈ s.subsetGroups.entries)
    (hplan : (left, right) ∈ plan.map sides ∨ (right, left) ∈ plan.map sides)
    (comparison : Option (CScalar C))
    (ht : ∀ id, target = some id → (left ∪ right, id) ∈ s.subsetGroups.entries)
    (hnone : target = none → s.subsetGroups.lookup (left ∪ right) = none) :
    ∃ id s', s.insertJoin (left ∪ right) target
        (.join .inner l r (spec.cutPredicate left right) comparison) = (id, s') ∧
      Extends s s' id (.join .inner l r (spec.cutPredicate left right) comparison) ∧
      Replayed spec plan done s' ∧ (left ∪ right, id) ∈ s'.subsetGroups.entries ∧
      .join .inner l r (spec.cutPredicate left right) comparison ∈ s'.memo.group id := by
  set expr : CGroupExpression (CScalar C) :=
    .join .inner l r (spec.cutPredicate left right) comparison with hexpr
  have hexp : ∀ {s' : SMaterialization (CScalar C)} {id : ℕ}, Extends s s' id expr →
      (left ∪ right, id) ∈ s'.subsetGroups.entries → ∀ nodes,
      (nodes, id) ∈ s'.subsetGroups.entries →
      Explained spec plan s'.subsetGroups.entries nodes expr := by
    intro s' id hext hid nodes hns
    rw [hext.exact.unique_nodes hns hid]
    exact .pair hplan rfl (hext.entries hl) (hext.entries hr)
  by_cases hkn : ∃ id, expr ∈ s.memo.group id
  · -- the Memo has the expression already, and only the group of the union can have it
    obtain ⟨id,hmem⟩ := hkn
    obtain ⟨container,hco,hins⟩ := CJoinMemo.pgroupInsert_known hmem target
    obtain ⟨nodes,hns⟩ := h.exact.mem_iff_lt.mpr (CJoinMemo.lt_of_mem_group hco)
    have hun := (h.explained nodes container hns expr hco).nodes_eq h.exact hl hr
    subst hun
    have hext := Extends.refl h.exact container expr
    refine ⟨container,s,?_,hext,h,hns,hco⟩
    simp only [SMaterialization.insertJoin,hins,h.exact.record_known hns]
  · rw [not_exists] at hkn
    cases htgt : target with
    | some id =>
      have hid := ht id htgt
      obtain ⟨memo',hins,hlen,hg⟩ :=
        CJoinMemo.pgroupInsert_target hkn (h.exact.mem_iff_lt.mp ⟨_,hid⟩)
      have hext : Extends s { s with memo := memo' } id expr :=
        ⟨hlen ▸ h.exact,fun _ h => h,fun _ _ h => .inl h,fun id' expr' h => (hg id' expr').mp h,
          fun id' expr' h => (hg id' expr').mpr (.inl h)⟩
      refine ⟨id,{ s with memo := memo' },?_,hext,h.extend hext (hexp hext hid),hid,
        (hg id expr).mpr (.inr ⟨rfl,rfl⟩)⟩
      simp only [SMaterialization.insertJoin,hins,h.exact.record_known hid]
    | none =>
      obtain ⟨memo',hins,hlen,hg⟩ := CJoinMemo.pgroupInsert_new hkn
      obtain ⟨groups',hrec,hex,hens⟩ := h.exact.record_new (hnone htgt)
      have hsub : s.subsetGroups.entries ⊆ groups'.entries := by
        rw [hens]
        exact List.subset_append_left _ _
      have hext : Extends s { s with memo := memo', subsetGroups := groups' }
          s.memo.groups.length expr := by
        refine ⟨hlen ▸ hex,hsub,?_,fun id' expr' h => (hg id' expr').mp h,
          fun id' expr' h => (hg id' expr').mpr (.inl h)⟩
        intro nodes id' hmem
        rw [hens,List.mem_append,List.mem_singleton] at hmem
        rcases hmem with hmem | hnew
        · exact .inl hmem
        · right
          cases hnew
          rw [CJoinMemo.group,List.getD_eq_getElem?_getD,List.getElem?_eq_none le_rfl]
          rfl
      have hid : (left ∪ right, s.memo.groups.length) ∈ groups'.entries := by
        rw [hens]
        exact List.mem_append_right _ (List.mem_singleton_self _)
      refine ⟨s.memo.groups.length,_,?_,hext,h.extend hext (hexp hext hid),hid,
        (hg _ expr).mpr (.inr ⟨rfl,rfl⟩)⟩
      simp only [SMaterialization.insertJoin,hins,hrec]

/-- The groups `l` and `r` belong to the two sides, in one of the two orders. -/
def Sides (s : SMaterialization (CScalar C)) (left right : Finset ℕ) (l r : ℕ) : Prop :=
  ((left, l) ∈ s.subsetGroups.entries ∧ (right, r) ∈ s.subsetGroups.entries) ∨
    ((right, l) ∈ s.subsetGroups.entries ∧ (left, r) ∈ s.subsetGroups.entries)

theorem Replayed.insertSides (h : Replayed spec plan done s) (hsd : Sides s left right l r)
    (hplan : (left, right) ∈ plan.map sides) (comparison : Option (CScalar C))
    (ht : ∀ id, target = some id → (left ∪ right, id) ∈ s.subsetGroups.entries)
    (hnone : target = none → s.subsetGroups.lookup (left ∪ right) = none) :
    ∃ id s', s.insertJoin (left ∪ right) target
        (.join .inner l r (spec.cutPredicate left right) comparison) = (id, s') ∧
      s.subsetGroups.entries ⊆ s'.subsetGroups.entries ∧ Replayed spec plan done s' ∧
      (left ∪ right, id) ∈ s'.subsetGroups.entries ∧ Present spec s' left right := by
  rcases hsd with ⟨hl,hr⟩ | ⟨hl,hr⟩
  · obtain ⟨id,s',heq,hext,hrep,hid,hmem⟩ :=
      h.insertJoin hl hr (.inl hplan) comparison ht hnone
    exact ⟨id,s',heq,hext.entries,hrep,hid,id,l,r,comparison,hid,hmem,
      Or.inl ⟨hext.entries hl,hext.entries hr⟩⟩
  · rw [union_comm left right] at ht hnone
    obtain ⟨id,s',heq,hext,hrep,hid,hmem⟩ :=
      h.insertJoin hl hr (.inr hplan) comparison ht hnone
    rw [union_comm right left] at heq hid
    rw [spec.cutPredicate_comm right left] at heq hmem
    exact ⟨id,s',heq,hext.entries,hrep,hid,id,l,r,comparison,hid,hmem,
      Or.inr ⟨hext.entries hl,hext.entries hr⟩⟩

omit [DecidableEq C] in
theorem Replayed.congr (h : Replayed spec plan done s) (hmemo : s'.memo = s.memo)
    (hgs : s'.subsetGroups = s.subsetGroups) : Replayed spec plan done s' := by
  obtain ⟨memo,groups,_⟩ := s'
  obtain rfl : memo = s.memo := hmemo
  obtain rfl : groups = s.subsetGroups := hgs
  exact ⟨h.exact,h.singles,h.skeleton,h.explained,h.present⟩

omit [ScalarLeaf C] [DecidableEq C] in
theorem addIntermediate_memo (s : SMaterialization (CScalar C)) (id : ℕ) :
    (s.addIntermediate id).memo = s.memo ∧
      (s.addIntermediate id).subsetGroups = s.subsetGroups := by
  unfold SMaterialization.addIntermediate
  split <;> exact ⟨rfl,rfl⟩

omit [DecidableEq C] in
theorem Replayed.present_append (h : Replayed spec plan done s)
    (hpair : Present spec s pair.left pair.right) : Replayed spec plan (done ++ [pair]) s := by
  refine ⟨h.exact,h.singles,h.skeleton,h.explained,?_⟩
  intro pair' hpair'
  rcases List.mem_append.mp hpair' with hpair' | hpair'
  · exact h.present pair' hpair'
  · rw [List.mem_singleton.mp hpair']
    exact hpair

omit [DecidableEq C] [ScalarLeaf C] in
theorem Sides.swap (h : Sides s left right l r) : Sides s left right r l :=
  h.symm.imp And.symm And.symm

theorem Replayed.insertJoins (h : Replayed spec plan done s) (hplan : pair ∈ plan)
    (hsd : Sides s pair.left pair.right l r) (full addReverse : Bool)
    (comparison : Option (CScalar C))
    (ht : ∀ id, target = some id → (pair.left ∪ pair.right, id) ∈ s.subsetGroups.entries)
    (hnone : target = none → s.subsetGroups.lookup (pair.left ∪ pair.right) = none) :
    Replayed spec plan (done ++ [pair])
      (s.insertJoins (pair.left ∪ pair.right) target full addReverse .inner l r
        (spec.cutPredicate pair.left pair.right) comparison) := by
  have hmem : (pair.left, pair.right) ∈ plan.map sides := List.mem_map_of_mem hplan
  obtain ⟨id,s₁,heq₁,hsub₁,hrep₁,hid₁,hpre₁⟩ :=
    h.insertSides hsd hmem comparison ht hnone
  unfold SMaterialization.insertJoins
  rw [heq₁]
  dsimp only
  set s₂ := if full then s₁ else s₁.addIntermediate id with hs₂
  have hsame : s₂.memo = s₁.memo ∧ s₂.subsetGroups = s₁.subsetGroups := by
    rw [hs₂]
    split
    · exact ⟨rfl,rfl⟩
    · exact addIntermediate_memo s₁ id
  have hrep₂ := (hrep₁.present_append hpre₁).congr hsame.1 hsame.2
  split
  · have hsd₂ : Sides s₂ pair.left pair.right r l := by
      rw [Sides,hsame.2]
      exact Sides.swap (hsd.imp (And.imp (hsub₁ ·) (hsub₁ ·)) (And.imp (hsub₁ ·) (hsub₁ ·)))
    have ht₂ : ∀ id', some id = some id' →
        (pair.left ∪ pair.right, id') ∈ s₂.subsetGroups.entries := by
      intro id' hid'
      rw [hsame.2,← some.inj hid']
      exact hid₁
    obtain ⟨id₃,s₃,heq₃,_,hrep₃,_,_⟩ :=
      hrep₂.insertSides hsd₂ hmem comparison ht₂ nofun
    rw [heq₃]
    exact hrep₃
  · exact hrep₂

theorem Replayed.materializeCut (h : Replayed spec plan done s) (hpure : spec.pureInner = true)
    (hroot : ∃ edge, spec.edges[spec.edgeCount - 1]? = some edge ∧ edge.all = range spec.nodeCount)
    (hplan : pair ∈ plan) (hwi : pair.left ∪ pair.right ⊆ range spec.nodeCount)
    (hl : (pair.left, l) ∈ s.subsetGroups.entries) (hr : (pair.right, r) ∈ s.subsetGroups.entries) :
    Replayed spec plan (done ++ [pair])
      (SMaterialization.materializeCut spec (ofSpec spec) s pair.left pair.right
        l r) := by
  simp only [SMaterialization.materializeCut,hpure,if_true]
  apply h.insertJoins hplan
  · split
    · exact .inr ⟨hr,hl⟩
    · exact .inl ⟨hl,hr⟩
  · intro id hid
    split at hid
    case isTrue hcard =>
      obtain ⟨edge,hedge,hall⟩ := hroot
      have hun : pair.left ∪ pair.right = range spec.nodeCount :=
        eq_of_subset_of_card_le hwi (by rw [card_range]; exact (of_decide_eq_true hcard).ge)
      rw [hun,← hall,← some.inj hid]
      exact h.skeleton _ edge hedge
    case isFalse => exact CSubsetGroups.mem_of_lookup hid
  · intro heq
    split at heq
    · cases heq
    · exact heq

end

section

variable {root : CExpression (CScalar C)} {spec : CJoinRegionSpec (CScalar C)}
  {t : BinaryTree ℕ ℕ} {plan : List SPair}

theorem CJoinRegionSpec.Built.nodup_nodeSets (hb : Built root spec t) : spec.nodeSets.Nodup := by
  rw [nodeSets,List.nodup_append]
  refine ⟨List.nodup_range.map singleton_injective,?_,?_⟩
  · rw [List.nodup_iff_injective_getElem]
    intro i j hij
    simp only [List.getElem_map] at hij
    exact Fin.ext (hb.all_injective (List.getElem?_eq_getElem _) (List.getElem?_eq_getElem _) hij)
  · intro s hs s' hs' heq
    obtain ⟨node,_,rfl⟩ := List.mem_map.mp hs
    obtain ⟨edge,hedge,rfl⟩ := List.mem_map.mp hs'
    obtain ⟨id,hid⟩ := List.getElem?_of_mem hedge
    have htwo := (hb.card_all hid).2.2
    rw [← heq,card_singleton] at htwo
    omega

theorem CJoinRegionSpec.Built.registerGroups (hb : Built root spec t) :
    spec.registerGroups.Exact (spec.nodeCount + spec.edgeCount) ∧
      ∀ nodes id, (nodes, id) ∈ spec.registerGroups.entries ↔ spec.nodeSets[id]? = some nodes := by
  have hemp : CSubsetGroups.Exact ⟨[],[]⟩ 0 := ⟨List.nodup_nil,rfl,rfl⟩
  obtain ⟨hex,hens⟩ := hemp.foldl_record spec.nodeSets hb.nodup_nodeSets
  have hlen : 0 + spec.nodeSets.length = spec.nodeCount + spec.edgeCount := by
    rw [nodeSets,List.length_append,List.length_map,List.length_map,List.length_range,Nat.zero_add]
    rfl
  refine ⟨hlen ▸ hex,?_⟩
  intro nodes id
  rw [CJoinRegionSpec.registerGroups,hens,List.nil_append]
  exact List.mk_mem_zipIdx_iff_getElem?

omit [ScalarLeaf C] in
theorem nodeSets_getElem? (spec : CJoinRegionSpec (CScalar C)) (id : ℕ) :
    spec.nodeSets[id]? = if id < spec.nodeCount then some {id}
      else spec.edges[id - spec.nodeCount]?.map CEdge.all := by
  rw [nodeSets,List.getElem?_append,List.length_map,List.length_range,List.getElem?_map,
    List.getElem?_map]
  split
  case isTrue h => rw [List.getElem?_range h,map_some]
  case isFalse h => rfl

omit [ScalarLeaf C] in
theorem originalMemo_group (spec : CJoinRegionSpec (CScalar C)) (id : ℕ) :
    spec.originalMemo.group id = if id < spec.nodeCount then [.component id]
      else (spec.edges[id - spec.nodeCount]?.map fun edge =>
        [skeletonExpression spec.registerGroups edge]).getD [] := by
  rw [CJoinMemo.group,originalMemo,List.getD_eq_getElem?_getD,List.getElem?_append,List.length_map,
    List.length_range,List.getElem?_map,List.getElem?_map]
  split
  case isTrue h => rw [List.getElem?_range h,map_some,getD_some]
  case isFalse h => rfl

theorem CJoinRegionSpec.Built.lookup_side (hb : Built root spec t) {edge : CEdge (CScalar C)}
    (hedge : spec.edges[id]? = some edge) (hside : side = edge.left ∨ side = edge.right) :
    (side, (spec.registerGroups.lookup side).getD 0) ∈ spec.registerGroups.entries := by
  obtain ⟨hex,hens⟩ := hb.registerGroups
  have hmem : ∃ id, (side, id) ∈ spec.registerGroups.entries := by
    rcases hb.side_cases hedge hside with ⟨node,hnode,rfl⟩ | ⟨id',edge',hedge',rfl⟩
    · refine ⟨node,(hens _ _).mpr ?_⟩
      rw [nodeSets_getElem?,if_pos hnode]
    · refine ⟨spec.nodeCount + id',(hens _ _).mpr ?_⟩
      rw [nodeSets_getElem?,if_neg (by omega),Nat.add_sub_cancel_left,hedge',map_some]
  obtain ⟨id',hid'⟩ := hmem
  rw [hex.lookup_iff.mpr hid',getD_some]
  exact hid'

theorem replayed_initial [DecidableEq C] (hb : Built root spec t) (plan : List SPair) :
    Replayed spec plan [] (SMaterialization.initial spec) := by
  obtain ⟨hex,hens⟩ := hb.registerGroups
  refine ⟨?_,?_,?_,?_,nofun⟩
  · change spec.registerGroups.Exact spec.originalMemo.groups.length
    rw [originalMemo,List.length_append,List.length_map,List.length_map,List.length_range]
    exact hex
  · intro node hnode
    refine ⟨(hens _ _).mpr ?_,?_⟩
    · rw [nodeSets_getElem?,if_pos hnode]
    · change _ ∈ spec.originalMemo.group node
      rw [originalMemo_group,if_pos hnode]
      exact List.mem_singleton_self _
  · intro id edge hedge
    refine (hens _ _).mpr ?_
    rw [skeletonGroup,nodeSets_getElem?,if_neg (by omega),Nat.add_sub_cancel_left,hedge,map_some]
  · intro nodes id hid expr hexpr
    change expr ∈ spec.originalMemo.group id at hexpr
    have hns := (hens nodes id).mp hid
    rw [originalMemo_group] at hexpr
    rw [nodeSets_getElem?] at hns
    split at hexpr
    case isTrue hlt =>
      rw [if_pos hlt,some.injEq] at hns
      rw [List.mem_singleton] at hexpr
      subst hexpr
      exact .component hns.symm
    case isFalse hge =>
      rw [if_neg hge] at hns
      obtain ⟨edge,hedge,hall⟩ := Option.map_eq_some_iff.mp hns
      rw [hedge,map_some,getD_some,List.mem_singleton] at hexpr
      subst hexpr
      exact .original (List.mem_of_getElem? hedge) hall.symm
        (hb.lookup_side hedge (.inl rfl)) (hb.lookup_side hedge (.inr rfl))

theorem Replayed.lookup_available {done : List SPair} {s : SMaterialization (CScalar C)}
    (h : Replayed spec plan done s) (hwi : side ⊆ range spec.nodeCount)
    (hav : CDPHyperPlan.Available (done.map sides) side) :
    ∃ id, (side, id) ∈ s.subsetGroups.entries := by
  rcases hav with ⟨node,rfl⟩ | ⟨sides,hsd,rfl⟩
  · exact ⟨node,(h.singles node (mem_range.mp (hwi (mem_singleton_self node)))).1⟩
  · obtain ⟨pair,hpair,rfl⟩ := List.mem_map.mp hsd
    obtain ⟨id,_,_,_,hid,_⟩ := h.present pair hpair
    exact ⟨id,hid⟩

theorem replayed_materialize [DecidableEq C] (hb : Built root spec t)
    (hpure : spec.pureInner = true) (hpos : 0 < spec.edgeCount)
    (hplan : CDPHyperPlan.Replayable spec.nodeCount (plan.map sides)) :
    Replayed spec plan plan (SMaterialization.materialize spec plan) := by
  have hrun : ∀ (rest done : List SPair) (s : SMaterialization (CScalar C)), done ++ rest = plan →
      Replayed spec plan done s → Replayed spec plan plan
        (rest.foldl (SMaterialization.materializePair spec (ofSpec spec)) s) := by
    intro rest
    induction rest with
    | nil =>
      intro done s hsp h
      rw [List.append_nil] at hsp
      rw [← hsp] at h ⊢
      exact h
    | cons pair rest ih =>
      intro done s hsp h
      have hmem : pair ∈ plan := by
        rw [← hsp]
        exact List.mem_append_right _ List.mem_cons_self
      have hwi : pair.left ∪ pair.right ⊆ range spec.nodeCount :=
        hplan.within pair.sides (List.mem_map_of_mem hmem)
      obtain ⟨hava,havai⟩ := hplan.ordered (done.map sides) pair.sides
        (rest.map sides) (by rw [← hsp,List.map_append,List.map_cons])
      obtain ⟨l,hl⟩ := h.lookup_available (subset_union_left.trans hwi) hava
      obtain ⟨r,hr⟩ := h.lookup_available (subset_union_right.trans hwi) havai
      rw [List.foldl_cons,SMaterialization.materializePair,h.exact.lookup_iff.mpr hl,
        h.exact.lookup_iff.mpr hr]
      apply ih (done ++ [pair])
      · rw [List.append_assoc]
        exact hsp
      · exact h.materializeCut hpure (hb.last_edge hpos) hmem hwi hl hr
  exact hrun plan [] _ rfl (replayed_initial hb plan)

end

end PgOrca
