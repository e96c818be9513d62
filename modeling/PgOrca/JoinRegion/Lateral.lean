import PgOrca.JoinRegion.Conservation

/-!
# Sibling dependencies of a plan

`FDependencyApplicable` looks at one cut only. The first join above an atom is where its
dependencies cross, so over a whole plan every atom is joined to the right of its providers.
-/

namespace PgOrca

open Finset
open Option (some)

variable {P : Type*}

namespace CJoinRegionSpec

variable {spec : CJoinRegionSpec P} {left right : Finset ℕ} {direction result : SDirection}
  {node : ℕ} {required : Finset ℕ}

theorem crossing_eq_true (h : node ∈ left) (hr : ¬ Disjoint right required) :
    crossing required left right node = some true := by
  rw [crossing,if_pos ⟨h,hr⟩]

theorem crossing_eq_false (hd : Disjoint left right) (h : node ∈ right)
    (hl : ¬ Disjoint left required) : crossing required left right node = some false := by
  have hnot : node ∉ left := fun hmem => disjoint_left.mp hd hmem h
  rw [crossing,if_neg fun hc => hnot hc.1,if_pos ⟨h,hl⟩]

/-- The direction agrees with every dependency seen so far. -/
structure Settles (spec : CJoinRegionSpec P) (left right : Finset ℕ) (nodes : List ℕ)
    (direction : SDirection) : Prop where
  provided : ∀ node ∈ nodes, node ∈ left ∪ right → spec.dependenciesOf node ⊆ left ∪ right
  agrees : ∀ node ∈ nodes, ∀ swapped,
    crossing (spec.dependenciesOf node) left right node = some swapped →
      direction = ⟨swapped, true⟩

theorem mem_of_crossing {swapped : Bool}
    (h : crossing required left right node = some swapped) : node ∈ left ∪ right := by
  unfold crossing at h
  split at h
  case isTrue hl => exact mem_union_left _ hl.1
  case isFalse =>
    split at h
    case isTrue hr => exact mem_union_right _ hr.1
    case isFalse => cases h

theorem dependencyStep_settles {nodes : List ℕ} (hd : spec.Settles left right nodes direction)
    (h : spec.dependencyStep left right direction node = some result) :
    spec.Settles left right (nodes ++ [node]) result := by
  unfold dependencyStep at h
  split at h
  case isTrue hout =>
    -- a node outside the cut neither asks for providers nor crosses
    rw [← some.inj h]
    constructor
    · intro n hn hin
      rcases List.mem_append.mp hn with hn | hn
      · exact hd.provided n hn hin
      · rw [List.mem_singleton.mp hn] at hin
        exact absurd hin hout
    · intro n hn swapped hcr
      rcases List.mem_append.mp hn with hn | hn
      · exact hd.agrees n hn swapped hcr
      · rw [List.mem_singleton.mp hn] at hcr
        exact absurd (mem_of_crossing hcr) hout
  case isFalse =>
    split at h
    case isTrue => cases h
    case isFalse hprov =>
      have hpro : ∀ n ∈ nodes ++ [node], n ∈ left ∪ right →
          spec.dependenciesOf n ⊆ left ∪ right := by
        intro n hn hin
        rcases List.mem_append.mp hn with hn | hn
        · exact hd.provided n hn hin
        · rw [List.mem_singleton.mp hn]
          exact not_not.mp hprov
      refine ⟨hpro,?_⟩
      intro n hn swapped hcr
      split at h
      case h_1 hnone =>
        rw [← some.inj h]
        rcases List.mem_append.mp hn with hn | hn
        · exact hd.agrees n hn swapped hcr
        · rw [List.mem_singleton.mp hn,hnone] at hcr
          cases hcr
      case h_2 candidate hsome =>
        split at h
        case isTrue => cases h
        case isFalse hsame =>
          rw [← some.inj h]
          rcases List.mem_append.mp hn with hn | hn
          · have hdir := hd.agrees n hn swapped hcr
            rw [hdir] at hsame
            simp only [Bool.true_and,bne_iff_ne,ne_eq,not_not] at hsame
            rw [hsame]
          · rw [List.mem_singleton.mp hn,hsome] at hcr
            rw [some.inj hcr]

theorem foldlM_dependencyStep_settles (before nodes : List ℕ)
    (hd : spec.Settles left right before direction)
    (h : nodes.foldlM (spec.dependencyStep left right) direction = some result) :
    spec.Settles left right (before ++ nodes) result := by
  induction nodes generalizing before direction with
  | nil =>
    rw [← some.inj h,List.append_nil]
    exact hd
  | cons node nodes ih =>
    rw [List.foldlM_cons] at h
    obtain ⟨next,hnext,hrest⟩ := Option.bind_eq_some_iff.mp h
    have := ih (before ++ [node]) (dependencyStep_settles hd hnext) hrest
    rwa [List.append_assoc,List.singleton_append] at this

section

variable [ScalarPredicate P]

private theorem mem_resolveProvider {atoms : List CAtom} {s : SProviders} {provider : ℕ}
    (h : node ∉ s.providers) : node ∉ (resolveProvider atoms node s provider).providers := by
  unfold resolveProvider
  dsimp only
  split
  case isTrue => exact h
  case isFalse hno =>
    rw [not_or] at hno
    rw [List.mem_append,List.mem_singleton,not_or]
    exact ⟨h,fun heq => hno.1 heq.symm⟩

theorem notMem_resolveProviders (atoms : List CAtom) (node : ℕ) :
    node ∉ (resolveProviders atoms node).providers := by
  unfold resolveProviders
  refine List.foldlRecOn (motive := fun s : SProviders => node ∉ s.providers) _ _ List.not_mem_nil ?_
  intro s hs provider _
  exact mem_resolveProvider hs

omit [ScalarPredicate P] in
theorem dependenciesOf_buildDependencies (spec : CJoinRegionSpec P) (node : ℕ) :
    (buildDependencies spec).dependenciesOf node =
      if node < spec.nodeCount then (resolveProviders spec.atoms node).providers.toFinset
      else ∅ := by
  simp only [dependenciesOf,buildDependencies,List.map_map,List.getD_eq_getElem?_getD,
    List.getElem?_map]
  split
  case isTrue h => simp [List.getElem?_range h]
  case isFalse h =>
    have hnone : (List.range spec.nodeCount)[node]? = none := by
      rw [List.getElem?_eq_none_iff,List.length_range]
      exact Nat.le_of_not_lt h
    rw [hnone]
    rfl

section

variable {root : CExpression P} (h : build root = some spec)

include h

theorem build_dependencies :
    ∃ collected : CJoinRegionSpec P,
      spec.nodeCount = collected.nodeCount ∧
      spec.dependencies = (buildDependencies collected).dependencies ∧
      spec.dependencyCount = (buildDependencies collected).dependencyCount := by
  refine ⟨(pbsCollect root new).2,?_⟩
  rcases (build_cases h).2 with rfl | ⟨_,rfl⟩ <;> exact ⟨rfl,rfl,rfl⟩

theorem notMem_dependenciesOf : node ∉ spec.dependenciesOf node := by
  obtain ⟨collected,_,hdeps,_⟩ := build_dependencies h
  have heq : spec.dependenciesOf node = (buildDependencies collected).dependenciesOf node := by
    rw [dependenciesOf,dependenciesOf,hdeps]
  rw [heq,dependenciesOf_buildDependencies]
  split
  · rw [List.mem_toFinset]
    exact notMem_resolveProviders _ _
  · exact notMem_empty _

theorem dependenciesOf_nonempty (hne : (spec.dependenciesOf node).Nonempty) :
    node < spec.nodeCount ∧ spec.hasDependencies = true := by
  obtain ⟨collected,hcnt,hdeps,hdep⟩ := build_dependencies h
  have heq : spec.dependenciesOf node = (buildDependencies collected).dependenciesOf node := by
    rw [dependenciesOf,dependenciesOf,hdeps]
  rw [heq,dependenciesOf_buildDependencies] at hne
  split at hne
  case isFalse => exact absurd hne Finset.not_nonempty_empty
  case isTrue hlt =>
    refine ⟨hcnt ▸ hlt,?_⟩
    obtain ⟨provider,hpro⟩ := hne
    rw [List.mem_toFinset] at hpro
    have hle : (resolveProviders collected.atoms node).providers.length ≤
        (buildDependencies collected).dependencyCount := by
      simp only [buildDependencies,List.map_map]
      exact List.single_le_sum (fun _ _ => Nat.zero_le _) _
        (List.mem_map.mpr ⟨node,List.mem_range.mpr hlt,rfl⟩)
    have hpos := List.length_pos_of_mem hpro
    rw [hasDependencies,hdep,decide_eq_true_eq]
    omega

end

end

end CJoinRegionSpec

namespace CDPHyperJoinRegion

variable {region : CDPHyperJoinRegion P} {spec : CJoinRegionSpec P} {left right : Finset ℕ}

open CJoinRegionSpec

variable {request : SJoinRequest P}

theorem fDependencyApplicable_settles [ScalarPredicate P] {root : CExpression P}
    (hbuild : build root = some spec) (hspec : region.spec = some spec) {direction : SDirection}
    (h : region.fDependencyApplicable left right = some direction) {node : ℕ}
    (hne : (spec.dependenciesOf node).Nonempty) :
    node ∈ List.range spec.nodeCount ∧
      spec.Settles left right (List.range spec.nodeCount) direction := by
  obtain ⟨hlt,hhas⟩ := dependenciesOf_nonempty hbuild hne
  refine ⟨List.mem_range.mpr hlt,?_⟩
  unfold fDependencyApplicable at h
  rw [hspec] at h
  dsimp only at h
  rw [if_pos hhas] at h
  have hst : spec.Settles left right [] SDirection.free :=
    ⟨fun _ hn => absurd hn List.not_mem_nil,fun _ hn => absurd hn List.not_mem_nil⟩
  exact foldlM_dependencyStep_settles [] _ hst h

private theorem addEdge_direction (s : SRequestState P) (candidate : SApplicableEdge) :
    (addEdge spec s candidate).request.swapped = s.request.swapped ∧
      (addEdge spec s candidate).request.dependencyDirectional =
        s.request.dependencyDirectional := by
  unfold addEdge
  dsimp only
  split
  · exact ⟨rfl,rfl⟩
  · split
    · exact ⟨rfl,rfl⟩
    · exact ⟨rfl,rfl⟩

private theorem foldl_addEdge_direction (candidates : List SApplicableEdge) (s : SRequestState P) :
    (candidates.foldl (addEdge spec) s).request.swapped = s.request.swapped ∧
      (candidates.foldl (addEdge spec) s).request.dependencyDirectional =
        s.request.dependencyDirectional := by
  refine List.foldlRecOn (motive := fun t : SRequestState P => t.request.swapped = s.request.swapped ∧
    t.request.dependencyDirectional = s.request.dependencyDirectional) _ _ ⟨rfl,rfl⟩ ?_
  intro t ht candidate _
  obtain ⟨hs,hd⟩ := addEdge_direction t candidate
  exact ⟨hs.trans ht.1,hd.trans ht.2⟩

private theorem orient_swapped {s : SRequestState P} (hd : s.request.dependencyDirectional = true)
    (h : orient s = some request) : request.swapped = s.request.swapped := by
  unfold orient at h
  dsimp only at h
  split at h
  case isTrue => cases h
  case isFalse hcon =>
    split at h
    case isTrue hfree =>
      -- a directed join that is not commutative was only kept in its own direction
      have hcomm := hfree.resolve_left fun hno => hno hd
      rw [← some.inj h]
      by_contra hne
      exact hcon ⟨hd,hcomm,fun heq => hne heq.symm⟩
    case isFalse => rw [← some.inj h]

theorem fBuildJoinRequest_swapped {swapped : Bool}
    (hdep : region.fDependencyApplicable left right = some ⟨swapped, true⟩)
    (h : region.fBuildJoinRequest left right = some request) : request.swapped = swapped := by
  unfold fBuildJoinRequest at h
  rw [hdep] at h
  dsimp only at h
  split at h
  case h_1 => rw [← some.inj h]
  case h_2 =>
    split at h
    case isTrue => cases h
    case isFalse =>
      split at h
      case isTrue => cases h
      case isFalse =>
        split at h
        case isTrue =>
          obtain ⟨hs,hd⟩ := foldl_addEdge_direction _ _
          rw [orient_swapped hd h,hs]
        case isFalse =>
          rw [← some.inj h]
          exact (foldl_addEdge_direction _ _).1

theorem fDependencyApplicable_of_fBuildJoinRequest
    (h : (region.fBuildJoinRequest left right).isSome) :
    ∃ direction, region.fDependencyApplicable left right = some direction := by
  cases hdep : region.fDependencyApplicable left right with
  | none => simp [fBuildJoinRequest,hdep] at h
  | some direction => exact ⟨direction,rfl⟩

end CDPHyperJoinRegion

namespace JoinPlan

/-- The node sets of the inputs of every join, ordered as the request for the join says. -/
def joinInputs (region : CDPHyperJoinRegion P) : JoinPlan → List (Finset ℕ × Finset ℕ)
  | atom _ => []
  | join l r =>
    l.joinInputs region ++ r.joinInputs region ++
      match region.fBuildJoinRequest l.nodes r.nodes with
      | none => []
      | some request =>
        [if request.swapped then (r.nodes, l.nodes) else (l.nodes, r.nodes)]

end JoinPlan

section

open CJoinRegionSpec CDPHyperJoinRegion

variable [ScalarPredicate P] {root : CExpression P} {spec : CJoinRegionSpec P}
  {region : CDPHyperJoinRegion P}

section

variable (hbuild : build root = some spec) (hspec : region.spec = some spec) {left right : Finset ℕ}
  {node : ℕ}

include hbuild hspec

theorem accepted_cut_provides (h : (region.fBuildJoinRequest left right).isSome)
    (hnode : node ∈ left ∪ right) : spec.dependenciesOf node ⊆ left ∪ right := by
  rcases (spec.dependenciesOf node).eq_empty_or_nonempty with hemp | hne
  · rw [hemp]
    exact empty_subset _
  · obtain ⟨direction,hdep⟩ := fDependencyApplicable_of_fBuildJoinRequest h
    obtain ⟨hrg,hse⟩ := fDependencyApplicable_settles hbuild hspec hdep hne
    exact hse.provided node hrg hnode

theorem accepted_cut_one_direction (hd : Disjoint left right)
    (h : (region.fBuildJoinRequest left right).isSome) {node' : ℕ} (hnode : node ∈ left)
    (hcr : ¬ Disjoint right (spec.dependenciesOf node)) (hnode' : node' ∈ right) :
    Disjoint left (spec.dependenciesOf node') := by
  by_contra hcr'
  have hne : (spec.dependenciesOf node).Nonempty :=
    nonempty_of_ne_empty fun hemp => hcr (hemp ▸ disjoint_empty_right _)
  have hne' : (spec.dependenciesOf node').Nonempty :=
    nonempty_of_ne_empty fun hemp => hcr' (hemp ▸ disjoint_empty_right _)
  obtain ⟨direction,hdep⟩ := fDependencyApplicable_of_fBuildJoinRequest h
  obtain ⟨hrg,hse⟩ := fDependencyApplicable_settles hbuild hspec hdep hne
  obtain ⟨hrg',_⟩ := fDependencyApplicable_settles hbuild hspec hdep hne'
  have hleft := hse.agrees node hrg true (crossing_eq_true hnode hcr)
  have hr := hse.agrees node' hrg' false (crossing_eq_false hd hnode' hcr')
  rw [hleft] at hr
  cases hr

private theorem atom_joined_right (hne : (spec.dependenciesOf node).Nonempty)
    {request : SJoinRequest P} (hd : Disjoint left right)
    (h : region.fBuildJoinRequest left right = some request) :
    (left = {node} → request.swapped = true ∧ spec.dependenciesOf node ⊆ right) ∧
      (right = {node} → request.swapped = false ∧ spec.dependenciesOf node ⊆ left) := by
  have hsome : (region.fBuildJoinRequest left right).isSome := by rw [h]; rfl
  obtain ⟨⟨swapped,directional⟩,hdep⟩ := fDependencyApplicable_of_fBuildJoinRequest hsome
  obtain ⟨hrg,hse⟩ := fDependencyApplicable_settles hbuild hspec hdep hne
  have hself : ∀ provider ∈ spec.dependenciesOf node, provider ≠ node :=
    fun provider hp heq => notMem_dependenciesOf hbuild (heq ▸ hp)
  have hmt : ∀ {s : Finset ℕ}, spec.dependenciesOf node ⊆ s →
      ¬ Disjoint s (spec.dependenciesOf node) := by
    intro s hsub hdisj
    obtain ⟨provider,hp⟩ := hne
    exact disjoint_left.mp hdisj (hsub hp) hp
  constructor
  · intro hleft
    have hmem : node ∈ left := hleft ▸ mem_singleton_self node
    have hsub : spec.dependenciesOf node ⊆ right := by
      intro provider hp
      have hin := hse.provided node hrg (mem_union_left _ hmem) hp
      rcases mem_union.mp hin with hin | hin
      · rw [hleft,mem_singleton] at hin
        exact absurd hin (hself provider hp)
      · exact hin
    have hdir := hse.agrees node hrg true (crossing_eq_true hmem (hmt hsub))
    exact ⟨fBuildJoinRequest_swapped (hdir ▸ hdep) h,hsub⟩
  · intro hr
    have hmem : node ∈ right := hr ▸ mem_singleton_self node
    have hsub : spec.dependenciesOf node ⊆ left := by
      intro provider hp
      have hin := hse.provided node hrg (mem_union_right _ hmem) hp
      rcases mem_union.mp hin with hin | hin
      · exact hin
      · rw [hr,mem_singleton] at hin
        exact absurd hin (hself provider hp)
    have hdir := hse.agrees node hrg false (crossing_eq_false hd hmem (hmt hsub))
    exact ⟨fBuildJoinRequest_swapped (hdir ▸ hdep) h,hsub⟩

private theorem atom_joined (hne : (spec.dependenciesOf node).Nonempty) (plan : JoinPlan)
    (hplan : plan.Accepted region) (hnode : node ∈ plan.nodes) :
    plan = .atom node ∨ ∃ inputs ∈ plan.joinInputs region,
      node ∈ inputs.2 ∧ spec.dependenciesOf node ⊆ inputs.1 := by
  induction plan with
  | atom n =>
    rw [JoinPlan.nodes,mem_singleton] at hnode
    exact .inl (hnode ▸ rfl)
  | join l r ihl ihr =>
    obtain ⟨hl,hr,hd,hreq⟩ := hplan
    obtain ⟨request,hrequ⟩ := Option.isSome_iff_exists.mp hreq
    have hins : (JoinPlan.join l r).joinInputs region =
        l.joinInputs region ++ r.joinInputs region ++
          [if request.swapped then (r.nodes, l.nodes) else (l.nodes, r.nodes)] := by
      rw [JoinPlan.joinInputs,hrequ]
    obtain ⟨hatom,hato⟩ := atom_joined_right hbuild hspec hne hd hrequ
    right
    rw [hins]
    rcases mem_union.mp hnode with hnode | hnode
    · rcases ihl hl hnode with rfl | ⟨inputs,hmem,hin⟩
      · obtain ⟨hsw,hsub⟩ := hatom rfl
        refine ⟨_,List.mem_append_right _ (List.mem_singleton_self _),?_⟩
        rw [if_pos hsw]
        exact ⟨hnode,hsub⟩
      · exact ⟨inputs,List.mem_append_left _ (List.mem_append_left _ hmem),hin⟩
    · rcases ihr hr hnode with rfl | ⟨inputs,hmem,hin⟩
      · obtain ⟨hsw,hsub⟩ := hato rfl
        refine ⟨_,List.mem_append_right _ (List.mem_singleton_self _),?_⟩
        rw [hsw]
        exact ⟨hnode,hsub⟩
      · exact ⟨inputs,List.mem_append_left _ (List.mem_append_right _ hmem),hin⟩

end

theorem accepted_plan_dependencies (root : CExpression P) (spec : CJoinRegionSpec P)
    (region : CDPHyperJoinRegion P) (hbuild : build root = some spec)
    (hspec : region.spec = some spec) :
    (∀ plan : JoinPlan, plan.Accepted region → 2 ≤ plan.nodes.card → ∀ node ∈ plan.nodes,
        spec.dependenciesOf node ⊆ plan.nodes ∧
        ((spec.dependenciesOf node).Nonempty → ∃ inputs ∈ plan.joinInputs region,
          node ∈ inputs.2 ∧ spec.dependenciesOf node ⊆ inputs.1)) ∧
      ∀ left right, Disjoint left right → (region.fBuildJoinRequest left right).isSome →
        ¬ ((∃ node ∈ left, ¬ Disjoint right (spec.dependenciesOf node)) ∧
          ∃ node ∈ right, ¬ Disjoint left (spec.dependenciesOf node)) := by
  constructor
  · intro plan hplan hcard node hnode
    cases plan with
    | atom n =>
      rw [JoinPlan.nodes,card_singleton] at hcard
      omega
    | join l r =>
      refine ⟨accepted_cut_provides hbuild hspec hplan.2.2.2 hnode,fun hne => ?_⟩
      rcases atom_joined hbuild hspec hne _ hplan hnode with heq | hj
      · cases heq
      · exact hj
  · intro left right hd hreq ⟨⟨node,hnode,hcr⟩,node',hnode',hcr'⟩
    exact hcr' (accepted_cut_one_direction hbuild hspec hd hreq hnode hcr hnode')

end

/-! ## A left join with two lateral inputs -/

namespace LateralChain

/-- `(a JOIN LATERAL b ON a = b) LEFT JOIN LATERAL c ON b = c`, where `b` refers to `a` and `c`
to `a` and `b`. -/
def root : CExpression ColumnEquality :=
  .join .leftOuter
    (.join .inner (.atom ⟨{0}, ∅⟩) (.atom ⟨{1}, {0}⟩) ⟨0, 1⟩ none) (.atom ⟨{2}, {0, 1}⟩) ⟨1, 2⟩
    none

theorem root_isSome : (CJoinRegionSpec.build root).isSome = true := by decide +kernel

def spec : CJoinRegionSpec ColumnEquality := (CJoinRegionSpec.build root).get root_isSome

def region : CDPHyperJoinRegion ColumnEquality := ⟨root.atoms, [⟨0, 1⟩, ⟨1, 2⟩], some spec⟩

/-- The plan lists every dependent input first; the requests turn both joins around. -/
def plan : JoinPlan := .join (.atom 2) (.join (.atom 1) (.atom 0))

theorem plan_dependencies :
    spec.dependenciesOf 2 = {0, 1} ∧ plan.Accepted region ∧
      ∃ inputs ∈ plan.joinInputs region, 2 ∈ inputs.2 ∧ spec.dependenciesOf 2 ⊆ inputs.1 := by
  have hdeps : spec.dependenciesOf 2 = {0, 1} := by decide +kernel
  have hplan : plan.Accepted region := by
    refine ⟨trivial,⟨trivial,trivial,?_,?_⟩,?_,?_⟩ <;> decide +kernel
  have h := (accepted_plan_dependencies root spec region (Option.some_get root_isSome).symm
    rfl).1 plan hplan (by decide +kernel) 2 (by decide +kernel)
  exact ⟨hdeps,hplan,h.2 (hdeps ▸ ⟨0,by decide⟩)⟩

end LateralChain

end PgOrca
