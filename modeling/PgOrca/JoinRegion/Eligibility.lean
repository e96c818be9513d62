import PgOrca.JoinRegion.Tree

/-!
# What `BuildEligibility` guarantees

Absorbing conflict rules enlarges the TES and drops a rule only when the TES implies it.
-/

namespace PgOrca

open Finset List
open Option (some)

variable {P : Type*} {rule : CConflictRule} {id : ℕ}

namespace CJoinRegionSpec

variable {e : CExpression P} {t : BinaryTree ℕ ℕ}

namespace SEligibility

variable {bound side : Finset ℕ}

/-- Everything a step of `BuildEligibility` may do to the TES and the rules of an
edge, where `bound` are the nodes it is allowed to add. -/
structure Tightens (bound : Finset ℕ) (s s' : SEligibility) : Prop where
  tes_subset : s.tes ⊆ s'.tes
  rules_subset : ∀ rule ∈ s'.conflictRules, rule ∈ s.conflictRules
  implied : ∀ rule ∈ s.conflictRules, rule ∈ s'.conflictRules ∨ rule.required ⊆ s'.tes
  within : s.tes ⊆ bound → (∀ rule ∈ s.conflictRules, rule.required ⊆ bound) → s'.tes ⊆ bound

theorem Tightens.refl (bound : Finset ℕ) (s : SEligibility) : Tightens bound s s :=
  ⟨Finset.Subset.refl _,fun _ h => h,fun _ h => .inl h,fun h _ => h⟩

theorem Tightens.trans {s s' s'' : SEligibility} (h : Tightens bound s s')
    (h' : Tightens bound s' s'') : Tightens bound s s'' := by
  refine ⟨h.tes_subset.trans h'.tes_subset,?_,?_,?_⟩
  · intro rule hrule
    exact h.rules_subset rule (h'.rules_subset rule hrule)
  · intro rule hrule
    rcases h.implied rule hrule with hkept | hreq
    · exact h'.implied rule hkept
    · exact .inr (hreq.trans h'.tes_subset)
  · intro htes hrl
    apply h'.within (h.within htes hrl)
    intro rule hrule
    exact hrl rule (h.rules_subset rule hrule)

theorem Tightens.holds {nodes : Finset ℕ} {s s' : SEligibility} (h : Tightens bound s s')
    (htes : s'.tes ⊆ nodes) (hrl : ∀ rule ∈ s'.conflictRules, rule.Holds nodes) :
    ∀ rule ∈ s.conflictRules, rule.Holds nodes := by
  intro rule hrule
  rcases h.implied rule hrule with hkept | hreq
  · exact hrl rule hkept
  · intro _
    exact hreq.trans htes

variable (rules : List CConflictRule) (state : Bool × Finset ℕ)

private theorem absorbFold_bounds :
    state.2 ⊆ (rules.foldl absorbRule state).2 ∧ ∀ nodes, state.2 ⊆ nodes →
      (∀ rule ∈ rules, rule.Holds nodes) → (rules.foldl absorbRule state).2 ⊆ nodes := by
  induction rules generalizing state with
  | nil => simp
  | cons rule rules ih =>
    have hstep : state.2 ⊆ (absorbRule state rule).2 ∧ ∀ nodes, state.2 ⊆ nodes →
        rule.Holds nodes → (absorbRule state rule).2 ⊆ nodes := by
      unfold absorbRule
      split
      · exact ⟨subset_rfl,fun _ hsub _ => hsub⟩
      case isFalse hno =>
        refine ⟨subset_union_left,fun nodes hsub hrule => union_subset hsub (hrule fun hd => ?_)⟩
        exact hno fun hmeet => absurd (hd.mono_left hsub) hmeet
    have hrest := ih (absorbRule state rule)
    refine ⟨hstep.1.trans hrest.1,fun nodes hsub hrl => ?_⟩
    rw [List.forall_mem_cons] at hrl
    exact hrest.2 nodes (hstep.2 nodes hsub hrl.1) hrl.2

/-- A pass finds every rule satisfied or reports a change and satisfies one more rule for good. -/
private theorem absorbFold_cases :
    (rules.foldl absorbRule state = state ∧ ∀ rule ∈ rules, rule.Holds state.2) ∨
      (rules.foldl absorbRule state).1 = true ∧ ∃ rule ∈ rules, ¬ rule.required ⊆ state.2 ∧
        rule.required ⊆ (rules.foldl absorbRule state).2 := by
  induction rules generalizing state with
  | nil => simp
  | cons rule rules ih =>
    rw [foldl_cons]
    by_cases hrule : rule.Holds state.2
    · rw [absorbRule,if_pos hrule]
      simpa [hrule] using (ih state).imp_right fun h => ⟨h.1,.inr h.2⟩
    · have hadded := (absorbFold_bounds rules (absorbRule state rule)).1
      have hflag := ih (absorbRule state rule)
      rw [absorbRule,if_neg hrule] at hadded hflag ⊢
      refine .inr ⟨hflag.elim (fun h => by rw [h.1]) And.left,rule,mem_cons_self,?_,?_⟩
      · exact fun hsub => hrule fun _ => hsub
      · exact subset_union_right.trans hadded

private theorem absorbLoop_bounds (fuel : ℕ) (tes : Finset ℕ) :
    tes ⊆ absorbLoop rules fuel tes ∧ ∀ nodes, tes ⊆ nodes →
      (∀ rule ∈ rules, rule.Holds nodes) → absorbLoop rules fuel tes ⊆ nodes := by
  induction fuel generalizing tes with
  | zero => exact ⟨subset_rfl,fun _ hsub _ => hsub⟩
  | succ fuel ih =>
    obtain ⟨hgr,hle⟩ := absorbFold_bounds rules (false,tes)
    have hrest := ih (absorbPass rules tes).2
    simp only [absorbLoop]
    split
    · refine ⟨hgr.trans hrest.1,fun nodes hsub hrl => ?_⟩
      exact hrest.2 nodes (hle nodes hsub hrl) hrl
    · exact ⟨hgr,hle⟩

private theorem absorbLoop_ends (fuel : ℕ) (tes : Finset ℕ)
    (hfuel : {rule ∈ rules.toFinset | ¬ rule.required ⊆ tes}.card < fuel) :
    ∃ rounds < fuel, absorbPass rules ((fun tes => (absorbPass rules tes).2)^[rounds] tes) =
      (false,absorbLoop rules fuel tes) := by
  induction fuel generalizing tes with
  | zero => omega
  | succ fuel ih =>
    rcases absorbFold_cases rules (false,tes) with ⟨hsame,_⟩ | ⟨hflag,rule,hrule,hbef,haft⟩
    · exact ⟨0,by omega,by simp [absorbLoop,absorbPass,hsame]⟩
    · have hless : {rule ∈ rules.toFinset | ¬ rule.required ⊆ (absorbPass rules tes).2}.card <
          {rule ∈ rules.toFinset | ¬ rule.required ⊆ tes}.card := by
        have hgr : tes ⊆ (absorbPass rules tes).2 := (absorbFold_bounds rules (false,tes)).1
        apply card_lt_card
        rw [ssubset_iff_of_subset (Finset.monotone_filter_right _ fun r _ hr hsub =>
          hr (hsub.trans hgr))]
        exact ⟨rule,by simp [hrule,hbef],fun hmem => (Finset.mem_filter.mp hmem).2 haft⟩
      obtain ⟨rounds,hlt,hlast⟩ := ih (absorbPass rules tes).2 (by omega)
      refine ⟨rounds + 1,by omega,?_⟩
      rw [Function.iterate_succ_apply,hlast,absorbLoop]
      simp [absorbPass,hflag]

theorem absorbConflictRules_tightens (bound : Finset ℕ) (s : SEligibility) :
    Tightens bound s s.absorbConflictRules := by
  have hloop := absorbLoop_bounds s.conflictRules (s.conflictRules.length + 1) s.tes
  refine ⟨hloop.1,?_,?_,?_⟩
  · intro rule hrule
    exact List.mem_of_mem_filter hrule
  · intro rule hrule
    by_cases h : rule.required ⊆ s.absorbConflictRules.tes
    · exact .inr h
    · exact .inl (List.mem_filter.mpr ⟨hrule,decide_eq_true h⟩)
  · intro htes hrl
    exact hloop.2 bound htes fun rule hrule _ => hrl rule hrule

/-- Some pass changes nothing. The TES is then the least one closed under the rules, and of its
supersets the kept rules demand what all of them do. -/
theorem absorbConflictRules_least (s : SEligibility) :
    (∃ rounds ≤ s.conflictRules.length,
      absorbPass s.conflictRules ((fun tes => (absorbPass s.conflictRules tes).2)^[rounds] s.tes) =
        (false, s.absorbConflictRules.tes)) ∧
    IsLeast {tes | s.tes ⊆ tes ∧ ∀ rule ∈ s.conflictRules, rule.Holds tes}
      s.absorbConflictRules.tes ∧
    ∀ nodes, (s.tes ⊆ nodes ∧ ∀ rule ∈ s.conflictRules, rule.Holds nodes) ↔
      s.absorbConflictRules.tes ⊆ nodes ∧
        ∀ rule ∈ s.absorbConflictRules.conflictRules, rule.Holds nodes := by
  have hloop := absorbLoop_bounds s.conflictRules (s.conflictRules.length + 1) s.tes
  have htight := absorbConflictRules_tightens ∅ s
  obtain ⟨rounds,hrn,hlast⟩ := absorbLoop_ends s.conflictRules _ s.tes
    (Nat.lt_succ_of_le ((card_filter_le _ _).trans (toFinset_card_le _)))
  refine ⟨⟨rounds,by omega,hlast⟩,⟨⟨hloop.1,?_⟩,fun nodes h => hloop.2 nodes h.1 h.2⟩,?_⟩
  · rcases absorbFold_cases s.conflictRules (false,_) with ⟨hsame,hh⟩ | ⟨hflag,_⟩
    · have hfi := congrArg Prod.snd (hsame.symm.trans hlast)
      rwa [hfi] at hh
    · have hff := congrArg Prod.fst hlast
      cases hflag.symm.trans hff
  · intro nodes
    constructor
    · rintro ⟨hsub,hrl⟩
      refine ⟨hloop.2 nodes hsub hrl,fun rule hrule => ?_⟩
      exact hrl rule (htight.rules_subset rule hrule)
    · rintro ⟨hsub,hrl⟩
      exact ⟨hloop.1.trans hsub,htight.holds hsub hrl⟩

theorem coverSide_tightens (hside : side ⊆ bound) (s : SEligibility) :
    Tightens bound s (s.coverSide side) := by
  unfold coverSide
  split
  · apply Tightens.trans _ (absorbConflictRules_tightens bound _)
    exact ⟨subset_union_left,fun _ h => h,fun _ h => .inl h,fun h _ => union_subset h hside⟩
  · exact Tightens.refl bound s

theorem coverSide_meets (hside : side.Nonempty) (s : SEligibility) :
    ¬ Disjoint (s.coverSide side).tes side := by
  unfold coverSide
  split
  · intro hdisj
    have hgr := (absorbConflictRules_tightens ∅ { s with tes := s.tes ∪ side }).tes_subset
    have hsub := subset_union_right.trans hgr
    exact hside.ne_empty (disjoint_self_iff_empty side |>.mp (hdisj.mono_left hsub))
  · assumption

end SEligibility

variable [ScalarPredicate P]

private theorem required_subset (used available : Finset ℕ) :
    pbsIntersectIfNotDegenerate used available ⊆ available := by
  unfold pbsIntersectIfNotDegenerate
  split
  · exact Finset.Subset.refl _
  · exact inter_subset_right

theorem pbsIntersectIfNotDegenerate_meets {used available : Finset ℕ} (h : available.Nonempty) :
    ¬ Disjoint (pbsIntersectIfNotDegenerate used available) available := by
  have hne : (pbsIntersectIfNotDegenerate used available).Nonempty := by
    unfold pbsIntersectIfNotDegenerate
    split
    · exact h
    · exact nonempty_of_ne_empty ‹_›
  intro hd
  exact hne.ne_empty (disjoint_self_iff_empty _ |>.mp
    (hd.mono_right (required_subset used available)))

variable {atoms : List CAtom} {edge : CEdge P} {edges : List (CEdge P)}

theorem childRules_cases {child : CEdge P} (h : rule ∈ childRules atoms edge child) :
    child.all ⊆ edge.all ∧ (rule = rightNeedsLeft child ∨ rule = leftNeedsRight child) := by
  have hside : child.all ⊆ edge.left ∨ child.all ⊆ edge.right := by
    by_contra hno
    rw [not_or] at hno
    simp [childRules,hno.1,hno.2] at h
  constructor
  · rcases hside with hs | hs
    · exact hs.trans subset_union_left
    · exact hs.trans subset_union_right
  · unfold childRules at h
    split_ifs at h <;>
      simp only [nil_append,append_nil,mem_append,List.mem_singleton,not_mem_nil] at h <;> tauto

theorem childRules_required_subset {child : CEdge P}
    (h : rule ∈ childRules atoms edge child) : rule.required ⊆ edge.all := by
  obtain ⟨hall,hrule⟩ := childRules_cases h
  apply Finset.Subset.trans _ hall
  rcases hrule with rfl | rfl
  · exact (required_subset _ _).trans subset_union_left
  · exact (required_subset _ _).trans subset_union_right

private theorem childRules_filled (atoms : List CAtom) (edge child : CEdge P)
    (ses tes : Option (Finset ℕ)) (rules : List CConflictRule) :
    childRules atoms { edge with ses := ses, tes := tes, conflictRules := rules } child =
      childRules atoms edge child := by
  simp only [childRules,fAssociative,fLeftAsscom,fRightAsscom,fNullRejecting]
  rfl

/-- What is known of an edge once `BuildEligibility` has run on it. -/
structure Eligible (atoms : List CAtom) (earlier : List (CEdge P)) (edge : CEdge P)
    (tes : Finset ℕ) : Prop where
  tes_eq : edge.tes = some tes
  ses_eq : edge.ses = some (pbsPredicateCover atoms edge.predicate)
  cover_subset : pbsPredicateCover atoms edge.predicate ⊆ tes
  meets_left : ¬ Disjoint tes edge.left
  meets_right : ¬ Disjoint tes edge.right
  within : pbsPredicateCover atoms edge.predicate ⊆ edge.all → tes ⊆ edge.all
  rules_from : ∀ rule ∈ edge.conflictRules, ∃ child ∈ earlier, rule ∈ childRules atoms edge child
  holds : ∀ nodes, tes ⊆ nodes → (∀ rule ∈ edge.conflictRules, rule.Holds nodes) →
    ∀ child ∈ earlier, ∀ rule ∈ childRules atoms edge child, rule.Holds nodes

private theorem buildEligibility_tightens (atoms : List CAtom) (earlier : List (CEdge P))
    (edge : CEdge P) (hl : edge.left.Nonempty) (hr : edge.right.Nonempty) : ∃ final : SEligibility,
      SEligibility.Tightens edge.all
        ⟨pbsPredicateCover atoms edge.predicate, earlier.flatMap (childRules atoms edge)⟩ final ∧
      ¬ Disjoint final.tes edge.left ∧ ¬ Disjoint final.tes edge.right ∧
      buildEligibility atoms earlier edge =
        { edge with
          ses := some (pbsPredicateCover atoms edge.predicate)
          tes := some final.tes
          conflictRules := final.conflictRules } := by
  have hleft := SEligibility.absorbConflictRules_tightens edge.all
    ⟨pbsPredicateCover atoms edge.predicate,earlier.flatMap (childRules atoms edge)⟩
  have hmid := hleft.trans (SEligibility.coverSide_tightens subset_union_left _)
  have hrt := SEligibility.coverSide_tightens (subset_union_right : edge.right ⊆ edge.all)
    (SEligibility.coverSide edge.left (SEligibility.absorbConflictRules
      ⟨pbsPredicateCover atoms edge.predicate,earlier.flatMap (childRules atoms edge)⟩))
  refine ⟨_,hmid.trans hrt,?_,SEligibility.coverSide_meets hr _,rfl⟩
  intro hdisj
  exact SEligibility.coverSide_meets hl _ (hdisj.mono_left hrt.tes_subset)

theorem buildEligibility_eligible (atoms : List CAtom) (earlier : List (CEdge P)) (edge : CEdge P)
    (hl : edge.left.Nonempty) (hr : edge.right.Nonempty) :
    ∃ tes, Eligible atoms earlier (buildEligibility atoms earlier edge) tes := by
  obtain ⟨final,hall,hleft,hrt,heq⟩ :=
    buildEligibility_tightens atoms earlier edge hl hr
  rw [heq]
  refine ⟨final.tes,rfl,rfl,hall.tes_subset,hleft,hrt,?_,?_,?_⟩
  · intro hcov
    apply hall.within hcov
    intro rule hrule
    obtain ⟨child,_,hch⟩ := mem_flatMap.mp hrule
    exact childRules_required_subset hch
  · intro rule hrule
    simp only [childRules_filled]
    exact mem_flatMap.mp (hall.rules_subset rule hrule)
  · intro nodes htes hrl child hch rule hrule
    rw [childRules_filled] at hrule
    exact hall.holds htes hrl rule (mem_flatMap.mpr ⟨child,hch,hrule⟩)

theorem buildEligibilities_concat (atoms : List CAtom) (edges : List (CEdge P)) (edge : CEdge P) :
    buildEligibilities atoms (edges ++ [edge]) =
      buildEligibilities atoms edges ++
        [buildEligibility atoms (buildEligibilities atoms edges) edge] := by
  rw [buildEligibilities,foldl_concat]
  rfl

theorem length_buildEligibilities (atoms : List CAtom) (edges : List (CEdge P)) :
    (buildEligibilities atoms edges).length = edges.length := by
  induction edges using reverseRecOn with
  | nil => rfl
  | append_singleton edges edge ih =>
    rw [buildEligibilities_concat,length_append,length_append,ih]
    rfl

theorem buildEligibilities_getElem? (atoms : List CAtom) (edges : List (CEdge P)) (id : ℕ)
    (edge : CEdge P) (h : (buildEligibilities atoms edges)[id]? = some edge) :
    ∃ base, edges[id]? = some base ∧
      edge = buildEligibility atoms ((buildEligibilities atoms edges).take id) base := by
  induction edges using reverseRecOn with
  | nil => cases h
  | append_singleton edges last ih =>
    have hlen := length_buildEligibilities atoms edges
    rw [buildEligibilities_concat] at h ⊢
    rcases Nat.lt_trichotomy id edges.length with hlt | heq | hgt
    · rw [List.getElem?_append_left (by omega)] at h
      obtain ⟨base,hbase,hedge⟩ := ih h
      refine ⟨base,by rw [List.getElem?_append_left hlt,hbase],?_⟩
      rw [take_append_of_le_length (by omega)]
      exact hedge
    · subst heq
      rw [← hlen,List.getElem?_concat_length,some.injEq] at h
      refine ⟨last,List.getElem?_concat_length,?_⟩
      rw [← h,← hlen,take_left]
    · rw [List.getElem?_eq_none] at h
      · cases h
      · simp only [length_append,length_singleton]
        omega

/-- What `Build` guarantees: the numbered original tree, and for every edge either
no TES, in a region with an unsupported join type, or a TES with its properties. -/
structure Built (root : CExpression P) (spec : CJoinRegionSpec P) (t : BinaryTree ℕ ℕ) : Prop where
  atoms : spec.atoms = root.atoms
  leaves : t.leaves = Finset.range spec.nodeCount
  separated : t.Separated
  labels : t.labels = List.range spec.edgeCount
  numbered : root.NumberedIn spec.atoms spec.edges t
  pureInner : spec.pureInner = true ↔ ∀ edge ∈ spec.edges, edge.joinType = .inner
  eligible : ∀ id edge, spec.edges[id]? = some edge →
    edge.tes = none ∨ ∃ tes, Eligible spec.atoms (spec.edges.take id) edge tes

theorem map_joinType_buildEligibilities (atoms : List CAtom) (edges : List (CEdge P)) :
    (buildEligibilities atoms edges).map CEdge.joinType = edges.map CEdge.joinType := by
  induction edges using reverseRecOn with
  | nil => rfl
  | append_singleton edges edge ih =>
    rw [buildEligibilities_concat,map_append,map_append,ih]
    rfl

omit [ScalarPredicate P] in
private theorem all_inner_iff : (∀ edge ∈ edges, edge.joinType = .inner) ↔
      ∀ joinType ∈ edges.map CEdge.joinType, joinType = .inner := by
  simp only [List.forall_mem_map]

theorem buildEligibilities_numbered (h : e.NumberedIn atoms edges t) :
    e.NumberedIn atoms (buildEligibilities atoms edges) t := by
  apply h.mono fun _ _ hin => hin
  intro id base hbase
  have hlt : id < (buildEligibilities atoms edges).length := by
    rw [length_buildEligibilities]
    exact (List.getElem?_eq_some_iff.mp hbase).1
  obtain ⟨base',hbase',hedge⟩ :=
    buildEligibilities_getElem? atoms edges id _ (List.getElem?_eq_getElem hlt)
  rw [hbase,some.injEq] at hbase'
  subst hbase'
  exact ⟨_,List.getElem?_eq_getElem hlt,by rw [hedge]; exact ⟨rfl,rfl,rfl,rfl⟩⟩

omit [ScalarPredicate P] in
theorem sides_nonempty (h : e.NumberedIn atoms edges t) (hlb : t.labels = List.range edges.length)
    (hedge : edges[id]? = some edge) : edge.left.Nonempty ∧ edge.right.Nonempty := by
  have hlt : id < edges.length := (List.getElem?_eq_some_iff.mp hedge).1
  have hmem : id ∈ t.labels := by
    rw [hlb]
    exact List.mem_range.mpr hlt
  obtain ⟨tl,tr,hb⟩ := BinaryTree.mem_labels.mp hmem
  obtain ⟨edge',hedge',hl,hr⟩ := h.sides hb
  rw [hedge,some.injEq] at hedge'
  subst hedge'
  rw [hl,hr]
  exact ⟨tl.leaves_nonempty,tr.leaves_nonempty⟩

private theorem eligible_of_collected (h : e.NumberedIn atoms edges t)
    (hlb : t.labels = List.range edges.length)
    (hedge : (buildEligibilities atoms edges)[id]? = some edge) :
    ∃ tes, Eligible atoms ((buildEligibilities atoms edges).take id) edge tes := by
  obtain ⟨base,hbase,rfl⟩ := buildEligibilities_getElem? atoms edges id edge hedge
  obtain ⟨hl,hr⟩ := sides_nonempty h hlb hbase
  exact buildEligibility_eligible _ _ _ hl hr

section

variable {root : CExpression P} {spec : CJoinRegionSpec P} (h : build root = some spec)

include h

theorem build_cases : 2 ≤ (pbsCollect root new).2.nodeCount ∧
    (spec = { buildDependencies (pbsCollect root new).2 with
        edges := buildEligibilities (pbsCollect root new).2.atoms (pbsCollect root new).2.edges } ∨
      (pbsCollect root new).2.cdcSupported = false ∧
        spec = buildDependencies (pbsCollect root new).2) := by
  have h : buildCollected (pbsCollect root new).1 (pbsCollect root new).2 = some spec := by
    cases root with
    | atom input => cases h
    | join joinType l r predicate comparison => exact h
  unfold buildCollected at h
  split at h
  case isTrue => cases h
  case isFalse hv =>
    rw [not_not,fValid,decide_eq_true_eq] at hv
    refine ⟨hv.1,?_⟩
    rw [some.injEq] at h
    split at h
    case isTrue => exact .inl h.symm
    case isFalse hcdc => exact .inr ⟨eq_false_of_ne_true hcdc,h.symm⟩

theorem build_built : Built root spec (root.number 0 0) := by
  obtain ⟨_,hspec⟩ := build_cases h
  obtain ⟨_,has,⟨edges,hes,hlen,htes,hin⟩,hnum⟩ := pbsCollect_collected root new
  set collected := (pbsCollect root new).2
  have hlb : (root.number 0 0).labels = List.range collected.edges.length := by
    rw [CExpression.labels_number,hes,length_append,hlen,range_eq_range']
    simp only [new,length_nil,Nat.zero_add]
  have hlv : (root.number 0 0).leaves = Finset.range collected.atoms.length := by
    rw [CExpression.leaves_number,has,range_eq_Ico,length_append]
    rfl
  have hinn : collected.pureInner = true ↔ ∀ edge ∈ collected.edges, edge.joinType = .inner := by
    rw [hin,hes]
    simp [new,fInnerJoin]
  rcases hspec with rfl | ⟨_,rfl⟩
  · refine ⟨has,hlv,root.separated_number 0 0,?_,buildEligibilities_numbered hnum,?_,?_⟩
    · rw [hlb,edgeCount,length_buildEligibilities]
    · rw [all_inner_iff,map_joinType_buildEligibilities,← all_inner_iff]
      exact hinn
    · intro id edge hedge
      exact .inr (eligible_of_collected hnum hlb hedge)
  · refine ⟨has,hlv,root.separated_number 0 0,hlb,hnum,hinn,?_⟩
    intro id edge hedge
    left
    have hmem : edge ∈ collected.edges := mem_of_getElem? hedge
    rw [hes] at hmem
    exact htes edge hmem

theorem two_le_nodeCount : 2 ≤ spec.nodeCount := by
  obtain ⟨hcnt,rfl | ⟨_,rfl⟩⟩ := build_cases h <;> exact hcnt

theorem build_eligible (hcdc : spec.cdcSupported = true) (hedge : spec.edges[id]? = some edge) :
    ∃ tes, Eligible spec.atoms (spec.edges.take id) edge tes := by
  have hb := build_built h
  obtain ⟨base,hbase⟩ : ∃ base, spec.edges = buildEligibilities spec.atoms base := by
    rcases (build_cases h).2 with rfl | ⟨hno,rfl⟩
    · exact ⟨_,rfl⟩
    · exact absurd (hno.symm.trans hcdc) Bool.false_ne_true
  obtain ⟨hl,hr⟩ := sides_nonempty hb.numbered hb.labels hedge
  rw [hbase] at hedge ⊢
  obtain ⟨original,_,rfl⟩ := buildEligibilities_getElem? spec.atoms base id edge hedge
  exact buildEligibility_eligible _ _ original hl hr

end

end CJoinRegionSpec

end PgOrca
