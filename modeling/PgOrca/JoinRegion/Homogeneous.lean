import PgOrca.JoinRegion.Replay

/-!
# The conjuncts that the expressions of a group apply

In a pure inner region the group of a node set applies the conjuncts covered by the set; what covers
fewer than two inputs is left to the root.
-/

namespace PgOrca

open CJoinRegionSpec CDPHyperPlan CScalar Finset Multiset CDPHyperJoinRegion SMaterialization
open SPair (sides)

/-- The conjuncts applied by an expression of the group and the expressions chosen below it. -/
inductive CJoinMemo.Applies {C : Type*} (memo : CJoinMemo (CScalar C)) :
    ℕ → Multiset (CScalar C) → Prop
  | component {id node : ℕ} : .component node ∈ memo.group id → memo.Applies id 0
  | join {id l r : ℕ} {joinType : JoinType} {p : CScalar C} {comparison : Option (CScalar C)}
      {a b : Multiset (CScalar C)} : .join joinType l r p comparison ∈ memo.group id →
      memo.Applies l a → memo.Applies r b → memo.Applies id (a + b + p.pdrgpexprConjuncts)

section

variable {C : Type*} [ScalarLeaf C] {root : CExpression (CScalar C)}
  {spec : CJoinRegionSpec (CScalar C)} {t : BinaryTree ℕ ℕ} {left right nodes : Finset ℕ}
  {c : CScalar C} {plan : List SPair}

namespace CJoinRegionSpec

def allConjuncts (spec : CJoinRegionSpec (CScalar C)) : Multiset (CScalar C) :=
  ((CDPHyperJoinRegion.ofSpec spec).conjuncts : List (CScalar C))

def Placeable (spec : CJoinRegionSpec (CScalar C)) (nodes : Finset ℕ) (c : CScalar C) : Prop :=
  2 ≤ ((CDPHyperJoinRegion.ofSpec spec).cover c).card ∧
    (CDPHyperJoinRegion.ofSpec spec).cover c ⊆ nodes

instance (spec : CJoinRegionSpec (CScalar C)) (nodes : Finset ℕ) :
    DecidablePred (spec.Placeable nodes) := fun _ => inferInstanceAs (Decidable (_ ∧ _))

def placedConjuncts (spec : CJoinRegionSpec (CScalar C)) (nodes : Finset ℕ) :
    Multiset (CScalar C) :=
  if nodes = Finset.range spec.nodeCount then spec.allConjuncts
  else spec.allConjuncts.filter (spec.Placeable nodes)

theorem cover_subset_range (spec : CJoinRegionSpec (CScalar C)) (c : CScalar C) :
    (ofSpec spec).cover c ⊆ Finset.range spec.nodeCount :=
  Finset.filter_subset _ _

theorem not_placeable_constBool (spec : CJoinRegionSpec (CScalar C)) (nodes : Finset ℕ)
    (value : Bool) : ¬ spec.Placeable nodes (constBool value) := by
  intro h
  have hemp : (ofSpec spec).cover (constBool value) = ∅ := by
    apply filter_eq_empty_iff.mpr
    intro node _ hnode
    apply hnode
    change Disjoint (CScalar.usedColumns (constBool value)) _
    rw [CScalar.usedColumns]
    exact disjoint_empty_left _
  rw [Placeable,hemp,card_empty] at h
  omega

theorem two_le_of_crosses (hd : Disjoint left right)
    (h : (ofSpec spec).crosses left right c = true) : 2 ≤ ((ofSpec spec).cover c).card := by
  rw [crosses,decide_eq_true_eq] at h
  obtain ⟨x,hxl,hx⟩ := not_disjoint_iff.mp h.2.1
  obtain ⟨y,hyr,hy⟩ := not_disjoint_iff.mp h.2.2
  have hne : x ≠ y := fun heq => Finset.disjoint_left.mp hd hxl (heq ▸ hyr)
  exact one_lt_card.mpr ⟨x,hx,y,hy,hne⟩

theorem placeable_union (hd : Disjoint left right) (c : CScalar C) :
    spec.Placeable (left ∪ right) c ↔ (spec.Placeable left c ∨ spec.Placeable right c) ∨
      (ofSpec spec).crosses left right c = true := by
  constructor
  · intro ⟨htwo,hsub⟩
    by_cases hl : Disjoint left ((ofSpec spec).cover c)
    · exact .inl (.inr ⟨htwo,hl.symm.left_le_of_le_sup_left hsub⟩)
    · by_cases hr : Disjoint right ((ofSpec spec).cover c)
      · exact .inl (.inl ⟨htwo,hr.symm.left_le_of_le_sup_right hsub⟩)
      · exact .inr (decide_eq_true ⟨hsub,hl,hr⟩)
  · rintro ((⟨htwo,hsub⟩ | ⟨htwo,hsub⟩) | hcr)
    · exact ⟨htwo,hsub.trans subset_union_left⟩
    · exact ⟨htwo,hsub.trans subset_union_right⟩
    · refine ⟨two_le_of_crosses hd hcr,?_⟩
      rw [crosses,decide_eq_true_eq] at hcr
      exact hcr.1

omit [ScalarLeaf C] in
private theorem filter_add_filter {s : Multiset (CScalar C)} {p q : CScalar C → Prop}
    [DecidablePred p] [DecidablePred q] (h : ∀ c, p c → ¬ q c) :
    s.filter p + s.filter q = s.filter fun c => p c ∨ q c := by
  have hnil : (s.filter fun c => p c ∧ q c) = 0 :=
    filter_eq_nil.mpr fun c _ hc => h c hc.1 hc.2
  rw [Multiset.filter_add_filter,hnil,add_zero]

theorem placed_cut (hd : Disjoint left right) :
    spec.allConjuncts.filter (spec.Placeable left) +
        spec.allConjuncts.filter (spec.Placeable right) +
        spec.allConjuncts.filter
          (fun c => (ofSpec spec).crosses left right c = true) =
      spec.allConjuncts.filter (spec.Placeable (left ∪ right)) := by
  have hlr : ∀ c, spec.Placeable left c → ¬ spec.Placeable right c := by
    intro c ⟨htwo,hl⟩ ⟨_,hr⟩
    have hle := Finset.card_le_card (subset_inter hl hr)
    rw [disjoint_iff_inter_eq_empty.mp hd,card_empty] at hle
    omega
  have hcr : ∀ c, spec.Placeable left c ∨ spec.Placeable right c →
      ¬ (ofSpec spec).crosses left right c = true := by
    intro c hc hx
    rw [crosses,decide_eq_true_eq] at hx
    rcases hc with hc | hc
    · exact hx.2.2 (hd.symm.mono_right hc.2)
    · exact hx.2.1 (hd.mono_right hc.2)
  rw [filter_add_filter hlr,filter_add_filter hcr]
  exact Multiset.filter_congr fun c _ => (placeable_union hd c).symm

theorem coe_cutConjuncts (hd : Disjoint left right) (includeResidual : Bool) :
    (((ofSpec spec).cutConjuncts left right includeResidual :
        List (CScalar C)) : Multiset (CScalar C)) =
      spec.allConjuncts.filter
          (fun c => (ofSpec spec).crosses left right c = true) +
        if includeResidual then
          spec.allConjuncts.filter
            (fun c => (ofSpec spec).isResidual c = true) else 0 := by
  cases includeResidual with
  | false => simp [cutConjuncts,allConjuncts]
  | true =>
    rw [if_pos rfl,filter_add_filter]
    · simp [cutConjuncts,allConjuncts]
    · intro c hcr hres
      have htwo := two_le_of_crosses hd hcr
      rw [isResidual,decide_eq_true_eq] at hres
      omega

theorem placedConjuncts_cut (hd : Disjoint left right) (hl : left.Nonempty) (hr : right.Nonempty)
    (hwi : left ∪ right ⊆ Finset.range spec.nodeCount) :
    spec.placedConjuncts left + spec.placedConjuncts right +
        ((ofSpec spec).cutConjuncts left right
          ((left ∪ right).card = spec.nodeCount) : List (CScalar C)) =
      spec.placedConjuncts (left ∪ right) := by
  have hcard := card_union_of_disjoint hd
  have hle := Finset.card_le_card hwi
  have hposl := hl.card_pos
  have hposr := hr.card_pos
  rw [Finset.card_range] at hle
  have hpr : ∀ side : Finset ℕ, side.card < spec.nodeCount →
      spec.placedConjuncts side = spec.allConjuncts.filter (spec.Placeable side) := by
    intro side hside
    refine if_neg fun heq => ?_
    rw [heq,Finset.card_range] at hside
    omega
  rw [hpr left (by omega),hpr right (by omega),coe_cutConjuncts hd,← add_assoc,placed_cut hd]
  by_cases hfull : (left ∪ right).card = spec.nodeCount
  · have hall : left ∪ right = Finset.range spec.nodeCount :=
      eq_of_subset_of_card_le hwi (by rw [Finset.card_range,hfull])
    rw [hall,placedConjuncts,if_pos rfl,if_pos (by simp),filter_add_filter]
    · apply Multiset.filter_eq_self.mpr
      intro c _
      by_cases htwo : 2 ≤ ((ofSpec spec).cover c).card
      · exact .inl ⟨htwo,spec.cover_subset_range c⟩
      · exact .inr (decide_eq_true (not_le.mp htwo))
    · intro c hc hres
      have := hc.1
      rw [isResidual,decide_eq_true_eq] at hres
      omega
  · rw [if_neg (by simpa using hfull),add_zero,hpr _ (by omega)]

theorem placedConjuncts_singleton {node : ℕ} (hn : 1 < spec.nodeCount) :
    spec.placedConjuncts {node} = 0 := by
  rw [placedConjuncts,if_neg]
  · apply filter_eq_nil.mpr
    intro c _ ⟨htwo,hsub⟩
    have hle := Finset.card_le_card hsub
    rw [Finset.card_singleton] at hle
    omega
  · intro heq
    have := congrArg Finset.card heq
    rw [Finset.card_singleton,Finset.card_range] at this
    omega

end CJoinRegionSpec

omit [ScalarLeaf C] in
private theorem coe_flatMap_conjuncts (edges : List (CEdge (CScalar C))) :
    ((edges.flatMap fun edge => edge.predicate.pdrgpexprConjuncts : List (CScalar C)) :
        Multiset (CScalar C)) =
      ∑ id ∈ Finset.range edges.length,
        (edges[id]?.map fun edge =>
          (edge.predicate.pdrgpexprConjuncts : Multiset (CScalar C))).getD 0 := by
  induction edges using List.reverseRecOn with
  | nil => rfl
  | append_singleton edges edge ih =>
    rw [List.flatMap_append,← Multiset.coe_add,ih,List.length_append,List.length_singleton,
      sum_range_succ,List.getElem?_concat_length,Option.map_some,Option.getD_some,
      List.flatMap_singleton]
    congr 1
    apply sum_congr rfl
    intro id hid
    rw [List.getElem?_append_left (Finset.mem_range.mp hid)]

omit [ScalarLeaf C] in
theorem allConjuncts_eq_sum (spec : CJoinRegionSpec (CScalar C)) :
    spec.allConjuncts = ∑ id ∈ Finset.range spec.edgeCount, spec.conjunctsOf id := by
  rw [allConjuncts,ofSpec,coe_flatMap_conjuncts]
  apply sum_congr rfl
  intro id _
  rw [conjunctsOf]
  cases spec.edges[id]? <;> rfl

omit [ScalarLeaf C] in
theorem allConjuncts_split (spec : CJoinRegionSpec (CScalar C)) (nodes : Finset ℕ) :
    spec.allConjuncts = spec.originalConjuncts nodes +
      ∑ id ∈ Finset.range spec.edgeCount \ spec.inside nodes, spec.conjunctsOf id := by
  rw [allConjuncts_eq_sum,originalConjuncts,add_comm]
  exact (sum_sdiff (Finset.filter_subset _ _)).symm

theorem CJoinRegionSpec.Built.originalConjuncts_range (hb : Built root spec t) :
    spec.originalConjuncts (Finset.range spec.nodeCount) = spec.allConjuncts := by
  rw [allConjuncts_eq_sum,originalConjuncts]
  congr 1
  apply filter_true_of_mem
  intro id hid
  have hedge := List.getElem?_eq_getElem (Finset.mem_range.mp hid)
  exact ⟨_,hedge,hb.all_subset_range hedge⟩

/-- Replayed joins over `nodes` and the original joins inside it apply the same conjuncts:
whatever is applied inside covers two inputs or is TRUE, and nothing else is complete. -/
def CJoinRegionSpec.Keeps (spec : CJoinRegionSpec (CScalar C)) (nodes : Finset ℕ) : Prop :=
  ∀ edge ∈ spec.edges, ∀ c ∈ edge.predicate.pdrgpexprConjuncts,
    if edge.all ⊆ nodes then c = constBool true ∨ spec.Placeable nodes c
    else ¬ spec.Placeable nodes c

instance [DecidableEq C] (spec : CJoinRegionSpec (CScalar C)) (nodes : Finset ℕ) :
    Decidable (spec.Keeps nodes) :=
  inferInstanceAs (Decidable (∀ edge ∈ spec.edges, ∀ c ∈ _, _))

omit [ScalarLeaf C] in
theorem mem_originalConjuncts :
    c ∈ spec.originalConjuncts nodes ↔
      ∃ edge ∈ spec.edges, edge.all ⊆ nodes ∧ c ∈ edge.predicate.pdrgpexprConjuncts := by
  rw [originalConjuncts,Multiset.mem_sum]
  constructor
  · rintro ⟨id,hid,hc⟩
    obtain ⟨edge,hedge,hsub⟩ := mem_inside.mp hid
    rw [conjunctsOf_edge hedge] at hc
    exact ⟨edge,List.mem_of_getElem? hedge,hsub,hc⟩
  · rintro ⟨edge,hedge,hsub,hc⟩
    obtain ⟨id,hid⟩ := List.getElem?_of_mem hedge
    refine ⟨id,mem_inside.mpr ⟨edge,hid,hsub⟩,?_⟩
    rw [conjunctsOf_edge hid]
    exact hc

omit [ScalarLeaf C] in
theorem mem_outside :
    c ∈ ∑ id ∈ Finset.range spec.edgeCount \ spec.inside nodes, spec.conjunctsOf id ↔
      ∃ edge ∈ spec.edges, ¬ edge.all ⊆ nodes ∧ c ∈ edge.predicate.pdrgpexprConjuncts := by
  rw [Multiset.mem_sum]
  constructor
  · intro ⟨id,hid,hc⟩
    rw [mem_sdiff,Finset.mem_range] at hid
    have hedge := List.getElem?_eq_getElem hid.1
    rw [conjunctsOf_edge hedge] at hc
    exact ⟨_,List.getElem_mem hid.1,fun hsub => hid.2 (mem_inside.mpr ⟨_,hedge,hsub⟩),hc⟩
  · rintro ⟨edge,hedge,hsub,hc⟩
    obtain ⟨id,hid⟩ := List.getElem?_of_mem hedge
    refine ⟨id,?_,?_⟩
    · rw [mem_sdiff,Finset.mem_range]
      refine ⟨(List.getElem?_eq_some_iff.mp hid).1,?_⟩
      intro hmem
      obtain ⟨edge',hedge',hsub'⟩ := mem_inside.mp hmem
      rw [hid,Option.some.injEq] at hedge'
      subst hedge'
      exact hsub hsub'
    · rw [conjunctsOf_edge hid]
      exact hc

theorem constBool_notMem_placed (spec : CJoinRegionSpec (CScalar C)) (nodes : Finset ℕ)
    (value : Bool) : constBool value ∉ spec.allConjuncts.filter (spec.Placeable nodes) := fun h =>
  spec.not_placeable_constBool nodes value (Multiset.mem_filter.mp h).2

section

variable [DecidableEq C]

theorem simplified_placed :
    simplified (spec.allConjuncts.filter (spec.Placeable nodes)) =
      spec.allConjuncts.filter (spec.Placeable nodes) := by
  rw [simplified_of_notMem (constBool_notMem_placed spec nodes false)]
  apply Multiset.filter_eq_self.mpr
  intro c hc heq
  exact constBool_notMem_placed spec nodes true (heq ▸ hc)

theorem simplified_original_iff :
    simplified (spec.originalConjuncts nodes) =
        simplified (spec.allConjuncts.filter (spec.Placeable nodes)) ↔ spec.Keeps nodes := by
  have hsp := congrArg (Multiset.filter (spec.Placeable nodes)) (allConjuncts_split spec nodes)
  rw [filter_add] at hsp
  rw [simplified_placed]
  constructor
  · intro heq edge hedge c hc
    have hff : constBool false ∉ spec.originalConjuncts nodes := by
      intro hmem
      rw [simplified_of_mem hmem] at heq
      apply constBool_notMem_placed spec nodes false
      rw [← heq]
      exact Multiset.mem_singleton_self _
    rw [simplified_of_notMem hff] at heq
    split
    case isTrue hsub =>
      by_cases htrue : c = constBool true
      · exact .inl htrue
      · right
        have hmem : c ∈ (spec.originalConjuncts nodes).filter (· ≠ constBool true) :=
          Multiset.mem_filter.mpr ⟨mem_originalConjuncts.mpr ⟨edge,hedge,hsub,hc⟩,htrue⟩
        rw [heq] at hmem
        exact (Multiset.mem_filter.mp hmem).2
    case isFalse hsub =>
      -- a conjunct from outside would be counted once more than the subtree applies it
      intro hpl
      have hcnt := congrArg (Multiset.count c) (heq.trans hsp)
      have hout : 0 < Multiset.count c ((∑ id ∈ Finset.range spec.edgeCount \ spec.inside nodes,
          spec.conjunctsOf id).filter (spec.Placeable nodes)) := by
        rw [count_pos,Multiset.mem_filter]
        exact ⟨mem_outside.mpr ⟨edge,hedge,hsub,hc⟩,hpl⟩
      have hle := count_le_of_le c (filter_le (· ≠ constBool true) (spec.originalConjuncts nodes))
      rw [count_add,count_filter_of_pos hpl] at hcnt
      omega
  · intro hkp
    have hff : constBool false ∉ spec.originalConjuncts nodes := by
      intro hmem
      obtain ⟨edge,hedge,hsub,hc⟩ := mem_originalConjuncts.mp hmem
      have := hkp edge hedge _ hc
      rw [if_pos hsub] at this
      exact this.elim nofun (spec.not_placeable_constBool nodes false)
    have hout : (∑ id ∈ Finset.range spec.edgeCount \ spec.inside nodes,
        spec.conjunctsOf id).filter (spec.Placeable nodes) = 0 := by
      apply filter_eq_nil.mpr
      intro c hc
      obtain ⟨edge,hedge,hsub,hc⟩ := mem_outside.mp hc
      have := hkp edge hedge c hc
      rwa [if_neg hsub] at this
    rw [simplified_of_notMem hff,hsp,hout,add_zero]
    apply Multiset.filter_congr
    intro c hc
    obtain ⟨edge,hedge,hsub,hc⟩ := mem_originalConjuncts.mp hc
    have hcs := hkp edge hedge c hc
    rw [if_pos hsub] at hcs
    constructor
    · exact hcs.resolve_left
    · intro hpl heq
      exact spec.not_placeable_constBool nodes true (heq ▸ hpl)

def OriginalSet (spec : CJoinRegionSpec (CScalar C)) (nodes : Finset ℕ) : Prop :=
  (∃ node, nodes = {node}) ∨
    ∃ (id : ℕ) (edge : CEdge (CScalar C)), spec.edges[id]? = some edge ∧ nodes = edge.all

theorem available_sides {sides : List (Finset ℕ × Finset ℕ)} (h : TopologicallyOrdered sides)
    {p : Finset ℕ × Finset ℕ} (hp : p ∈ sides) : Available sides p.1 ∧ Available sides p.2 := by
  obtain ⟨before,after,rfl⟩ := List.append_of_mem hp
  obtain ⟨h₁,h₂⟩ := h before p after rfl
  exact ⟨h₁.mono fun q hq => List.mem_append_left _ hq,
    h₂.mono fun q hq => List.mem_append_left _ hq⟩

/-- What is known of two sides that a plan joins in either order. -/
structure Joinable (n : ℕ) (sides : List (Finset ℕ × Finset ℕ)) (left right : Finset ℕ) : Prop where
  disjoint : Disjoint left right
  left_nonempty : left.Nonempty
  right_nonempty : right.Nonempty
  within : left ∪ right ⊆ Finset.range n
  left_available : Available sides left
  right_available : Available sides right

theorem Joinable.swap {n : ℕ} {sides : List (Finset ℕ × Finset ℕ)}
    (h : Joinable n sides left right) : Joinable n sides right left :=
  ⟨h.disjoint.symm,h.right_nonempty,h.left_nonempty,Finset.union_comm left right ▸ h.within,
    h.right_available,h.left_available⟩

theorem joinable_of_mem {n : ℕ} {sides : List (Finset ℕ × Finset ℕ)}
    (h : Replayable n sides) (hp : (left, right) ∈ sides) : Joinable n sides left right :=
  ⟨h.disjoint _ hp,(h.nonempty _ hp).1,(h.nonempty _ hp).2,h.within _ hp,
    (available_sides h.ordered hp).1,(available_sides h.ordered hp).2⟩

theorem simplified_cutPredicate (spec : CJoinRegionSpec (CScalar C)) (left right : Finset ℕ) :
    simplified ((spec.cutPredicate left right).pdrgpexprConjuncts : Multiset (CScalar C)) =
      simplified ((ofSpec spec).cutConjuncts left right
        ((left ∪ right).card = spec.nodeCount) : List (CScalar C)) := by
  apply simplified_pexprConjunction
  intro c hc
  obtain ⟨edge,_,hmem⟩ := List.mem_flatMap.mp (List.mem_of_mem_filter hc)
  exact isConjunct_of_mem edge.predicate hmem

variable {s : SMaterialization (CScalar C)}

theorem Replayed.applies_simplified (h : Replayed spec plan plan s) (hb : Built root spec t)
    (hplan : Replayable spec.nodeCount (plan.map sides)) (hn : 1 < spec.nodeCount)
    (hkp : ∀ pair ∈ plan, OriginalSet spec (pair.left ∪ pair.right) →
      simplified (spec.originalConjuncts (pair.left ∪ pair.right)) =
        simplified (spec.placedConjuncts (pair.left ∪ pair.right)))
    {id : ℕ} {a : Multiset (CScalar C)} (ha : s.memo.Applies id a)
    (hns : (nodes, id) ∈ s.subsetGroups.entries) :
    (OriginalSet spec nodes → simplified a = simplified (spec.originalConjuncts nodes)) ∧
      (Available (plan.map sides) nodes →
        simplified a = simplified (spec.placedConjuncts nodes)) := by
  -- both statements agree on a set that is both an original subtree and replayed
  have hag : ∀ nodes, OriginalSet spec nodes → Available (plan.map sides) nodes →
      simplified (spec.originalConjuncts nodes) = simplified (spec.placedConjuncts nodes) := by
    intro nodes horig hav
    rcases hav with ⟨node,rfl⟩ | ⟨p,hp,rfl⟩
    · rw [hb.originalConjuncts_singleton,placedConjuncts_singleton hn]
    · obtain ⟨pair,hpair,rfl⟩ := List.mem_map.mp hp
      exact hkp pair hpair horig
  induction ha generalizing nodes with
  | component hmem =>
    cases h.explained nodes _ hns _ hmem with
    | component heq =>
      rw [heq,hb.originalConjuncts_singleton,placedConjuncts_singleton hn]
      exact ⟨fun _ => rfl,fun _ => rfl⟩
  | join hmem _ _ iha ihb =>
    cases h.explained nodes _ hns _ hmem with
    | @original edge _ _ hedge heq hl hr =>
      obtain ⟨edgeId,hedge⟩ := List.getElem?_of_mem hedge
      have hside : ∀ side, side = _ ∨ side = _ → OriginalSet spec side := fun side hside =>
        (hb.side_cases hedge hside).imp (fun ⟨node,_,heq⟩ => ⟨node,heq⟩) fun h => h
      have hsum := simplified_add (simplified_add ((iha hl).1 (hside _ (.inl rfl)))
        ((ihb hr).1 (hside _ (.inr rfl))))
        (Eq.refl (simplified edge.predicate.pdrgpexprConjuncts))
      rw [← hb.originalConjuncts_all hedge] at hsum
      have horig : OriginalSet spec nodes := .inr ⟨edgeId,_,hedge,heq⟩
      rw [heq] at horig ⊢
      exact ⟨fun _ => hsum,fun hav => hsum.trans (hag _ horig hav)⟩
    | @pair left right _ _ _ hsd heq hl hr =>
      have hjoin : Joinable spec.nodeCount (plan.map sides) left right :=
        hsd.elim (joinable_of_mem hplan ·) fun h => (joinable_of_mem hplan h).swap
      have hsum := simplified_add (simplified_add ((iha hl).2 hjoin.left_available)
        ((ihb hr).2 hjoin.right_available)) (simplified_cutPredicate spec left right)
      rw [placedConjuncts_cut hjoin.disjoint hjoin.left_nonempty hjoin.right_nonempty
        hjoin.within] at hsum
      have hav : Available (plan.map sides) (left ∪ right) := by
        rcases hsd with h | h
        · exact .inr ⟨_,h,rfl⟩
        · exact .inr ⟨_,h,Finset.union_comm _ _⟩
      rw [heq]
      exact ⟨fun horig => hsum.trans (hag _ horig hav).symm,fun _ => hsum⟩

theorem Replayed.exists_applies (h : Replayed spec plan plan s)
    (hplan : Replayable spec.nodeCount (plan.map sides)) (hn : 1 < spec.nodeCount)
    (nodes : Finset ℕ) (hwi : nodes ⊆ Finset.range spec.nodeCount)
    (hav : Available (plan.map sides) nodes) :
    ∃ id a, (nodes, id) ∈ s.subsetGroups.entries ∧ s.memo.Applies id a ∧
      simplified a = simplified (spec.placedConjuncts nodes) := by
  induction hcard : nodes.card using Nat.strong_induction_on generalizing nodes with
  | _ n ih =>
    rcases hav with ⟨node,rfl⟩ | ⟨p,hp,rfl⟩
    · have hnode := Finset.mem_range.mp (hwi (Finset.mem_singleton_self node))
      obtain ⟨hid,hmem⟩ := h.singles node hnode
      exact ⟨node,0,hid,.component hmem,by rw [placedConjuncts_singleton hn]⟩
    · obtain ⟨pair,hpair,rfl⟩ := List.mem_map.mp hp
      have hjoin : Joinable spec.nodeCount (plan.map sides) pair.left pair.right :=
        joinable_of_mem hplan hp
      change (pair.left ∪ pair.right).card = n at hcard
      rw [card_union_of_disjoint hjoin.disjoint] at hcard
      have hposl := hjoin.left_nonempty.card_pos
      have hposr := hjoin.right_nonempty.card_pos
      obtain ⟨l,a,hl,hla,hsa⟩ := ih pair.left.card (by omega) pair.left
        (subset_union_left.trans hwi) hjoin.left_available rfl
      obtain ⟨r,b,hr,hrb,hsb⟩ := ih pair.right.card (by omega) pair.right
        (subset_union_right.trans hwi) hjoin.right_available rfl
      have hpl := placedConjuncts_cut hjoin.disjoint hjoin.left_nonempty
        hjoin.right_nonempty hjoin.within
      obtain ⟨id,l',r',comparison,hid,hmem,hsd⟩ := h.present pair hpair
      rcases hsd with ⟨hl',hr'⟩ | ⟨hl',hr'⟩
      · rw [h.exact.unique_id hl' hl,h.exact.unique_id hr' hr] at hmem
        refine ⟨id,_,hid,.join hmem hla hrb,?_⟩
        rw [simplified_add (simplified_add hsa hsb) (simplified_cutPredicate _ _ _),hpl]
        rfl
      · rw [h.exact.unique_id hl' hr,h.exact.unique_id hr' hl] at hmem
        refine ⟨id,_,hid,.join hmem hrb hla,?_⟩
        rw [add_comm b a,simplified_add (simplified_add hsa hsb) (simplified_cutPredicate _ _ _),
          hpl]
        rfl

end

variable (region : CDPHyperJoinRegion (CScalar C))

/-- The filter that `FEnumerateRegion` gives to its plans. -/
def CDPHyperJoinRegion.pairFilter : PairFilter :=
  fun left right edgeId => (region.fPairApplicable left right edgeId).isSome &&
    (region.fBuildJoinRequest left right).isSome

def CDPHyperJoinRegion.skeletonCut (plan : CDPHyperPlan)
    (edge : CEdge (CScalar C) × ℕ) : Option CDPHyperPlan :=
  if ¬ plan.hasSeen edge.1.left ∨ ¬ plan.hasSeen edge.1.right then none
  else if (region.fBuildJoinRequest edge.1.left edge.1.right).isNone then none
  else
    let (abort, plan) := foundSubgraphPair edge.1.left edge.1.right edge.2 plan
    if abort then none else some plan

/-- The plan of the original cuts; `none` where the source returns false. -/
def CDPHyperJoinRegion.fBuildBinarySkeletonPlan (spec : CJoinRegionSpec (CScalar C))
    (plan : CDPHyperPlan) : Option CDPHyperPlan := do
  let plan := (List.range spec.nodeCount).foldl
    (fun plan node => (foundSingleNode node plan).2) plan
  let plan ← spec.edges.zipIdx.foldlM region.skeletonCut plan
  if plan.complete spec.nodeCount then some plan else none

/-- The plans that `FEnumerateRegion` replays: the pairs of an enumeration, over the graph of the
region or a simplified one, or the original cuts. -/
inductive Planned (spec : CJoinRegionSpec (CScalar C)) : List SPair → Prop
  | enumerated (g : CDPHyperGraph) (budget : ℕ) : CDPHyperGraph.Built spec.nodeCount g →
      Planned spec (CDPHyperEnumerator.enumerate g receiver
        (new budget (some (CDPHyperJoinRegion.ofSpec spec).pairFilter))).2.pairs
  | skeleton (plan : CDPHyperPlan) :
      (CDPHyperJoinRegion.ofSpec spec).fBuildBinarySkeletonPlan spec
        (new (spec.nodeCount - 1) none) = some plan → Planned spec plan.pairs

private theorem growing_skeletonCuts (hb : Built root spec t)
    (region : CDPHyperJoinRegion (CScalar C)) (edges : List (CEdge (CScalar C) × ℕ))
    (hes : ∀ edge ∈ edges, spec.edges[edge.2]? = some edge.1) {plan plan' : CDPHyperPlan}
    (h : Growing spec.nodeCount plan) (hrun : edges.foldlM region.skeletonCut plan = some plan') :
    Growing spec.nodeCount plan' := by
  induction edges generalizing plan with
  | nil =>
    rw [List.foldlM_nil] at hrun
    rw [← Option.some.inj hrun]
    exact h
  | cons edge edges ih =>
    rw [List.foldlM_cons] at hrun
    obtain ⟨next,hnext,hrest⟩ := Option.bind_eq_some_iff.mp hrun
    have hedge := hes edge List.mem_cons_self
    refine ih (fun e he => hes e (List.mem_cons_of_mem _ he)) ?_ hrest
    rw [skeletonCut] at hnext
    split at hnext
    · cases hnext
    case isFalse hseen =>
      rw [not_or,not_not,not_not,hasSeen_eq_true,hasSeen_eq_true] at hseen
      split at hnext
      · cases hnext
      · dsimp only at hnext
        split at hnext
        · cases hnext
        · rw [← Option.some.inj hnext]
          obtain ⟨hl,hr⟩ := hb.sides_nonempty hedge
          exact h.foundSubgraphPair hseen.1 hseen.2 (hb.sides_disjoint hedge) hl hr
            (hb.all_subset_range hedge) edge.2

theorem Planned.replayable (hb : Built root spec t) (h : Planned spec plan) :
    Replayable spec.nodeCount (plan.map sides) := by
  cases h with
  | enumerated g budget hg => exact enumerate_replayable hg budget _
  | skeleton plan hplan =>
    rw [fBuildBinarySkeletonPlan] at hplan
    obtain ⟨plan',hcuts,hco⟩ := Option.bind_eq_some_iff.mp hplan
    have hsin : ∀ (nodes : List ℕ) (plan : CDPHyperPlan), Growing spec.nodeCount plan →
        Growing spec.nodeCount
          (nodes.foldl (fun plan node => (foundSingleNode node plan).2) plan) := by
      intro nodes
      induction nodes with
      | nil => exact fun plan h => h
      | cons node nodes ih => exact fun plan h => ih _ (h.recordSeen (.inl ⟨node,rfl⟩))
    have hgrow := growing_skeletonCuts hb _ _
      (fun edge hedge => List.mk_mem_zipIdx_iff_getElem?.mp hedge)
      (hsin _ _ (growing_new _ _ _)) hcuts
    split at hco
    · rw [← Option.some.inj hco]
      exact hgrow.replayable
    · cases hco

theorem simplified_original_placed [DecidableEq C] (hb : Built root spec t) (nodes : Finset ℕ) :
    simplified (spec.originalConjuncts nodes) = simplified (spec.placedConjuncts nodes) ↔
      (nodes ≠ Finset.range spec.nodeCount → spec.Keeps nodes) := by
  by_cases hfull : nodes = Finset.range spec.nodeCount
  · rw [placedConjuncts,if_pos hfull,hfull,hb.originalConjuncts_range]
    exact ⟨fun _ h => absurd rfl h,fun _ => rfl⟩
  · rw [placedConjuncts,if_neg hfull,simplified_original_iff]
    exact ⟨fun h _ => h,fun h => h hfull⟩

/-- The groups of the original subtrees stay homogeneous exactly when the condition holds for
every proper subtree that the plan joins again. -/
theorem materialize_homogeneous_iff [DecidableEq C] (root : CExpression (CScalar C))
    (spec : CJoinRegionSpec (CScalar C)) (hbuild : build root = some spec)
    (hpure : spec.pureInner = true) (plan : List SPair) (hplan : Planned spec plan) :
    (∀ (id : ℕ) (sub : CExpression (CScalar C)) (edge : CEdge (CScalar C)),
      root.joins[id]? = some sub → spec.edges[id]? = some edge →
      ∃ group, (SMaterialization.materialize spec plan).subsetGroups.lookup edge.all = some group ∧
        ∀ a, (SMaterialization.materialize spec plan).memo.Applies group a →
          simplified a = simplified sub.conjuncts) ↔
    ∀ pair ∈ plan, ∀ edge ∈ spec.edges, pair.left ∪ pair.right = edge.all →
      edge.all ≠ Finset.range spec.nodeCount → spec.Keeps edge.all := by
  have hb := build_built hbuild
  rcases Nat.eq_zero_or_pos spec.edgeCount with hzero | hpos
  · have hnil : spec.edges = [] := List.length_eq_zero_iff.mp hzero
    rw [hnil]
    exact ⟨fun _ _ _ _ h => absurd h List.not_mem_nil,fun _ _ _ _ _ h => by cases h⟩
  have hrep := hplan.replayable hb
  have h := replayed_materialize hb hpure hpos hrep
  have hn : 1 < spec.nodeCount := by
    obtain ⟨edge,hedge,hall⟩ := hb.last_edge hpos
    have := (hb.card_all hedge).2.2
    rw [hall,Finset.card_range] at this
    omega
  constructor
  · intro hom pair hpair edge hedge heq
    rw [← simplified_original_placed hb]
    obtain ⟨id,hid⟩ := List.getElem?_of_mem hedge
    obtain ⟨group,a,hg,hap,hpl⟩ := h.exists_applies hrep hn
      (pair.left ∪ pair.right) (hrep.within pair.sides (List.mem_map_of_mem hpair))
      (.inr ⟨pair.sides,List.mem_map_of_mem hpair,rfl⟩)
    obtain ⟨sub,hsub⟩ := hb.exists_join hid
    obtain ⟨group',hlk,happly⟩ := hom id sub edge hsub hid
    rw [heq] at hg hpl
    rw [h.exact.lookup_iff] at hlk
    rw [h.exact.unique_id hg hlk] at hap
    rw [← hpl,happly a hap,hb.conjuncts_join hsub hid]
  · intro hkp id sub edge hsub hedge
    refine ⟨spec.skeletonGroup id,h.exact.lookup_iff.mpr (h.skeleton id edge hedge),?_⟩
    intro a ha
    have hag : ∀ pair ∈ plan, OriginalSet spec (pair.left ∪ pair.right) →
        simplified (spec.originalConjuncts (pair.left ∪ pair.right)) =
          simplified (spec.placedConjuncts (pair.left ∪ pair.right)) := by
      intro pair hpair horig
      rw [simplified_original_placed hb]
      intro hpr
      have hjoin : Joinable spec.nodeCount (plan.map sides) pair.left pair.right :=
        joinable_of_mem hrep (List.mem_map_of_mem hpair)
      rcases horig with ⟨node,heq⟩ | ⟨id',edge',hedge',heq⟩
      · -- a union of two nonempty sides is not a single input
        have hcard := congrArg Finset.card heq
        rw [card_union_of_disjoint hjoin.disjoint,Finset.card_singleton] at hcard
        have := hjoin.left_nonempty.card_pos
        have := hjoin.right_nonempty.card_pos
        omega
      · rw [heq] at hpr ⊢
        exact hkp pair hpair edge' (List.mem_of_getElem? hedge') heq hpr
    rw [hb.conjuncts_join hsub hedge]
    exact (h.applies_simplified hb hrep hn hag ha (h.skeleton id edge hedge)).1
      (.inr ⟨id,edge,hedge,rfl⟩)

end

namespace FilteredChain

inductive ColumnTest where
  | equal (left right : ℕ)
  | equalsValue (column value : ℕ)
  deriving DecidableEq

instance : ScalarLeaf ColumnTest where
  usedColumns
    | .equal left right => {left, right}
    | .equalsValue column _ => {column}
  fNullRejecting _ _ := false

/-- `(a JOIN b ON p) JOIN c ON b = c`, input `i` with the only column `i`. -/
def root (p : CScalar ColumnTest) : CExpression (CScalar ColumnTest) :=
  .join .inner (.join .inner (.atom ⟨{0}, ∅⟩) (.atom ⟨{1}, ∅⟩) p none) (.atom ⟨{2}, ∅⟩)
    (.other (.equal 1 2)) none

/-- The graph of the two column equalities; the second one is conjunct number `last`. -/
def graph (last : ℕ) : CDPHyperGraph := CDPHyperGraph.ofEdges 3 [⟨{0}, {1}, 0⟩, ⟨{1}, {2}, last⟩]

def joined : CScalar ColumnTest := .other (.equal 0 1)

/-- `a = b AND a = 7`: the second conjunct covers only one input. -/
def filtered : CScalar ColumnTest := .boolAnd [joined, .other (.equalsValue 0 7)]

theorem joined_isSome : (build (root joined)).isSome = true := by decide +kernel

theorem filtered_isSome : (build (root filtered)).isSome = true := by decide +kernel

def spec : CJoinRegionSpec (CScalar ColumnTest) := (build (root joined)).get joined_isSome

def filteredSpec : CJoinRegionSpec (CScalar ColumnTest) :=
  (build (root filtered)).get filtered_isSome

def plan : List SPair :=
  (CDPHyperEnumerator.enumerate (graph 1) receiver
    (new 10 (some (CDPHyperJoinRegion.ofSpec spec).pairFilter))).2.pairs

def filteredPlan : List SPair :=
  (CDPHyperEnumerator.enumerate (graph 2) receiver
    (new 10 (some (CDPHyperJoinRegion.ofSpec filteredSpec).pairFilter))).2.pairs

theorem planned_plan : Planned spec plan :=
  .enumerated (graph 1) 10 (CDPHyperGraph.built_ofEdges (by decide))

theorem planned_filteredPlan : Planned filteredSpec filteredPlan :=
  .enumerated (graph 2) 10 (CDPHyperGraph.built_ofEdges (by decide))

/-- Without the filter the two joins can be replayed in any order. -/
theorem materialize_homogeneous_chain :
    plan.map SPair.sides = [({1}, {2}), ({0}, {1}), ({0}, {1, 2}), ({0, 1}, {2})] ∧
      ∀ (id : ℕ) (sub : CExpression (CScalar ColumnTest)) (edge : CEdge (CScalar ColumnTest)),
        (root joined).joins[id]? = some sub → spec.edges[id]? = some edge →
        ∃ group, (SMaterialization.materialize spec plan).subsetGroups.lookup edge.all =
            some group ∧
          ∀ a, (SMaterialization.materialize spec plan).memo.Applies group a →
            simplified a = simplified sub.conjuncts :=
  ⟨by decide +kernel,(materialize_homogeneous_iff (root joined) spec
    (Option.some_get joined_isSome).symm (by decide +kernel) plan planned_plan).mpr
    (by decide +kernel)⟩

theorem filtered_applies : (materialize filteredSpec filteredPlan).memo.Applies 4
    (0 + 0 + joined.pdrgpexprConjuncts + 0 +
      (CScalar.other (ColumnTest.equal 1 2)).pdrgpexprConjuncts) := by
  have ha : .component 0 ∈ (materialize filteredSpec filteredPlan).memo.group 0 := by decide +kernel
  have hb : .component 1 ∈ (materialize filteredSpec filteredPlan).memo.group 1 := by decide +kernel
  have hc : .component 2 ∈ (materialize filteredSpec filteredPlan).memo.group 2 := by decide +kernel
  have hab : .join .inner 0 1 joined none ∈
      (materialize filteredSpec filteredPlan).memo.group 3 := by decide +kernel
  have habc : .join .inner 3 2 (.other (.equal 1 2)) none ∈
      (materialize filteredSpec filteredPlan).memo.group 4 := by decide +kernel
  exact .join habc (.join hab (.component ha) (.component hb)) (.component hc)

/-- The filter on `a` moves to the root cut of replayed joins only: a complete plan with the
original root and the replayed join below it loses it. -/
theorem materialize_loses_filter :
    build (root filtered) = some filteredSpec ∧ filteredSpec.pureInner = true ∧
      Planned filteredSpec filteredPlan ∧
      ∃ (sub : CExpression (CScalar ColumnTest)) (edge : CEdge (CScalar ColumnTest)) (group : ℕ)
        (a : Multiset (CScalar ColumnTest)),
        (root filtered).joins[1]? = some sub ∧ filteredSpec.edges[1]? = some edge ∧
        (SMaterialization.materialize filteredSpec filteredPlan).subsetGroups.lookup edge.all =
          some group ∧
        (SMaterialization.materialize filteredSpec filteredPlan).memo.Applies group a ∧
        simplified a ≠ simplified sub.conjuncts := by
  refine ⟨(Option.some_get filtered_isSome).symm,by decide +kernel,planned_filteredPlan,
    root filtered,_,4,_,rfl,List.getElem?_eq_getElem (by decide +kernel),by decide +kernel,
    filtered_applies,by decide +kernel⟩

end FilteredChain

end PgOrca
