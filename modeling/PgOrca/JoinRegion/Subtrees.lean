import PgOrca.JoinRegion.Conjuncts
import PgOrca.JoinRegion.Eligibility

/-!
# The original subtrees of a region and their conjuncts

The edges whose nodes lie inside an original subtree are those of its own joins.
-/

namespace PgOrca

open Finset
open CEdge (all)

namespace CExpression

/-- The joins of the tree, a join after the joins below it. -/
def joins {P : Type*} : CExpression P → List (CExpression P)
  | .atom _ => []
  | .join joinType l r predicate comparison =>
    l.joins ++ r.joins ++ [.join joinType l r predicate comparison]

def conjuncts {C : Type*} : CExpression (CScalar C) → Multiset (CScalar C)
  | .atom _ => 0
  | .join _ l r predicate _ => l.conjuncts + r.conjuncts + predicate.pdrgpexprConjuncts

end CExpression

variable {u : BinaryTree ℕ ℕ}

namespace CJoinRegionSpec

section

variable {P : Type*} [ScalarPredicate P] {root : CExpression P} {spec : CJoinRegionSpec P}
  {t : BinaryTree ℕ ℕ} {id id' : ℕ} {edge edge' : CEdge P}

section

variable (hb : Built root spec t) (hedge : spec.edges[id]? = some edge)

include hb hedge

theorem Built.exists_branch :
    ∃ l r, t.IsBranch id l r ∧ edge.left = l.leaves ∧ edge.right = r.leaves := by
  have hlb : id ∈ t.labels := by
    rw [hb.labels]
    exact List.mem_range.mpr (List.getElem?_eq_some_iff.mp hedge).1
  obtain ⟨l,r,hbr⟩ := BinaryTree.mem_labels.mp hlb
  obtain ⟨edge',hedge',hl,hr⟩ := hb.numbered.sides hbr
  rw [hedge,Option.some.injEq] at hedge'
  subst hedge'
  exact ⟨l,r,hbr,hl,hr⟩

theorem Built.all_subset_range : edge.all ⊆ range spec.nodeCount := by
  obtain ⟨l,r,hbr,hl,hr⟩ := hb.exists_branch hedge
  rw [all,hl,hr,← hb.leaves]
  exact hbr.leaves_subset

theorem Built.sides_disjoint : Disjoint edge.left edge.right := by
  obtain ⟨l,r,hbr,hl,hr⟩ := hb.exists_branch hedge
  rw [hl,hr]
  exact hbr.disjoint hb.separated

theorem Built.sides_nonempty : edge.left.Nonempty ∧ edge.right.Nonempty := by
  obtain ⟨l,r,_,hl,hr⟩ := hb.exists_branch hedge
  rw [hl,hr]
  exact ⟨l.leaves_nonempty,r.leaves_nonempty⟩

theorem Built.card_all :
    edge.left.card < edge.all.card ∧ edge.right.card < edge.all.card ∧ 2 ≤ edge.all.card := by
  obtain ⟨hl,hr⟩ := hb.sides_nonempty hedge
  rw [all,card_union_of_disjoint (hb.sides_disjoint hedge)]
  have := hl.card_pos
  have := hr.card_pos
  omega

theorem Built.below (hedge' : spec.edges[id']? = some edge') (hsub : edge'.all ⊆ edge.all) :
    id' = id ∨ (id' < id ∧ (edge'.all ⊆ edge.left ∨ edge'.all ⊆ edge.right)) := by
  obtain ⟨l,r,hbr,hl,hr⟩ := hb.exists_branch hedge
  obtain ⟨l',r',hbr',hl',hr'⟩ := hb.exists_branch hedge'
  rw [all,all,hl,hr,hl',hr'] at hsub
  have hlb : t.labels.Pairwise (· < ·) := by
    rw [hb.labels]
    exact List.pairwise_lt_range
  rw [all,hl,hr,hl',hr']
  rcases BinaryTree.IsBranch.of_leaves_subset hb.separated hbr hbr' hsub with ⟨rfl,_⟩ | h | h
  · exact .inl rfl
  · exact .inr ⟨hbr.label_lt hlb (.inl (BinaryTree.mem_labels.mpr ⟨l',r',h⟩)),
      Or.inl h.leaves_subset⟩
  · exact .inr ⟨hbr.label_lt hlb (.inr (BinaryTree.mem_labels.mpr ⟨l',r',h⟩)),
      Or.inr h.leaves_subset⟩

theorem Built.all_injective (hedge' : spec.edges[id']? = some edge')
    (heq : edge.all = edge'.all) : id = id' := by
  rcases hb.below hedge hedge' heq.superset with h | h
  · exact h.symm
  · rcases hb.below hedge' hedge heq.subset with h' | h'
    · exact h'
    · omega

theorem Built.side_cases {side : Finset ℕ} (hside : side = edge.left ∨ side = edge.right) :
    (∃ node < spec.nodeCount, side = {node}) ∨
      ∃ (id' : ℕ) (edge' : CEdge P), spec.edges[id']? = some edge' ∧ side = edge'.all := by
  obtain ⟨l,r,hbr,hl,hr⟩ := hb.exists_branch hedge
  have hcs : ∀ u : BinaryTree ℕ ℕ, u.leaves ⊆ t.leaves →
      (∀ b x y, u.IsBranch b x y → t.IsBranch b x y) →
      (∃ node < spec.nodeCount, u.leaves = {node}) ∨
        ∃ (id' : ℕ) (edge' : CEdge P), spec.edges[id']? = some edge' ∧ u.leaves = edge'.all := by
    intro u hu hin
    cases u with
    | leaf node =>
      rw [hb.leaves] at hu
      exact .inl ⟨node,mem_range.mp (hu (mem_singleton_self node)),rfl⟩
    | branch b x y =>
      obtain ⟨edge',hedge',hx,hy⟩ :=
        hb.numbered.sides (hin b x y BinaryTree.isBranch_root)
      refine .inr ⟨b,edge',hedge',?_⟩
      rw [all,hx,hy]
      rfl
  have hlv := hbr.leaves_subset
  rcases hside with rfl | rfl
  · rw [hl]
    exact hcs l (subset_union_left.trans hlv) fun b x y h => hbr.trans (.inr (.inl h))
  · rw [hr]
    exact hcs r (subset_union_right.trans hlv) fun b x y h => hbr.trans (.inr (.inr h))

theorem Built.side_earlier {side : Finset ℕ} (hside : side = edge.left ∨ side = edge.right) :
    (∃ node < spec.nodeCount, side = {node}) ∨
      ∃ id' < id, ∃ edge' : CEdge P, spec.edges[id']? = some edge' ∧ side = edge'.all := by
  refine (hb.side_cases hedge hside).imp_right fun ⟨id',edge',hedge',hall⟩ => ?_
  obtain ⟨hl,hr,_⟩ := hb.card_all hedge
  have hlt : side.card < edge.all.card ∧ side ⊆ edge.all := by
    rcases hside with rfl | rfl
    · exact ⟨hl,subset_union_left⟩
    · exact ⟨hr,subset_union_right⟩
  rcases hb.below hedge hedge' (hall ▸ hlt.2) with heq | ⟨hid,_⟩
  · subst heq
    rw [hedge,Option.some.injEq] at hedge'
    subst hedge'
    rw [hall] at hlt
    exact absurd hlt.1 (lt_irrefl _)
  · exact ⟨id',hid,edge',hedge',hall⟩

end

theorem Built.last_edge (hb : Built root spec t) (hpos : 0 < spec.edgeCount) :
    ∃ edge, spec.edges[spec.edgeCount - 1]? = some edge ∧
      edge.all = range spec.nodeCount := by
  have hlb := hb.labels
  cases t with
  | leaf node =>
    rw [BinaryTree.labels] at hlb
    have := congrArg List.length hlb
    rw [List.length_nil,List.length_range] at this
    omega
  | branch b l r =>
    obtain ⟨edge,hedge,hl,hr⟩ := hb.numbered.sides BinaryTree.isBranch_root
    have hlast : b = spec.edgeCount - 1 := by
      rw [BinaryTree.labels,show spec.edgeCount = spec.edgeCount - 1 + 1 by omega,
        List.range_succ] at hlb
      exact List.singleton_inj.mp (List.append_inj' hlb rfl).2
    refine ⟨edge,hlast ▸ hedge,?_⟩
    rw [all,hl,hr,← hb.leaves]
    rfl

omit [ScalarPredicate P] in
theorem forall₂_joins {atoms : List CAtom} {edges : List (CEdge P)} {e : CExpression P}
    (h : e.NumberedIn atoms edges u) (hin : ∀ b l r, u.IsBranch b l r → t.IsBranch b l r) :
    List.Forall₂ (fun sub id => ∃ l r, t.IsBranch id l r ∧
      sub.NumberedIn atoms edges (.branch id l r)) e.joins u.labels := by
  induction e generalizing u with
  | atom input =>
    cases u with
    | leaf node => exact .nil
    | branch b l r => exact h.elim
  | join joinType el er p comparison ihl ihr =>
    cases u with
    | leaf node => exact h.elim
    | branch b l r =>
      have hroot := hin b l r BinaryTree.isBranch_root
      refine List.rel_append (List.rel_append (ihl h.1 ?_) (ihr h.2.1 ?_))
        (.cons ⟨l,r,hroot,h⟩ .nil)
      · exact fun b' l' r' h' => hroot.trans (.inr (.inl h'))
      · exact fun b' l' r' h' => hroot.trans (.inr (.inr h'))

theorem Built.join_numbered (hb : Built root spec t) {sub : CExpression P}
    (hsub : root.joins[id]? = some sub) :
    ∃ l r, t.IsBranch id l r ∧ sub.NumberedIn spec.atoms spec.edges (.branch id l r) := by
  have hall := forall₂_joins hb.numbered fun _ _ _ h => h
  obtain ⟨hlt,rfl⟩ := List.getElem?_eq_some_iff.mp hsub
  have hlt' : id < t.labels.length := hall.length_eq ▸ hlt
  have hget := (List.forall₂_iff_get.mp hall).2 id hlt hlt'
  have hlb : t.labels.get ⟨id,hlt'⟩ = id := by
    simp only [List.get_eq_getElem,hb.labels,List.getElem_range]
  rwa [hlb] at hget

theorem Built.exists_join (hb : Built root spec t) (hedge : spec.edges[id]? = some edge) :
    ∃ sub, root.joins[id]? = some sub := by
  have hlen := (forall₂_joins hb.numbered fun _ _ _ h => h : List.Forall₂ _ _ t.labels).length_eq
  rw [hb.labels,List.length_range] at hlen
  have hlt : id < root.joins.length := hlen ▸ (List.getElem?_eq_some_iff.mp hedge).1
  exact ⟨_,List.getElem?_eq_getElem hlt⟩

end

section

variable {C : Type*} {spec : CJoinRegionSpec (CScalar C)}

def conjunctsOf (spec : CJoinRegionSpec (CScalar C)) (id : ℕ) : Multiset (CScalar C) :=
  match spec.edges[id]? with
  | some edge => edge.predicate.pdrgpexprConjuncts
  | none => 0

theorem conjunctsOf_edge {id : ℕ} {edge : CEdge (CScalar C)}
    (h : spec.edges[id]? = some edge) : spec.conjunctsOf id = edge.predicate.pdrgpexprConjuncts := by
  rw [conjunctsOf,h]

def inside (spec : CJoinRegionSpec (CScalar C)) (nodes : Finset ℕ) : Finset ℕ :=
  (Finset.range spec.edgeCount).filter fun id => ∃ edge ∈ spec.edges[id]?, edge.all ⊆ nodes

theorem mem_inside {nodes : Finset ℕ} {id : ℕ} :
    id ∈ spec.inside nodes ↔ ∃ edge, spec.edges[id]? = some edge ∧ edge.all ⊆ nodes := by
  rw [inside,mem_filter,mem_range]
  constructor
  · intro ⟨_,edge,hedge,hsub⟩
    exact ⟨edge,hedge,hsub⟩
  · intro ⟨edge,hedge,hsub⟩
    exact ⟨(List.getElem?_eq_some_iff.mp hedge).1,edge,hedge,hsub⟩

def originalConjuncts (spec : CJoinRegionSpec (CScalar C)) (nodes : Finset ℕ) :
    Multiset (CScalar C) :=
  ∑ id ∈ spec.inside nodes, spec.conjunctsOf id

variable [ScalarLeaf C] {root : CExpression (CScalar C)} {t : BinaryTree ℕ ℕ} {id : ℕ}
  {edge : CEdge (CScalar C)}

section

variable (hb : Built root spec t)

include hb

theorem Built.originalConjuncts_singleton (node : ℕ) : spec.originalConjuncts {node} = 0 := by
  have hemp : spec.inside {node} = ∅ := by
    rw [eq_empty_iff_forall_notMem]
    intro id hid
    obtain ⟨edge,hedge,hsub⟩ := mem_inside.mp hid
    have hle := card_le_card hsub
    have htwo := (hb.card_all hedge).2.2
    rw [card_singleton] at hle
    omega
  rw [originalConjuncts,hemp,sum_empty]

theorem Built.inside_all (hedge : spec.edges[id]? = some edge) :
    spec.inside edge.all = insert id (spec.inside edge.left ∪ spec.inside edge.right) := by
  ext id'
  rw [mem_insert,mem_union,mem_inside,mem_inside,mem_inside]
  constructor
  · intro ⟨edge',hedge',hsub⟩
    rcases hb.below hedge hedge' hsub with h | ⟨_,h | h⟩
    · exact .inl h
    · exact .inr (.inl ⟨edge',hedge',h⟩)
    · exact .inr (.inr ⟨edge',hedge',h⟩)
  · intro h
    rcases h with rfl | ⟨edge',hedge',h⟩ | ⟨edge',hedge',h⟩
    · exact ⟨edge,hedge,Finset.Subset.refl _⟩
    · exact ⟨edge',hedge',h.trans subset_union_left⟩
    · exact ⟨edge',hedge',h.trans subset_union_right⟩

theorem Built.originalConjuncts_all (hedge : spec.edges[id]? = some edge) :
    spec.originalConjuncts edge.all =
      spec.originalConjuncts edge.left + spec.originalConjuncts edge.right +
        edge.predicate.pdrgpexprConjuncts := by
  have hd := hb.sides_disjoint hedge
  have hdis : Disjoint (spec.inside edge.left) (spec.inside edge.right) := by
    rw [disjoint_left]
    intro id' hl hr
    obtain ⟨edge',hedge',hl'⟩ := mem_inside.mp hl
    obtain ⟨edge'',hedge'',hr'⟩ := mem_inside.mp hr
    rw [hedge',Option.some.injEq] at hedge''
    subst hedge''
    have hemp := card_le_card (subset_inter hl' hr')
    have htwo := (hb.card_all hedge').2.2
    rw [disjoint_iff_inter_eq_empty.mp hd,card_empty] at hemp
    omega
  have hfr : id ∉ spec.inside edge.left ∪ spec.inside edge.right := by
    have hcard := hb.card_all hedge
    rw [mem_union,mem_inside,mem_inside]
    rintro (⟨edge',hedge',h⟩ | ⟨edge',hedge',h⟩) <;>
      rw [hedge,Option.some.injEq] at hedge' <;> subst hedge' <;>
      have hle := card_le_card h <;> omega
  rw [originalConjuncts,hb.inside_all hedge,sum_insert hfr,sum_union hdis,
    conjunctsOf_edge hedge,add_comm]
  rfl

private theorem conjuncts_numbered {e : CExpression (CScalar C)}
    (h : e.NumberedIn spec.atoms spec.edges u)
    (hin : ∀ b l r, u.IsBranch b l r → t.IsBranch b l r) :
    e.conjuncts = spec.originalConjuncts u.leaves := by
  induction e generalizing u with
  | atom input =>
    cases u with
    | leaf node => exact (hb.originalConjuncts_singleton node).symm
    | branch b l r => exact h.elim
  | join joinType el er p comparison ihl ihr =>
    cases u with
    | leaf node => exact h.elim
    | branch b l r =>
      have hroot := hin b l r BinaryTree.isBranch_root
      obtain ⟨hl,hr,edge,hedge,hst⟩ := h
      have hall := hb.originalConjuncts_all hedge
      rw [all,hst.left_eq,hst.right_eq,hst.predicate_eq] at hall
      rw [CExpression.conjuncts,BinaryTree.leaves,hall,
        ihl hl fun b' l' r' h' => hroot.trans (.inr (.inl h')),
        ihr hr fun b' l' r' h' => hroot.trans (.inr (.inr h'))]

theorem Built.conjuncts_join {sub : CExpression (CScalar C)} (hsub : root.joins[id]? = some sub)
    (hedge : spec.edges[id]? = some edge) : sub.conjuncts = spec.originalConjuncts edge.all := by
  obtain ⟨l,r,hbr,hnum⟩ := hb.join_numbered hsub
  obtain ⟨edge',hedge',hl,hr⟩ := hb.numbered.sides hbr
  rw [hedge,Option.some.injEq] at hedge'
  subst hedge'
  rw [conjuncts_numbered hb hnum,all,hl,hr]
  · rfl
  · exact fun b l' r' h => hbr.trans h

end

end

end CJoinRegionSpec

end PgOrca
