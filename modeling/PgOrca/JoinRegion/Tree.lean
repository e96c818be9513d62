import PgOrca.JoinRegion.Spec
import PgOrca.Library.BinaryTree

/-!
# The original join tree of a specification

The numbers that `PbsCollect` gives to inputs and joins are put back on the expression.
-/

namespace PgOrca

open List

variable {P : Type*}

namespace CExpression

variable {tl tr : BinaryTree ℕ ℕ}

def atoms : CExpression P → List CAtom
  | .atom input => [input]
  | .join _ l r _ _ => l.atoms ++ r.atoms

def joinCount : CExpression P → ℕ
  | .atom _ => 0
  | .join _ l r _ _ => l.joinCount + r.joinCount + 1

/-- The tree of node and edge numbers, counted from `node` and `edge`. -/
def number : CExpression P → ℕ → ℕ → BinaryTree ℕ ℕ
  | .atom _, node, _ => .leaf node
  | .join _ l r _ _, node, edge =>
    .branch (edge + l.joinCount + r.joinCount) (l.number node edge)
      (r.number (node + l.atoms.length) (edge + l.joinCount))

theorem leaves_number (e : CExpression P) (node edge : ℕ) :
    (e.number node edge).leaves = Finset.Ico node (node + e.atoms.length) := by
  induction e generalizing node edge with
  | atom input =>
    ext x
    simp only [number,BinaryTree.leaves,atoms,Finset.mem_singleton,Finset.mem_Ico,length_singleton]
    omega
  | join joinType l r predicate comparison ihl ihr =>
    simp only [number,BinaryTree.leaves,ihl,ihr,atoms,length_append]
    rw [Finset.Ico_union_Ico_eq_Ico (by omega) (by omega),Nat.add_assoc]

theorem separated_number (e : CExpression P) (node edge : ℕ) : (e.number node edge).Separated := by
  induction e generalizing node edge with
  | atom input => trivial
  | join joinType l r predicate comparison ihl ihr =>
    refine ⟨ihl _ _,ihr _ _,?_⟩
    rw [leaves_number,leaves_number]
    exact Finset.Ico_disjoint_Ico_consecutive _ _ _

theorem labels_number (e : CExpression P) (node edge : ℕ) :
    (e.number node edge).labels = range' edge e.joinCount := by
  induction e generalizing node edge with
  | atom input => rfl
  | join joinType l r predicate comparison ihl ihr =>
    simp only [number,BinaryTree.labels,ihl,ihr,joinCount]
    rw [range'_append_1,range'_concat,Nat.one_mul,Nat.add_assoc]

/-- The join with this type, these inputs and this predicate occurs in the expression. -/
def IsJoin : CExpression P → JoinType → CExpression P → CExpression P → P → Prop
  | .atom _, _, _, _, _ => False
  | .join joinType l r predicate _, joinType', l', r', predicate' =>
    (joinType = joinType' ∧ l = l' ∧ r = r' ∧ predicate = predicate') ∨
      l.IsJoin joinType' l' r' predicate' ∨ r.IsJoin joinType' l' r' predicate'

/-- The edge stands for the join with the given type, predicate and numbered inputs. -/
structure Stands (edge : CEdge P) (joinType : JoinType) (tl tr : BinaryTree ℕ ℕ) (predicate : P) :
    Prop where
  joinType_eq : edge.joinType = joinType
  left_eq : edge.left = tl.leaves
  right_eq : edge.right = tr.leaves
  predicate_eq : edge.predicate = predicate

/-- The tree has the shape of the expression, its leaves are positions of the inputs, and
the label of every branch is the position of an edge that stands for that join. -/
def NumberedIn (atoms : List CAtom) (edges : List (CEdge P)) :
    CExpression P → BinaryTree ℕ ℕ → Prop
  | .atom input, .leaf node => atoms[node]? = some input
  | .join joinType l r predicate _, .branch id tl tr =>
    NumberedIn atoms edges l tl ∧ NumberedIn atoms edges r tr ∧
      ∃ edge, edges[id]? = some edge ∧ Stands edge joinType tl tr predicate
  | _, _ => False

variable {atoms : List CAtom} {edges : List (CEdge P)} {e : CExpression P} {t : BinaryTree ℕ ℕ}

theorem NumberedIn.mono {atoms' : List CAtom} {edges' : List (CEdge P)}
    (has : ∀ (node : ℕ) (input : CAtom), atoms[node]? = some input → atoms'[node]? = some input)
    (hes : ∀ (id : ℕ) (edge : CEdge P), edges[id]? = some edge →
      ∃ edge' : CEdge P, edges'[id]? = some edge' ∧ edge'.joinType = edge.joinType ∧
        edge'.left = edge.left ∧ edge'.right = edge.right ∧ edge'.predicate = edge.predicate) (ht : e.NumberedIn atoms edges t) :
    e.NumberedIn atoms' edges' t := by
  induction e generalizing t with
  | atom input =>
    cases t with
    | leaf node => exact has node input ht
    | branch id tl tr => exact ht
  | join joinType l r predicate comparison ihl ihr =>
    cases t with
    | leaf node => exact ht
    | branch id tl tr =>
      obtain ⟨hl,hr,edge,hedge,hst⟩ := ht
      obtain ⟨edge',hedge',hty,hle,hri,hp⟩ := hes id edge hedge
      exact ⟨ihl hl,ihr hr,edge',hedge',hty.trans hst.joinType_eq,
        hle.trans hst.left_eq,hri.trans hst.right_eq,hp.trans hst.predicate_eq⟩

private theorem getElem?_append_of_some {α : Type*} {xs : List α} {i : ℕ} {x : α}
    (h : xs[i]? = some x) (ys : List α) : (xs ++ ys)[i]? = some x :=
  (List.getElem?_append_left (List.getElem?_eq_some_iff.mp h).1).trans h

theorem NumberedIn.append (h : e.NumberedIn atoms edges t) (atoms' : List CAtom)
    (edges' : List (CEdge P)) : e.NumberedIn (atoms ++ atoms') (edges ++ edges') t := by
  apply h.mono
  · intro node input hin
    exact getElem?_append_of_some hin atoms'
  · intro id edge hedge
    exact ⟨edge,getElem?_append_of_some hedge edges',rfl,rfl,rfl,rfl⟩

theorem NumberedIn.isJoin {id : ℕ} (h : e.NumberedIn atoms edges t)
    (hb : t.IsBranch id tl tr) : ∃ joinType l r predicate edge, e.IsJoin joinType l r predicate ∧
      l.NumberedIn atoms edges tl ∧ r.NumberedIn atoms edges tr ∧ edges[id]? = some edge ∧
      Stands edge joinType tl tr predicate := by
  induction e generalizing t with
  | atom input =>
    cases t with
    | leaf node => exact hb.elim
    | branch id tl tr => exact h.elim
  | join joinType l r predicate comparison ihl ihr =>
    cases t with
    | leaf node => exact hb.elim
    | branch id' tl' tr' =>
      obtain ⟨hl,hr,edge,hedge,hst⟩ := h
      rcases hb with ⟨rfl,rfl,rfl⟩ | hb | hb
      · exact ⟨joinType,l,r,predicate,edge,.inl ⟨rfl,rfl,rfl,rfl⟩,hl,hr,hedge,hst⟩
      · obtain ⟨ty,l',r',p,edge',hjoin,hrest⟩ := ihl hl hb
        exact ⟨ty,l',r',p,edge',.inr (.inl hjoin),hrest⟩
      · obtain ⟨ty,l',r',p,edge',hjoin,hrest⟩ := ihr hr hb
        exact ⟨ty,l',r',p,edge',.inr (.inr hjoin),hrest⟩

theorem NumberedIn.sides {id : ℕ} (h : e.NumberedIn atoms edges t) (hb : t.IsBranch id tl tr) :
    ∃ edge, edges[id]? = some edge ∧ edge.left = tl.leaves ∧ edge.right = tr.leaves := by
  obtain ⟨_,_,_,_,edge,_,_,_,hedge,hst⟩ := h.isJoin hb
  exact ⟨edge,hedge,hst.left_eq,hst.right_eq⟩

end CExpression

namespace CJoinRegionSpec

structure Collected (e : CExpression P) (spec : CJoinRegionSpec P)
    (out : Finset ℕ × CJoinRegionSpec P) : Prop where
  nodes : out.1 = (e.number spec.nodeCount spec.edgeCount).leaves
  atoms : out.2.atoms = spec.atoms ++ e.atoms
  edges : ∃ new, out.2.edges = spec.edges ++ new ∧ new.length = e.joinCount ∧
    (∀ edge ∈ new, edge.tes = none) ∧
    out.2.pureInner = (spec.pureInner && new.all fun edge => fInnerJoin edge.joinType)
  numbered : e.NumberedIn out.2.atoms out.2.edges (e.number spec.nodeCount spec.edgeCount)

theorem pbsCollect_collected (e : CExpression P) (spec : CJoinRegionSpec P) :
    Collected e spec (pbsCollect e spec) := by
  induction e generalizing spec with
  | atom input =>
    exact ⟨rfl,rfl,⟨[],(append_nil _).symm,rfl,by simp,by simp [pbsCollect]⟩,
      List.getElem?_concat_length⟩
  | join joinType l r predicate comparison ihl ihr =>
    obtain ⟨hnl,hal,⟨newl,hel,hlenl,htesl,hinl⟩,hnuml⟩ := ihl spec
    obtain ⟨hnr,har,⟨newr,her,hlenr,htesr,hinr⟩,hnumr⟩ := ihr (pbsCollect l spec).2
    have hns : (pbsCollect l spec).2.nodeCount = spec.nodeCount + l.atoms.length := by
      rw [nodeCount,hal,length_append,nodeCount]
    have hes : (pbsCollect l spec).2.edgeCount = spec.edgeCount + l.joinCount := by
      rw [edgeCount,hel,length_append,hlenl,edgeCount]
    rw [hns,hes] at hnr hnumr
    refine ⟨?_,?_,?_,?_⟩
    · simp only [pbsCollect,CExpression.number,BinaryTree.leaves]
      rw [← hnl,← hnr]
    · simp only [pbsCollect,CExpression.atoms]
      rw [har,hal,append_assoc]
    · refine ⟨newl ++ newr ++ [CEdge.new joinType (pbsCollect l spec).1
        (pbsCollect r (pbsCollect l spec).2).1 predicate
        (if joinType = .leftAntiSemiNotIn then comparison else none)],?_,?_,?_,?_⟩
      · simp only [pbsCollect]
        rw [her,hel,append_assoc,append_assoc,append_assoc]
      · simp only [length_append,hlenl,hlenr,length_singleton,CExpression.joinCount]
      · intro edge hedge
        simp only [mem_append,mem_singleton] at hedge
        rcases hedge with (h | h) | h
        · exact htesl edge h
        · exact htesr edge h
        · rw [h]
          rfl
      · simp only [pbsCollect,hinr,hinl,all_append,List.all_cons,all_nil,
          Bool.and_true,Bool.and_assoc,CEdge.new]
    · have hlen : (pbsCollect r (pbsCollect l spec).2).2.edges.length =
          spec.edgeCount + l.joinCount + r.joinCount := by
        rw [her,length_append,hlenr,← hes,edgeCount]
      have hleft := hnuml.append r.atoms newr
      rw [← har,← her] at hleft
      refine ⟨?_,?_,?_⟩
      · simpa only [pbsCollect,append_nil] using hleft.append [] _
      · simpa only [pbsCollect,append_nil] using hnumr.append [] _
      · exact ⟨_,by rw [← hlen,pbsCollect,List.getElem?_concat_length],rfl,hnl,hnr,rfl⟩

end CJoinRegionSpec

end PgOrca
