import PgOrca.Library.BinaryTree
import PgOrca.Library.JoinOperator

/-!
# Reordering the operators of a join tree

If every operator cut by a set of leaves could be applied inside it, the restricted trees of two
disjoint sets can be joined by the one operator that only their union cuts.
-/

namespace PgOrca

open Finset

namespace BinaryTree

variable {α β κ ν : Type*} [DecidableEq α]

def combine (o : JoinOp κ ν) : Option (Multiset (Row κ ν)) → Option (Multiset (Row κ ν)) →
    Option (Multiset (Row κ ν))
  | some X, some Y => some (o.rows X Y)
  | some X, none => some X
  | none, Y => Y

@[simp] theorem combine_none_right (o : JoinOp κ ν) (X : Option (Multiset (Row κ ν))) :
    combine o X none = X := by
  cases X <;> rfl

@[simp] theorem combine_none_left (o : JoinOp κ ν) (Y : Option (Multiset (Row κ ν))) :
    combine o none Y = Y := by
  cases Y <;> rfl

/-- The rows of the tree without the leaves outside `s`, if any leaf is left. -/
def evalOn (op : β → JoinOp κ ν) (db : α → Multiset (Row κ ν)) (s : Finset α) :
    BinaryTree α β → Option (Multiset (Row κ ν))
  | leaf a => if a ∈ s then some (db a) else none
  | branch b l r => combine (op b) (l.evalOn op db s) (r.evalOn op db s)

def columns (cols : α → Set κ) (s : Finset α) : Set κ := {c | ∃ a ∈ s, c ∈ cols a}

variable {op : β → JoinOp κ ν} {db : α → Multiset (Row κ ν)} {cols : α → Set κ}
  {s s' u : Finset α} {t l r : BinaryTree α β} {b : β}

theorem evalOn_congr (h : ∀ a ∈ t.leaves, (a ∈ s ↔ a ∈ s')) :
    t.evalOn op db s = t.evalOn op db s' := by
  induction t with
  | leaf a => simp only [evalOn,h a (mem_singleton_self a)]
  | branch b l r ihl ihr =>
    rw [evalOn,evalOn,ihl fun a ha => h a (mem_union_left _ ha),
      ihr fun a ha => h a (mem_union_right _ ha)]

theorem evalOn_union_left (h : Disjoint u t.leaves) :
    t.evalOn op db (s ∪ u) = t.evalOn op db s := by
  apply evalOn_congr
  intro a ha
  rw [mem_union,or_iff_left fun hu => disjoint_left.mp h hu ha]

theorem evalOn_union_right (h : Disjoint s t.leaves) :
    t.evalOn op db (s ∪ u) = t.evalOn op db u := by
  rw [union_comm,evalOn_union_left h]

theorem evalOn_eq_none (h : Disjoint s t.leaves) : t.evalOn op db s = none := by
  induction t with
  | leaf a =>
    rw [leaves,disjoint_singleton_right] at h
    exact if_neg h
  | branch b l r ihl ihr =>
    rw [leaves,disjoint_union_right] at h
    rw [evalOn,ihl h.1,ihr h.2]
    rfl

theorem evalOn_eq_some (op : β → JoinOp κ ν) (db : α → Multiset (Row κ ν))
    (h : ¬ Disjoint s t.leaves) : ∃ X, t.evalOn op db s = some X := by
  induction t with
  | leaf a =>
    rw [leaves,disjoint_singleton_right,not_not] at h
    exact ⟨db a,if_pos h⟩
  | branch b l r ihl ihr =>
    rw [evalOn]
    by_cases hl : Disjoint s l.leaves
    · rw [leaves,disjoint_union_right,not_and] at h
      rw [evalOn_eq_none hl,combine_none_left]
      exact ihr (h hl)
    · obtain ⟨X,hX⟩ := ihl hl
      rw [hX]
      cases r.evalOn op db s with
      | none => exact ⟨X,rfl⟩
      | some Y => exact ⟨_,rfl⟩

theorem evalOn_singleton {a : α} (ha : a ∈ t.leaves) (ht : t.Separated) :
    t.evalOn op db {a} = some (db a) := by
  induction t with
  | leaf a' =>
    rw [leaves,mem_singleton] at ha
    subst ha
    exact if_pos (mem_singleton_self a)
  | branch b l r ihl ihr =>
    obtain ⟨hl,hr,hd⟩ := ht
    rw [evalOn]
    rcases mem_union.mp ha with hal | har
    · have hmiss : Disjoint {a} r.leaves :=
        disjoint_singleton_left.mpr (disjoint_left.mp hd hal)
      rw [ihl hal hl,evalOn_eq_none hmiss,combine_none_right]
    · have hmiss : Disjoint {a} l.leaves :=
        disjoint_singleton_left.mpr (disjoint_right.mp hd har)
      rw [ihr har hr,evalOn_eq_none hmiss,combine_none_left]

omit [DecidableEq α] in
theorem columns_mono (h : s ⊆ u) : columns cols s ⊆ columns cols u :=
  fun _ ⟨a,ha,hc⟩ => ⟨a,h ha,hc⟩

omit [DecidableEq α] in
theorem columns_disjoint (hcols : ∀ a a', a ≠ a' → Disjoint (cols a) (cols a'))
    (h : Disjoint s u) : Disjoint (columns cols s) (columns cols u) := by
  rw [Set.disjoint_left]
  intro c ⟨a,ha,hca⟩ ⟨a',ha',hca'⟩
  have hne : a ≠ a' := by
    intro heq
    subst heq
    exact disjoint_left.mp h ha ha'
  exact Set.disjoint_left.mp (hcols a a' hne) hca hca'

theorem evalOn_over (hdb : ∀ a, Over (db a) (cols a)) {X : Multiset (Row κ ν)}
    (h : t.evalOn op db s = some X) : Over X (columns cols (s ∩ t.leaves)) := by
  induction t generalizing X with
  | leaf a =>
    rw [evalOn] at h
    split at h
    case isTrue ha =>
      rw [← Option.some.inj h]
      apply (hdb a).mono
      intro c hc
      exact ⟨a,mem_inter.mpr ⟨ha,mem_singleton_self a⟩,hc⟩
    case isFalse => cases h
  | branch b l r ihl ihr =>
    have hl : s ∩ l.leaves ⊆ s ∩ (l.leaves ∪ r.leaves) :=
      inter_subset_inter_left subset_union_left
    have hr : s ∩ r.leaves ⊆ s ∩ (l.leaves ∪ r.leaves) :=
      inter_subset_inter_left subset_union_right
    rw [evalOn] at h
    cases hX : l.evalOn op db s with
    | none =>
      rw [hX,combine_none_left] at h
      exact (ihr h).mono (columns_mono hr)
    | some A =>
      cases hY : r.evalOn op db s with
      | none =>
        rw [hX,hY,combine_none_right] at h
        rw [← Option.some.inj h]
        exact (ihl hX).mono (columns_mono hl)
      | some B =>
        rw [hX,hY] at h
        rw [← Option.some.inj h]
        apply ((op b).over_rows (ihl hX) (ihr hY)).mono
        exact Set.union_subset (columns_mono hl) (columns_mono hr)

/-- Operator `b` with inputs `l` and `r` has no conflict with the operators below it
when only the leaves in `s` are present: an operator of which only one side is
present can still be applied later. -/
structure Free (op : β → JoinOp κ ν) (b : β) (l r : BinaryTree α β) (s : Finset α) : Prop where
  left_assoc : ∀ c cl cr, l.IsBranch c cl cr → Disjoint s cl.leaves → ¬ Disjoint s cr.leaves →
    (op c).Assoc (op b)
  left_asscom : ∀ c cl cr, l.IsBranch c cl cr → ¬ Disjoint s cl.leaves → Disjoint s cr.leaves →
    (op c).LeftAsscom (op b)
  right_assoc : ∀ c cl cr, r.IsBranch c cl cr → ¬ Disjoint s cl.leaves → Disjoint s cr.leaves →
    (op b).Assoc (op c)
  right_asscom : ∀ c cl cr, r.IsBranch c cl cr → Disjoint s cl.leaves → ¬ Disjoint s cr.leaves →
    (op b).RightAsscom (op c)

/-- Operator `b` can be applied to the leaves in `s`. -/
structure Applied (op : β → JoinOp κ ν) (cols : α → Set κ) (b : β) (l r : BinaryTree α β)
    (s : Finset α) : Prop where
  meets_left : ¬ Disjoint s l.leaves
  meets_right : ¬ Disjoint s r.leaves
  reads : ∀ u, Disjoint u s → Ignores (op b).cond (columns cols u)
  free : Free op b l r s

/-- Every operator that `s` cuts can be applied to a part of `s`. -/
def Settled (op : β → JoinOp κ ν) (cols : α → Set κ) (t : BinaryTree α β) (s : Finset α) : Prop :=
  ∀ b l r, t.IsBranch b l r → ¬ Disjoint s l.leaves → ¬ Disjoint s r.leaves →
    ∃ s' ⊆ s, Applied op cols b l r s'

theorem Settled.left (h : Settled op cols (branch b l r) s) : Settled op cols l s :=
  fun c cl cr hc => h c cl cr (.inr (.inl hc))

theorem Settled.right (h : Settled op cols (branch b l r) s) : Settled op cols r s :=
  fun c cl cr hc => h c cl cr (.inr (.inr hc))

omit [DecidableEq α] in
theorem meets_mono (h : s ⊆ s') (hs : ¬ Disjoint s u) : ¬ Disjoint s' u :=
  fun hd => hs (hd.mono_left h)

theorem exists_turn {f : β} {fl fr : BinaryTree α β} (hf : t.IsBranch f fl fr)
    (hmt : ¬ Disjoint s t.leaves) (hmiss : Disjoint s (fl.leaves ∪ fr.leaves)) :
    ∃ d dl dr, t.IsBranch d dl dr ∧
      ((dl.IsBranch f fl fr ∧ Disjoint s dl.leaves ∧ ¬ Disjoint s dr.leaves) ∨
        (dr.IsBranch f fl fr ∧ ¬ Disjoint s dl.leaves ∧ Disjoint s dr.leaves)) := by
  induction t with
  | leaf a => exact hf.elim
  | branch b l r ihl ihr =>
    rcases hf with ⟨_,rfl,rfl⟩ | hf | hf
    · exact absurd hmiss hmt
    · by_cases hl : Disjoint s l.leaves
      · rw [leaves,disjoint_union_right,not_and] at hmt
        exact ⟨b,l,r,isBranch_root,.inl ⟨hf,hl,hmt hl⟩⟩
      · obtain ⟨d,dl,dr,hd,hturn⟩ := ihl hf hl
        exact ⟨d,dl,dr,.inr (.inl hd),hturn⟩
    · by_cases hr : Disjoint s r.leaves
      · rw [leaves,disjoint_union_right,not_and'] at hmt
        exact ⟨b,l,r,isBranch_root,.inr ⟨hf,hmt hr,hr⟩⟩
      · obtain ⟨d,dl,dr,hd,hturn⟩ := ihr hf hr
        exact ⟨d,dl,dr,.inr (.inr hd),hturn⟩

/-- Either `s'` already meets the branch `c`, or the path from `c` upwards turns at an
operator `d` that is free in `s`. -/
private theorem meets_or_turn {c : β} {cl cr : BinaryTree α β} (hsub : s' ⊆ s)
    (hfree : ∀ d dl dr, t.IsBranch d dl dr → ¬ Disjoint s dl.leaves → ¬ Disjoint s dr.leaves →
      Free op d dl dr s) (hmt : ¬ Disjoint s' t.leaves) (hc : t.IsBranch c cl cr)
    (hs : ¬ Disjoint s (cl.leaves ∪ cr.leaves)) :
    ¬ Disjoint s' (cl.leaves ∪ cr.leaves) ∨
      ∃ d dl dr, t.IsBranch d dl dr ∧ Free op d dl dr s ∧
        ((dl.IsBranch c cl cr ∧ Disjoint s' dl.leaves ∧ ¬ Disjoint s' dr.leaves) ∨
          (dr.IsBranch c cl cr ∧ ¬ Disjoint s' dl.leaves ∧ Disjoint s' dr.leaves)) := by
  by_cases hmiss : Disjoint s' (cl.leaves ∪ cr.leaves)
  · right
    obtain ⟨d,dl,dr,hd,hturn⟩ := exists_turn hc hmt hmiss
    refine ⟨d,dl,dr,hd,?_,hturn⟩
    rcases hturn with ⟨hin,_,hdr⟩ | ⟨hin,hdl,_⟩
    · apply hfree d dl dr hd _ (meets_mono hsub hdr)
      exact fun hdisj => hs (hdisj.mono_right hin.leaves_subset)
    · apply hfree d dl dr hd (meets_mono hsub hdl)
      exact fun hdisj => hs (hdisj.mono_right hin.leaves_subset)
  · exact .inl hmiss

private theorem meets_left_of_union {u' : Finset α} (hsub : s' ⊆ s) (h : ¬ Disjoint s' (u ∪ u'))
    (hmiss : Disjoint s u') : ¬ Disjoint s' u := by
  intro hd
  exact h (disjoint_union_right.mpr ⟨hd,hmiss.mono_left hsub⟩)

private theorem free_of_applied (hsub : s' ⊆ s) (happ : Applied op cols b l r s')
    (hl : ∀ d dl dr, l.IsBranch d dl dr → ¬ Disjoint s dl.leaves → ¬ Disjoint s dr.leaves →
      Free op d dl dr s)
    (hr : ∀ d dl dr, r.IsBranch d dl dr → ¬ Disjoint s dl.leaves → ¬ Disjoint s dr.leaves →
      Free op d dl dr s) : Free op b l r s := by
  have hleft : ∀ {u u' : Finset α}, ¬ Disjoint s u → ¬ Disjoint s (u ∪ u') := fun h hd =>
    h (hd.mono_right subset_union_left)
  have hrt : ∀ {u u' : Finset α}, ¬ Disjoint s u' → ¬ Disjoint s (u ∪ u') := fun h hd =>
    h (hd.mono_right subset_union_right)
  refine ⟨?_,?_,?_,?_⟩
  · intro c cl cr hc hcl hcr
    rcases meets_or_turn hsub hl happ.meets_left hc (hrt hcr) with hm | ⟨d,dl,dr,hd,hfree,ht⟩
    · rw [union_comm] at hm
      exact happ.free.left_assoc c cl cr hc (hcl.mono_left hsub) (meets_left_of_union hsub hm hcl)
    · rcases ht with ⟨hin,h1,h2⟩ | ⟨hin,h1,h2⟩
      · exact (hfree.left_assoc c cl cr hin hcl hcr).trans (happ.free.left_assoc d dl dr hd h1 h2)
      · exact (hfree.right_asscom c cl cr hin hcl hcr).trans_leftAsscom
          (happ.free.left_asscom d dl dr hd h1 h2)
  · intro c cl cr hc hcl hcr
    rcases meets_or_turn hsub hl happ.meets_left hc (hleft hcl) with hm | ⟨d,dl,dr,hd,hfree,ht⟩
    · exact happ.free.left_asscom c cl cr hc (meets_left_of_union hsub hm hcr) (hcr.mono_left hsub)
    · rcases ht with ⟨hin,h1,h2⟩ | ⟨hin,h1,h2⟩
      · exact (hfree.left_asscom c cl cr hin hcl hcr).trans_assoc
          (happ.free.left_assoc d dl dr hd h1 h2)
      · exact (hfree.right_assoc c cl cr hin hcl hcr).trans_leftAsscom
          (happ.free.left_asscom d dl dr hd h1 h2)
  · intro c cl cr hc hcl hcr
    rcases meets_or_turn hsub hr happ.meets_right hc (hleft hcl) with hm | ⟨d,dl,dr,hd,hfree,ht⟩
    · exact happ.free.right_assoc c cl cr hc (meets_left_of_union hsub hm hcr) (hcr.mono_left hsub)
    · rcases ht with ⟨hin,h1,h2⟩ | ⟨hin,h1,h2⟩
      · exact (hfree.left_asscom c cl cr hin hcl hcr).trans_rightAsscom
          (happ.free.right_asscom d dl dr hd h1 h2)
      · exact (happ.free.right_assoc d dl dr hd h1 h2).trans (hfree.right_assoc c cl cr hin hcl hcr)
  · intro c cl cr hc hcl hcr
    rcases meets_or_turn hsub hr happ.meets_right hc (hrt hcr) with hm | ⟨d,dl,dr,hd,hfree,ht⟩
    · rw [union_comm] at hm
      exact happ.free.right_asscom c cl cr hc (hcl.mono_left hsub) (meets_left_of_union hsub hm hcl)
    · rcases ht with ⟨hin,h1,h2⟩ | ⟨hin,h1,h2⟩
      · exact (hfree.left_assoc c cl cr hin hcl hcr).trans_rightAsscom
          (happ.free.right_asscom d dl dr hd h1 h2)
      · exact (hfree.right_asscom c cl cr hin hcl hcr).trans_assoc
          (happ.free.right_assoc d dl dr hd h1 h2)

/-- An operator that could be applied to a part of `s` is free in the whole of `s`. -/
theorem Settled.free (h : Settled op cols t s) (hb : t.IsBranch b l r) (hl : ¬ Disjoint s l.leaves)
    (hr : ¬ Disjoint s r.leaves) : Free op b l r s := by
  induction t generalizing b l r with
  | leaf a => exact hb.elim
  | branch b' l' r' ihl ihr =>
    rcases hb with ⟨rfl,rfl,rfl⟩ | hb | hb
    · obtain ⟨s',hsub,happ⟩ := h b' l' r' isBranch_root hl hr
      exact free_of_applied hsub happ (fun d dl dr hd => ihl h.left hd)
        (fun d dl dr hd => ihr h.right hd)
    · exact ihl h.left hb hl hr
    · exact ihr h.right hb hl hr

/-- The operator reads only columns of its own inputs. -/
structure Scoped (op : β → JoinOp κ ν) (cols : α → Set κ) (b : β) (l r : BinaryTree α β) :
    Prop where
  leftColumns : (op b).leftColumns = columns cols l.leaves
  rightColumns : (op b).rightColumns = columns cols r.leaves
  reads : ∀ u, Disjoint u (l.leaves ∪ r.leaves) → Ignores (op b).cond (columns cols u)

theorem Scoped.rejects_left (h : Scoped op cols b l r) (hrej : (op b).RejectsLeft) :
    (op b).Rejects (columns cols l.leaves) := by
  rw [← h.leftColumns]
  exact hrej

theorem Scoped.rejects_right (h : Scoped op cols b l r) (hrej : (op b).RejectsRight) :
    (op b).Rejects (columns cols r.leaves) := by
  rw [← h.rightColumns]
  exact hrej

/-- `f` is the one operator that `p` and `q` cut together and neither cuts alone, with
`p` on its left side and `q` on its right side. -/
structure Joins (op : β → JoinOp κ ν) (cols : α → Set κ) (t : BinaryTree α β) (f : β)
    (fl fr : BinaryTree α β) (p q : Finset α) : Prop where
  isBranch : t.IsBranch f fl fr
  disjoint : Disjoint p q
  left_settled : Settled op cols t p
  right_settled : Settled op cols t q
  left_meets : ¬ Disjoint p fl.leaves
  left_misses : Disjoint p fr.leaves
  right_misses : Disjoint q fl.leaves
  right_meets : ¬ Disjoint q fr.leaves
  once : ∀ b l r, t.IsBranch b l r → b ≠ f →
    ¬ Disjoint (p ∪ q) l.leaves → ¬ Disjoint (p ∪ q) r.leaves →
    (¬ Disjoint p l.leaves ∧ ¬ Disjoint p r.leaves ∧ (Disjoint q l.leaves ∨ Disjoint q r.leaves)) ∨
    (¬ Disjoint q l.leaves ∧ ¬ Disjoint q r.leaves ∧ (Disjoint p l.leaves ∨ Disjoint p r.leaves))

/-- What moving operator `b` past operator `f` needs: `b` is applied to `m`, `f` lies in
the input `v` of `b` and is applied to `m` on its side `g` and `o` on the other. -/
structure Exchange (op : β → JoinOp κ ν) (cols : α → Set κ) (b f : β) (v w g : BinaryTree α β)
    (m o : Finset α) : Prop where
  ignores_b : Ignores (op b).cond (columns cols (o ∩ v.leaves))
  ignores_f : Ignores (op f).cond (columns cols (m ∩ w.leaves))
  fails_b : (op b).Rejects (columns cols v.leaves) →
    FailsOn (op b).cond (columns cols (o ∩ v.leaves) ∪ columns cols (m ∩ w.leaves))
  fails_f : (op f).Rejects (columns cols g.leaves) →
    FailsOn (op f).cond (columns cols (o ∩ v.leaves) ∪ columns cols (m ∩ w.leaves))
  xy : Disjoint (columns cols (m ∩ v.leaves)) (columns cols (o ∩ v.leaves))
  xz : Disjoint (columns cols (m ∩ v.leaves)) (columns cols (m ∩ w.leaves))
  yz : Disjoint (columns cols (o ∩ v.leaves)) (columns cols (m ∩ w.leaves))

section

variable {f : β} {fl fr v w g : BinaryTree α β} {m o p q : Finset α}

theorem exchange_of_applied (hcols : ∀ a a', a ≠ a' → Disjoint (cols a) (cols a'))
    (happ : ∃ s' ⊆ m, Applied op cols b l r s') (hf : Scoped op cols f fl fr)
    (hin : v.IsBranch f fl fr) (hvw : Disjoint v.leaves w.leaves) (hmo : Disjoint m o)
    (hg : g.leaves ⊆ fl.leaves ∪ fr.leaves) (hmiss : Disjoint o g.leaves) :
    Exchange op cols b f v w g m o := by
  obtain ⟨s',hsub,happ⟩ := happ
  have hwf : Disjoint (m ∩ w.leaves) (fl.leaves ∪ fr.leaves) :=
    hvw.symm.mono inter_subset_right hin.leaves_subset
  have hign : Ignores (op b).cond (columns cols (o ∩ v.leaves)) :=
    happ.reads _ (hmo.symm.mono inter_subset_left hsub)
  refine ⟨hign,hf.reads _ hwf,?_,?_,?_,?_,?_⟩
  · intro hrej
    exact hrej.failsOn hign (columns_disjoint hcols (hvw.symm.mono_left inter_subset_right))
  · intro hrej
    apply hrej.failsOn_of_disjoint
    rw [Set.disjoint_union_left]
    exact ⟨columns_disjoint hcols (hmiss.mono_left inter_subset_left),
      columns_disjoint hcols (hwf.mono_right hg)⟩
  · exact columns_disjoint hcols (hmo.mono inter_subset_left inter_subset_left)
  · exact columns_disjoint hcols (hvw.mono inter_subset_right inter_subset_right)
  · exact columns_disjoint hcols (hvw.mono inter_subset_right inter_subset_right)

theorem Joins.left (h : Joins op cols (branch b l r) f fl fr p q) (hin : l.IsBranch f fl fr) :
    Joins op cols l f fl fr p q :=
  { h with
    isBranch := hin
    left_settled := h.left_settled.left
    right_settled := h.right_settled.left
    once := fun c cl cr hc => h.once c cl cr (.inr (.inl hc)) }

theorem Joins.right (h : Joins op cols (branch b l r) f fl fr p q) (hin : r.IsBranch f fl fr) :
    Joins op cols r f fl fr p q :=
  { h with
    isBranch := hin
    left_settled := h.left_settled.right
    right_settled := h.right_settled.right
    once := fun c cl cr hc => h.once c cl cr (.inr (.inr hc)) }

private theorem meets_of_branch (hin : t.IsBranch f fl fr)
    (h : ¬ Disjoint s fl.leaves ∨ ¬ Disjoint s fr.leaves) : ¬ Disjoint s t.leaves := by
  intro hd
  have hboth := disjoint_union_right.mp (hd.mono_right hin.leaves_subset)
  rcases h with h | h
  · exact h hboth.1
  · exact h hboth.2

variable (hcols : ∀ a a', a ≠ a' → Disjoint (cols a) (cols a')) (hdb : ∀ a, Over (db a) (cols a))
include hcols hdb

private theorem evalOn_union_step_left (h : Joins op cols (branch b l r) f fl fr p q)
    (hin : l.IsBranch f fl fr) (hne : b ≠ f) (hb : Scoped op cols b l r)
    (hf : Scoped op cols f fl fr) (hlr : Disjoint l.leaves r.leaves)
    (ih : l.evalOn op db (p ∪ q) = combine (op f) (l.evalOn op db p) (l.evalOn op db q)) :
    (branch b l r).evalOn op db (p ∪ q) =
      combine (op f) ((branch b l r).evalOn op db p) ((branch b l r).evalOn op db q) := by
  have hpl := meets_of_branch hin (.inl h.left_meets)
  have hql := meets_of_branch hin (.inr h.right_meets)
  obtain ⟨A,hA⟩ := evalOn_eq_some op db hpl
  obtain ⟨B,hB⟩ := evalOn_eq_some op db hql
  simp only [evalOn,ih,hA,hB]
  by_cases hr : Disjoint (p ∪ q) r.leaves
  · obtain ⟨hpr,hqr⟩ := disjoint_union_left.mp hr
    simp only [evalOn_eq_none hr,evalOn_eq_none hpr,evalOn_eq_none hqr,combine_none_right]
  · have hl : ¬ Disjoint (p ∪ q) l.leaves := meets_mono subset_union_left hpl
    rcases h.once b l r isBranch_root hne hl hr with ⟨_,hpr,hq⟩ | ⟨_,hqr,hp⟩
    · have hqr : Disjoint q r.leaves := hq.resolve_left hql
      obtain ⟨C,hC⟩ := evalOn_eq_some op db hpr
      rw [evalOn_union_left hqr,evalOn_eq_none hqr,hC]
      have hex : Exchange op cols b f l r fl p q :=
        exchange_of_applied hcols (h.left_settled b l r isBranch_root hpl hpr) hf hin hlr
          h.disjoint subset_union_left h.right_misses
      have hlaw := (h.left_settled.free isBranch_root hpl hpr).left_asscom f fl fr hin
        h.left_meets h.left_misses
      exact congrArg some (hlaw.rows_eq (evalOn_over hdb hB) (evalOn_over hdb hC) hex.yz
        hex.ignores_b hex.ignores_f (hex.fails_b ∘ hb.rejects_left) (hex.fails_f ∘ hf.rejects_left))
    · have hpr : Disjoint p r.leaves := hp.resolve_left hpl
      obtain ⟨C,hC⟩ := evalOn_eq_some op db hqr
      rw [evalOn_union_right hpr,evalOn_eq_none hpr,hC]
      have hex : Exchange op cols b f l r fr q p :=
        exchange_of_applied hcols (h.right_settled b l r isBranch_root hql hqr) hf hin hlr
          h.disjoint.symm subset_union_right h.left_misses
      have hlaw := (h.right_settled.free isBranch_root hql hqr).left_assoc f fl fr hin
        h.right_misses h.right_meets
      exact congrArg some (hlaw.rows_eq (evalOn_over hdb hB) (evalOn_over hdb hA)
        (evalOn_over hdb hC) hex.xy hex.yz hex.ignores_b hex.ignores_f
        (hex.fails_b ∘ hb.rejects_left) (hex.fails_f ∘ hf.rejects_right))

private theorem evalOn_union_step_right (h : Joins op cols (branch b l r) f fl fr p q)
    (hin : r.IsBranch f fl fr) (hne : b ≠ f) (hb : Scoped op cols b l r)
    (hf : Scoped op cols f fl fr) (hlr : Disjoint l.leaves r.leaves)
    (ih : r.evalOn op db (p ∪ q) = combine (op f) (r.evalOn op db p) (r.evalOn op db q)) :
    (branch b l r).evalOn op db (p ∪ q) =
      combine (op f) ((branch b l r).evalOn op db p) ((branch b l r).evalOn op db q) := by
  have hpr := meets_of_branch hin (.inl h.left_meets)
  have hqr := meets_of_branch hin (.inr h.right_meets)
  obtain ⟨A,hA⟩ := evalOn_eq_some op db hpr
  obtain ⟨B,hB⟩ := evalOn_eq_some op db hqr
  simp only [evalOn,ih,hA,hB]
  by_cases hl : Disjoint (p ∪ q) l.leaves
  · obtain ⟨hpl,hql⟩ := disjoint_union_left.mp hl
    simp only [evalOn_eq_none hl,evalOn_eq_none hpl,evalOn_eq_none hql,combine_none_left]
  · have hr : ¬ Disjoint (p ∪ q) r.leaves := meets_mono subset_union_left hpr
    rcases h.once b l r isBranch_root hne hl hr with ⟨hpl,_,hq⟩ | ⟨hql,_,hp⟩
    · have hql : Disjoint q l.leaves := hq.resolve_right hqr
      obtain ⟨C,hC⟩ := evalOn_eq_some op db hpl
      rw [evalOn_union_left hql,evalOn_eq_none hql,hC]
      have hex : Exchange op cols b f r l fl p q :=
        exchange_of_applied hcols (h.left_settled b l r isBranch_root hpl hpr) hf hin hlr.symm
          h.disjoint subset_union_left h.right_misses
      have hlaw := (h.left_settled.free isBranch_root hpl hpr).right_assoc f fl fr hin
        h.left_meets h.left_misses
      -- here the exchanged operators change roles: the law is read from right to left
      exact congrArg some (hlaw.rows_eq (evalOn_over hdb hA) (evalOn_over hdb hC)
        (evalOn_over hdb hB) hex.xz hex.yz.symm hex.ignores_f hex.ignores_b
        (Set.union_comm _ _ ▸ hex.fails_f ∘ hf.rejects_left)
        (Set.union_comm _ _ ▸ hex.fails_b ∘ hb.rejects_right)).symm
    · have hpl : Disjoint p l.leaves := hp.resolve_right hpr
      obtain ⟨C,hC⟩ := evalOn_eq_some op db hql
      rw [evalOn_union_right hpl,evalOn_eq_none hpl,hC]
      have hex : Exchange op cols b f r l fr q p :=
        exchange_of_applied hcols (h.right_settled b l r isBranch_root hql hqr) hf hin hlr.symm
          h.disjoint.symm subset_union_right h.left_misses
      have hlaw := (h.right_settled.free isBranch_root hql hqr).right_asscom f fl fr hin
        h.right_misses h.right_meets
      exact congrArg some (hlaw.rows_eq (evalOn_over hdb hB) (evalOn_over hdb hA)
        (evalOn_over hdb hC) hex.xy hex.xz hex.yz hex.ignores_b hex.ignores_f
        (hex.fails_b ∘ hb.rejects_right) (hex.fails_f ∘ hf.rejects_right))

/-- Joining two restricted trees by the operator that only their union cuts restricts
the tree to the union. -/
theorem Joins.evalOn_union (h : Joins op cols t f fl fr p q) (hsep : t.Separated)
    (hnd : t.labels.Nodup) (hsco : ∀ b l r, t.IsBranch b l r → Scoped op cols b l r) :
    t.evalOn op db (p ∪ q) = combine (op f) (t.evalOn op db p) (t.evalOn op db q) := by
  induction t with
  | leaf a => exact h.isBranch.elim
  | branch b l r ihl ihr =>
    obtain ⟨hl,hr,hlr⟩ := hsep
    rw [labels,List.nodup_append'] at hnd
    obtain ⟨hnd,_,hroot⟩ := hnd
    have hne : ∀ fl fr, l.IsBranch f fl fr ∨ r.IsBranch f fl fr → b ≠ f := by
      intro fl fr hin heq
      apply hroot (List.mem_append.mpr _) (List.mem_singleton_self b)
      rcases hin with hin | hin
      · exact .inl (mem_labels.mpr ⟨fl,fr,heq ▸ hin⟩)
      · exact .inr (mem_labels.mpr ⟨fl,fr,heq ▸ hin⟩)
    have hf := hsco f fl fr h.isBranch
    have hb := hsco b l r isBranch_root
    rcases h.isBranch with ⟨rfl,rfl,rfl⟩ | hin | hin
    · simp only [evalOn]
      rw [evalOn_union_left h.right_misses,evalOn_union_right h.left_misses,
        evalOn_eq_none h.left_misses,evalOn_eq_none h.right_misses,combine_none_left,
        combine_none_right]
    · exact evalOn_union_step_left hcols hdb h hin (hne fl fr (.inl hin)) hb hf hlr
        (ihl (h.left hin) hl (List.nodup_append'.mp hnd).1
          fun c cl cr hc => hsco c cl cr (.inr (.inl hc)))
    · exact evalOn_union_step_right hcols hdb h hin (hne fl fr (.inr hin)) hb hf hlr
        (ihr (h.right hin) hr (List.nodup_append'.mp hnd).2.1
          fun c cl cr hc => hsco c cl cr (.inr (.inr hc)))

end

end BinaryTree

end PgOrca
