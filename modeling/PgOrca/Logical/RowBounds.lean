import PgOrca.Logical.MaxCard

/-!
# The derived maximum cardinality bounds the rows

Exceptions are a full outer join without a match whose inputs are as large as derived, one of them
a single row, an outer apply with a constant FALSE predicate and a limit without a count. A node
that no bound is read from may have a wrong one.
-/

namespace PgOrca

open Multiset

variable {C ν : Type*}

theorem toNat_toInt_le (v : Int64) : v.toInt.toNat ≤ v.toUInt64.toNat := by
  have hint : v.toInt = v.toBitVec.toInt := rfl
  have hnat : v.toUInt64.toNat = v.toBitVec.toNat := rfl
  rw [hint,hnat,BitVec.toInt_eq_toNat_cond]
  split <;> omega

def CRowCount.isNull : CRowCount ν → Bool
  | constInt8 none => true
  | _ => false

theorem card_expand_of_scalar {elements : List (CScalarProjectElement ν)}
    (h : hasNonScalarFunction elements = false) (below r : Row ℕ ν) :
    (expand elements below r).card = 1 := by
  rw [expand,card_map,card_range,expansionCount,h]
  rfl

theorem card_windowRows (functions : CWindowFunctions ν) (outer : Row ℕ ν)
    (X : Multiset (Row ℕ ν)) : (windowRows functions outer X).card = X.card := by
  rw [windowRows,card_map,← card_map Prod.fst,functions.assign_rows]

namespace CLogical

open CMaxCard

section

variable {m : Row ℕ ν → Bool} {X Y : Multiset (Row ℕ ν)} {l r : CMaxCard}

theorem bounds_maxcard {fOuterJoin fConstFalse fContradiction : Bool} {n : ℕ}
    (h : ¬ ((fConstFalse && !fOuterJoin) || fContradiction) = true → l.Bounds n)
    (hzero : (fConstFalse && !fOuterJoin) = true ∨ fContradiction = true → n = 0) :
    (maxcard fOuterJoin fConstFalse fContradiction l).Bounds n := by
  rw [maxcard]
  split
  case isTrue hcond =>
    rw [hzero (by simpa using hcond)]
    exact bounds_zero _
  case isFalse hcond => exact h hcond

theorem bounds_bind {f : Row ℕ ν → Multiset (Row ℕ ν)} (hl : l.Bounds X.card)
    (hr : ∀ x ∈ X, r.Bounds (f x).card) : (l.mul r).Bounds (X.bind f).card := by
  by_cases hsat : r.ull = gpoptMaxCard
  · rcases Nat.eq_zero_or_pos X.card with hX | hX
    · rw [card_eq_zero.mp hX,zero_bind]
      exact bounds_zero _
    · refine .inr (le_antisymm (l.mul r).ull_le ?_)
      have hpos : 0 < l.ull := by
        have : 0 < gpoptMaxCard := by decide
        rcases hl with h | h <;> omega
      rw [ull_mul,hsat]
      exact le_min (Nat.le_mul_of_pos_left _ hpos) le_rfl
  · have hself : r.Bounds r.ull := .inl le_rfl
    exact (hl.mul hself).mono (card_bind_le fun x hx => (hr x hx).resolve_right hsat)

theorem bounds_outerJoin (hl : l.Bounds X.card) (hr : r.Bounds Y.card) :
    (if 0 < r.ull then l.mul r else l).Bounds (leftJoin .outer m X Y).card := by
  have hle := card_leftJoin_outer_le m X Y
  rcases Nat.eq_zero_or_pos Y.card with hY | hY
  · rw [hY,max_eq_left (by omega),mul_one] at hle
    split
    case isTrue hpos => exact (hl.of_ull_le (ull_le_mul hpos)).mono hle
    case isFalse => exact hl.mono hle
  · rw [max_eq_right hY] at hle
    have hpos : 0 < r.ull := by
      have : 0 < gpoptMaxCard := by decide
      rcases hr with h | h <;> omega
    rw [if_pos hpos]
    exact (hl.mul hr).mono hle

theorem le_fullJoin_maxcard (fConstFalse fContradiction : Bool) :
    l.ull ≤ (joinMaxCard fConstFalse fContradiction l r .fullOuter).ull ∧
      r.ull ≤ (joinMaxCard fConstFalse fContradiction l r .fullOuter).ull := by
  simp only [joinMaxCard]
  split
  case isTrue hpos =>
    refine ⟨ull_le_mul hpos.2,?_⟩
    rw [ull_mul,mul_comm,← ull_mul]
    exact ull_le_mul hpos.1
  case isFalse => split <;> omega

/-- A single row beside as many rows as are derived for the other side. -/
def LoneRow (l r : CMaxCard) (X Y : Multiset (Row ℕ ν)) : Prop :=
  (l.ull = 1 ∧ X.card = 1) ∧ Y.card = r.ull ∧ 0 < r.ull ∧ r.ull < gpoptMaxCard

theorem bounds_fullJoin_of_match (hm : ∀ x ∈ X, ∀ y ∈ Y, m (x.merge y) = m (y.merge x))
    (hl : l.Bounds X.card) (hr : r.Bounds Y.card) (h : SomeMatch m X Y)
    (fConstFalse fContradiction : Bool) :
    (joinMaxCard fConstFalse fContradiction l r .fullOuter).Bounds (fullJoin m X Y).card := by
  obtain ⟨x,hx,y,hy,-⟩ := id h
  have hX := card_pos_iff_exists_mem.mpr ⟨x,hx⟩
  have hY := card_pos_iff_exists_mem.mpr ⟨y,hy⟩
  rw [joinMaxCard,if_pos ⟨hl.ull_pos hX,hr.ull_pos hY⟩]
  exact (hl.mul hr).mono (card_fullJoin_le_of_match hm h)

/-- Without a match both sides are returned, which is more than the product of the bounds only when
one of them is one. -/
theorem bounds_add_iff (hl : l.Bounds X.card) (hr : r.Bounds Y.card)
    (fConstFalse fContradiction : Bool) :
    (joinMaxCard fConstFalse fContradiction l r .fullOuter).Bounds (X.card + Y.card) ↔
      ¬ (LoneRow l r X Y ∨ LoneRow r l Y X) := by
  obtain ⟨hleft,hrt⟩ := le_fullJoin_maxcard (l := l) (r := r) fConstFalse fContradiction
  have hone : 1 < gpoptMaxCard := by decide
  simp only [LoneRow]
  rcases Nat.eq_zero_or_pos X.card with hX | hX
  · rw [hX,zero_add]
    exact iff_of_true (hr.of_ull_le hrt) (by omega)
  rcases Nat.eq_zero_or_pos Y.card with hY | hY
  · rw [hY,add_zero]
    exact iff_of_true (hl.of_ull_le hleft) (by omega)
  have hlpos := hl.ull_pos hX
  have hrpos := hr.ull_pos hY
  rw [joinMaxCard,if_pos ⟨hlpos,hrpos⟩]
  simp only [CMaxCard.Bounds,ull_mul] at hl hr ⊢
  have hlM := l.ull_le
  have hrM := r.ull_le
  -- the product is the other bound when one of them is one, and at least their sum otherwise
  rcases Nat.lt_or_ge 1 l.ull with hl1 | hl1
  · rcases Nat.lt_or_ge 1 r.ull with hr1 | hr1
    · have hsum : l.ull + r.ull ≤ l.ull * r.ull := by nlinarith
      omega
    · obtain hr1 : r.ull = 1 := by omega
      rw [hr1,mul_one]
      omega
  · obtain hl1 : l.ull = 1 := by omega
    rw [hl1,one_mul]
    omega

end

variable {l r m : CMaxCard} {applyType : EApplyType} {joinType : JoinType}

section

variable [ScalarLeaf C] [ScalarMeaning C ν] [DecidableEq ν] {tables : Tables ν}
  {fContradiction : CLogical C ν → Bool} {env : Row ℕ ν} {predicate : CScalar C}

variable (fContradiction) in
/-- The inputs on whose bound the bound of a node depends. -/
def maxCardInputs : CLogical C ν → List (CLogical C ν)
  | select child predicate =>
    if predicate.fScalarConstFalse || predicate.fScalarConstBoolNull ν
        || fContradiction (select child predicate) then [] else [child]
  | project child elements => if hasNonScalarFunction elements then [] else [child]
  | sequenceProject child _ _ => [child]
  | limit child l =>
    match l.rowCount with
    | .constInt8 _ => []
    | .computed _ => [child]
  | join joinType left right predicate =>
    if joinType = .leftAntiSemi ∨ joinType = .leftAntiSemiNotIn then []
    else if joinType ≠ .fullOuter ∧ fContradiction (join joinType left right predicate) = true ∨
      (joinType = .inner ∨ joinType = .leftSemi) ∧ predicate.fScalarConstFalse = true then []
    else if joinType = .leftSemi then [left]
    else [left, right]
  | apply applyType outer inner predicate =>
    if applyType = .leftAntiSemi ∨ applyType = .leftAntiSemiNotIn then [outer]
    else if predicate.fScalarConstFalse || fContradiction (apply applyType outer inner predicate)
    then []
    else if applyType = .inner then [outer, inner]
    else [outer]
  | setOp op output inputs children =>
    if op = .union ∨ op = .unionAll then children
    else if fContradiction (setOp op output inputs children) then []
    else if op = .intersect ∨ op = .intersectAll then children.take 2
    else children.take 1
  | cteProducer _ child => [child]
  | cteConsumer _ producer => [producer]
  | _ => []

omit [DecidableEq ν] in
theorem maxCardInputs_subset (t : CLogical C ν) :
    maxCardInputs fContradiction t ⊆ t.children := by
  cases t <;> simp only [maxCardInputs,children] <;> (repeat' split) <;>
    simp [List.take_subset]

/-- No full outer join without a match has a single row on one side and as many rows as derived on
the other, an outer apply with a constant FALSE predicate has no outer row, and a limit without a
count leaves no more rows than the number stored for NULL. -/
def Covered (tables : Tables ν) (fContradiction : CLogical C ν → Bool) (env : Row ℕ ν) :
    CLogical C ν → Prop
  | join joinType left right predicate => joinType = .fullOuter →
      SomeMatch (predicate.joinMatch joinType (left.outputColumns ∪ right.outputColumns) env)
        (left.rows tables env) (right.rows tables env) ∨
      ¬ (LoneRow (left.deriveMaxCard fContradiction) (right.deriveMaxCard fContradiction)
          (left.rows tables env) (right.rows tables env) ∨
        LoneRow (right.deriveMaxCard fContradiction) (left.deriveMaxCard fContradiction)
          (right.rows tables env) (left.rows tables env))
  | apply applyType outer _ predicate => applyType = .leftOuter →
      predicate.fScalarConstFalse = true → outer.rows tables env = 0
  | limit child l => l.rowCount.isNull = true →
      (child.rows tables env).card - l.offset env ≤ 2 ^ 31 - 1
  | _ => True

/-- The inner side of an outer apply has at most one row for every outer row. -/
def ScalarInner (tables : Tables ν) : CLogical C ν → Prop
  | apply applyType outer inner _ => applyType = .leftOuter → ∀ env, ∀ x ∈ outer.rows tables env,
      (inner.rows tables (x.scope outer.outputColumns env)).card ≤ 1
  | _ => True

omit [DecidableEq ν] in
theorem joinMatch_of_constFalse (h : predicate.fScalarConstFalse = true)
    (hkind : joinType ≠ .leftAntiSemiNotIn) (columns : Finset ℕ)
    (r : Row ℕ ν) : predicate.joinMatch joinType columns env r = false := by
  rw [CScalar.joinMatch,CScalar.eval_of_constFalse h,JoinType.isMatch,if_neg hkind]
  rfl

omit [DecidableEq ν] in
theorem applyMatch_of_constFalse (h : predicate.fScalarConstFalse = true)
    (hkind : applyType ≠ .leftAntiSemiNotIn) (columns : Finset ℕ)
    (r : Row ℕ ν) : predicate.applyMatch applyType columns env r = false := by
  rw [CScalar.applyMatch,CScalar.eval_of_constFalse h,EApplyType.isMatch,if_neg hkind]
  rfl

variable (fContradiction) in
/-- The derived bound holds for the rows of a node. -/
def Within (tables : Tables ν) (env : Row ℕ ν) (t : CLogical C ν) : Prop :=
  (t.deriveMaxCard fContradiction).Bounds (t.rows tables env).card

theorem within_fullJoin_iff {left right : CLogical C ν}
    (hdisj : Disjoint left.outputColumns right.outputColumns)
    (hl : left.Within fContradiction tables env) (hr : right.Within fContradiction tables env) :
    (join .fullOuter left right predicate).Within fContradiction tables env ↔
      (join .fullOuter left right predicate).Covered tables fContradiction env := by
  have hm : ∀ x ∈ left.rows tables env, ∀ y ∈ right.rows tables env,
      predicate.joinMatch .fullOuter (left.outputColumns ∪ right.outputColumns) env (x.merge y) =
        predicate.joinMatch .fullOuter (left.outputColumns ∪ right.outputColumns) env
          (y.merge x) := by
    intro x hx y hy
    rw [Row.merge_comm (over_rows tables left env x hx) (over_rows tables right env y hy)
      (Finset.disjoint_coe.mpr hdisj)]
  rw [Within,deriveMaxCard,rows,JoinType.rows,Covered,forall_prop_of_true rfl]
  by_cases hmt : SomeMatch (predicate.joinMatch .fullOuter
      (left.outputColumns ∪ right.outputColumns) env) (left.rows tables env)
      (right.rows tables env)
  · exact iff_of_true (bounds_fullJoin_of_match hm hl hr hmt _ _) (.inl hmt)
  · rw [card_fullJoin_of_no_match hm hmt,or_iff_right hmt]
    exact bounds_add_iff hl hr _ _

theorem within_join {left right : CLogical C ν} (hkind : joinType ≠ .fullOuter)
    (hctr : fContradiction (join joinType left right predicate) = true →
      (join joinType left right predicate).rows tables env = 0)
    (ih : ∀ c ∈ maxCardInputs fContradiction (join joinType left right predicate),
      c.Within fContradiction tables env) :
    (join joinType left right predicate).Within fContradiction tables env := by
  have hzero (hcst : predicate.fScalarConstFalse = true →
      (join joinType left right predicate).rows tables env = 0) :
      (predicate.fScalarConstFalse && !false) = true ∨
        fContradiction (join joinType left right predicate) = true →
        ((join joinType left right predicate).rows tables env).card = 0 := by
    rintro (h | h)
    · rw [hcst (by simpa using h),card_zero]
    · rw [hctr h,card_zero]
  have hout : (predicate.fScalarConstFalse && !true) = true ∨
      fContradiction (join joinType left right predicate) = true →
      ((join joinType left right predicate).rows tables env).card = 0 := by
    rintro (h | h)
    · simp at h
    · rw [hctr h,card_zero]
  cases joinType with
  | fullOuter => exact absurd rfl hkind
  | leftAntiSemi | leftAntiSemiNotIn => exact bounds_unbounded _
  | inner =>
    refine bounds_maxcard (fun hne => ?_) (hzero fun h => ?_)
    · have hl := ih left (by simp_all [maxCardInputs])
      have hr := ih right (by simp_all [maxCardInputs])
      exact (hl.mul hr).mono (card_leftJoin_inner_le _ _ _)
    · exact leftJoin_of_no_match (joinMatch_of_constFalse h (by decide) _) (.inl rfl) _ _
  | leftOuter =>
    refine bounds_maxcard (fun hne => ?_) hout
    exact bounds_outerJoin (ih left (by simp_all [maxCardInputs]))
      (ih right (by simp_all [maxCardInputs]))
  | rightOuter =>
    refine bounds_maxcard (fun hne => ?_) hout
    exact bounds_outerJoin (ih right (by simp_all [maxCardInputs]))
      (ih left (by simp_all [maxCardInputs]))
  | leftSemi =>
    refine bounds_maxcard (fun hne => ?_) (hzero fun h => ?_)
    · have hl := ih left (by simp_all [maxCardInputs])
      exact hl.mono (card_leftJoin_semi_le _ _ _)
    · exact leftJoin_of_no_match (joinMatch_of_constFalse h (by decide) _) (.inr rfl) _ _

theorem card_apply_le {outer inner : CLogical C ν} (hk : ∀ x ∈ outer.rows tables env,
      (applyType.kind.extensions (partners
        (predicate.applyMatch applyType (outer.outputColumns ∪ inner.outputColumns) env)
        x (inner.rows tables (x.scope outer.outputColumns env)))).card ≤ 1) :
    ((apply applyType outer inner predicate).rows tables env).card
      ≤ (outer.rows tables env).card := by
  refine le_of_le_of_eq (card_bind_le fun x hx => ?_) (mul_one _)
  rw [card_map]
  exact hk x hx

theorem rows_apply_of_constFalse {outer inner : CLogical C ν}
    (hk : applyType.kind = .inner ∨ applyType.kind = .semi)
    (h : predicate.fScalarConstFalse = true) :
    (apply applyType outer inner predicate).rows tables env = 0 := by
  have hkind : applyType ≠ .leftAntiSemiNotIn := by
    rintro rfl
    rcases hk with hk | hk <;> cases hk
  refine eq_zero_of_forall_notMem fun r hr => ?_
  obtain ⟨x,_,hmap⟩ := mem_bind.mp hr
  rw [extensions_of_no_match (applyMatch_of_constFalse h hkind _) hk] at hmap
  exact notMem_zero _ hmap

theorem outer_eq_zero_of_rows {outer inner : CLogical C ν}
    (h : (apply .leftOuter outer inner predicate).rows tables env = 0) :
    outer.rows tables env = 0 := by
  refine eq_zero_of_forall_notMem fun x hx => ?_
  have hne : LeftKind.outer.extensions (partners (predicate.applyMatch .leftOuter
      (outer.outputColumns ∪ inner.outputColumns) env) x
      (inner.rows tables (x.scope outer.outputColumns env))) ≠ 0 := by
    rw [LeftKind.extensions]
    split
    · exact singleton_ne_zero _
    · exact fun hzero => absurd (congrArg card hzero) (by assumption)
  obtain ⟨w,hw⟩ := exists_mem_of_ne_zero hne
  exact notMem_zero (x.merge w) (h ▸ mem_bind.mpr ⟨x,hx,mem_map_of_mem _ hw⟩)

theorem within_outerApply_iff {outer inner : CLogical C ν}
    (hctr : fContradiction (apply .leftOuter outer inner predicate) = true →
      (apply .leftOuter outer inner predicate).rows tables env = 0)
    (hsc : (apply .leftOuter outer inner predicate).ScalarInner tables)
    (ih : ∀ c ∈ maxCardInputs fContradiction (apply .leftOuter outer inner predicate),
      c.Within fContradiction tables env) :
    (apply .leftOuter outer inner predicate).Within fContradiction tables env ↔
      (apply .leftOuter outer inner predicate).Covered tables fContradiction env := by
  have hempty (h : outer.rows tables env = 0) :
      (apply .leftOuter outer inner predicate).rows tables env = 0 := by
    rw [rows,h,zero_bind]
  rw [Covered,forall_prop_of_true rfl]
  constructor
  · intro h hcst
    have hderived : ((apply .leftOuter outer inner predicate).deriveMaxCard fContradiction).ull
        = 0 := by
      rw [deriveMaxCard,applyMaxCard,maxcard,hcst]
      rfl
    rw [Within,CMaxCard.Bounds,hderived] at h
    exact outer_eq_zero_of_rows (card_eq_zero.mp (Nat.le_zero.mp (h.resolve_right (by decide))))
  · refine fun h => bounds_maxcard (fun hne => ?_) ?_
    · have hl := ih outer (by simp_all [maxCardInputs])
      refine hl.mono (card_apply_le fun x hx => ?_)
      refine (LeftKind.card_extensions_le .outer _).trans (max_le le_rfl ?_)
      exact (card_partners_le _ _ _).trans (hsc rfl env x hx)
    · rintro (hcst | hc)
      · rw [hempty (h (by simpa using hcst)),card_zero]
      · rw [hctr hc,card_zero]

theorem within_apply {outer inner : CLogical C ν} (hkind : applyType ≠ .leftOuter)
    (hctr : fContradiction (apply applyType outer inner predicate) = true →
      (apply applyType outer inner predicate).rows tables env = 0)
    (ih : ∀ c ∈ maxCardInputs fContradiction (apply applyType outer inner predicate),
      ∀ env, c.Within fContradiction tables env) :
    (apply applyType outer inner predicate).Within fContradiction tables env := by
  have hzero (hk : applyType.kind = .inner ∨ applyType.kind = .semi) :
      (predicate.fScalarConstFalse && !false) = true ∨
        fContradiction (apply applyType outer inner predicate) = true →
        ((apply applyType outer inner predicate).rows tables env).card = 0 := by
    rintro (h | h)
    · rw [rows_apply_of_constFalse hk (by simpa using h),card_zero]
    · rw [hctr h,card_zero]
  cases applyType with
  | leftOuter => exact absurd rfl hkind
  | inner =>
    refine bounds_maxcard (fun hne => ?_) (hzero (.inl rfl))
    have hl := ih outer (by simp_all [maxCardInputs]) env
    have hr := ih inner (by simp_all [maxCardInputs])
    refine bounds_bind hl fun x _ => ?_
    rw [card_map]
    exact (hr _).mono (card_partners_le _ _ _)
  | leftSemi =>
    refine bounds_maxcard (fun hne => ?_) (hzero (.inr rfl))
    have hl := ih outer (by simp_all [maxCardInputs]) env
    exact hl.mono (card_apply_le fun x _ => LeftKind.card_extensions_semi_le _)
  | leftAntiSemi | leftAntiSemiNotIn =>
    have hl := ih outer (by simp [maxCardInputs]) env
    exact hl.mono (card_apply_le fun x _ => LeftKind.card_extensions_anti_le _)

theorem forall₂_childTuples {R : List ℕ → CLogical C ν → Prop} {inputs : List (List ℕ)}
    {children : List (CLogical C ν)} (hins : List.Forall₂ R inputs children)
    (h : ∀ c ∈ children, c.Within fContradiction tables env) :
    List.Forall₂ CMaxCard.Bounds (deriveMaxCards fContradiction children)
      ((childTuples tables inputs children env).map card) := by
  induction hins with
  | nil => exact .nil
  | cons _ _ ih =>
    refine .cons ?_ (ih fun c hc => h c (List.mem_cons_of_mem _ hc))
    rw [card_map]
    exact h _ List.mem_cons_self

theorem bounds_smaller {n : CMaxCard} {ms : List CMaxCard} {k : ℕ} (hm : m.Bounds k)
    (hn : n.Bounds k) : (setOpMaxCard.smaller m (n :: ms)).Bounds k := by
  rw [setOpMaxCard.smaller]
  split
  · exact hm
  · exact hn

theorem within_setOp {op : ESetOp} {output : List ℕ} {inputs : List (List ℕ)}
    {children : List (CLogical C ν)} (hwf : (setOp op output inputs children).WellFormedNode)
    (hctr : fContradiction (setOp op output inputs children) = true →
      (setOp op output inputs children).rows tables env = 0)
    (ih : ∀ c ∈ maxCardInputs fContradiction (setOp op output inputs children),
      c.Within fContradiction tables env) :
    (setOp op output inputs children).Within fContradiction tables env := by
  have hcard : ((setOp op output inputs children).rows tables env).card
      = (op.tuples (childTuples tables inputs children env)).card := card_map _ _
  rw [Within,deriveMaxCard]
  generalize hf : fContradiction (setOp op output inputs children) = f at hctr
  have hzero {n : CMaxCard} (hn : f = false →
      n.Bounds (op.tuples (childTuples tables inputs children env)).card) :
      (if f = true then ofUll 0 else n).Bounds
        (op.tuples (childTuples tables inputs children env)).card := by
    cases f
    · exact hn rfl
    · rw [if_pos rfl,← hcard,hctr rfl,card_zero]
      exact bounds_zero _
  rw [hcard]
  match inputs, children, hwf.2.2 with
  | [], [], _ => exact absurd rfl hwf.2.1
  | input :: inputs, child :: children, .cons hin hins =>
    have hhead (hop : op ≠ .union ∧ op ≠ .unionAll) (hf' : f = false) :
        (child.deriveMaxCard fContradiction).Bounds (op.tuples
          (childTuples tables (input :: inputs) (child :: children) env)).card := by
      have hl := ih child (by simp [maxCardInputs,hop,hf,hf']; split <;> simp)
      refine CMaxCard.Bounds.mono hl ((card_le_card (ESetOp.tuples_le_head _ _ op hop)).trans ?_)
      rw [card_map]
    have hsum (hop : op = .union ∨ op = .unionAll) : ((deriveMaxCards fContradiction
        children).foldl CMaxCard.add (child.deriveMaxCard fContradiction)).Bounds (op.tuples
          (childTuples tables (input :: inputs) (child :: children) env)).card := by
      have hall : ∀ c ∈ child :: children, c.Within fContradiction tables env :=
        fun c hc => ih c (by simpa [maxCardInputs,hop] using hc)
      cases forall₂_childTuples (.cons hin hins) hall with
      | cons hm hms => exact (hm.foldl_add hms).mono (ESetOp.tuples_union_le _ _ op hop)
    have hsma (hop : op = .intersect ∨ op = .intersectAll) (hf' : f = false) :
        (setOpMaxCard.smaller (child.deriveMaxCard fContradiction) (deriveMaxCards fContradiction
          children)).Bounds (op.tuples
            (childTuples tables (input :: inputs) (child :: children) env)).card := by
      have hm := hhead (by rcases hop with rfl | rfl <;> simp) hf'
      match inputs, children, hins with
      | [], [], _ => exact hm
      | input' :: inputs, child' :: children, _ =>
        have hr := ih child' (by rcases hop with rfl | rfl <;> simp [maxCardInputs,hf,hf'])
        refine bounds_smaller hm (CMaxCard.Bounds.mono hr ((card_le_card
          (ESetOp.tuples_intersect_le_second _ _ _ op hop)).trans ?_))
        rw [card_map]
    cases op with
    | union => exact hsum (.inl rfl)
    | unionAll => exact hsum (.inr rfl)
    | intersect => exact hzero (hsma (.inl rfl))
    | intersectAll => exact hzero (hsma (.inr rfl))
    | difference | differenceAll => exact hzero (hhead (by simp))

theorem within_limit_iff {child : CLogical C ν} {l : CLimit ν}
    (ih : ∀ c ∈ maxCardInputs fContradiction (limit child l), c.Within fContradiction tables env) :
    (limit child l).Within fContradiction tables env ↔
      (limit child l).Covered tables fContradiction env := by
  have hcard := l.card_keep env (child.rows tables env)
  simp only [Within,deriveMaxCard,rows,Covered]
  rcases hcnt : l.rowCount with (_ | value) | _
  · -- the number stored for NULL is taken for a count
    have hstored : (ofUll (int8Value none)).ull = 2 ^ 31 - 1 := by decide
    rw [hcard,hcnt,CMaxCard.Bounds,hstored]
    simp only [CRowCount.limit,CRowCount.isNull,Option.map_none,Option.elim_none,forall_const]
    have : 2 ^ 31 - 1 ≠ gpoptMaxCard := by decide
    omega
  · refine iff_of_true (bounds_ofUll (le_trans ?_ (toNat_toInt_le value)))
      (by simp [CRowCount.isNull])
    rw [hcard,hcnt]
    exact min_le_left _ _
  · have hl := ih child (by simp [maxCardInputs,hcnt])
    exact iff_of_true (hl.mono (card_le_card (l.keep_le _ _))) (by simp [CRowCount.isNull])

theorem within_iff (s : CLogical C ν) (hwf : s.WellFormedNode)
    (hctr : fContradiction s = true → ∀ env, s.rows tables env = 0) (hsc : s.ScalarInner tables)
    (ih : ∀ c ∈ maxCardInputs fContradiction s, ∀ env, c.Within fContradiction tables env)
    (env : Row ℕ ν) :
    s.Within fContradiction tables env ↔ s.Covered tables fContradiction env := by
  cases s with
  | join joinType left right predicate =>
    by_cases hkind : joinType = .fullOuter
    · subst hkind
      exact within_fullJoin_iff hwf (ih left (by simp [maxCardInputs]) env)
        (ih right (by simp [maxCardInputs]) env)
    · exact iff_of_true (within_join hkind (fun h => hctr h env) fun c hc => ih c hc env)
        fun h => absurd h hkind
  | apply applyType outer inner predicate =>
    by_cases hkind : applyType = .leftOuter
    · subst hkind
      exact within_outerApply_iff (fun h => hctr h env) hsc fun c hc => ih c hc env
    · exact iff_of_true (within_apply hkind (fun h => hctr h env) ih) fun h => absurd h hkind
  | limit child l => exact within_limit_iff fun c hc => ih c hc env
  | get table output keys => exact iff_of_true (bounds_unbounded _) trivial
  | constTableGet output tuples =>
    refine iff_of_true (bounds_ofUll ?_) trivial
    rw [rows,card_map,coe_card]
  | tvf output function =>
    refine iff_of_true ?_ trivial
    rw [Within,deriveMaxCard]
    split
    case isTrue => exact bounds_unbounded _
    case isFalse hset =>
      refine bounds_ofUll ?_
      rw [rows,card_map]
      exact function.tuples_single (by simpa using hset) env
  | select child predicate =>
    refine iff_of_true ?_ trivial
    rw [Within,deriveMaxCard]
    split
    case isTrue hcond =>
      have hzero : (select child predicate).rows tables env = 0 := by
        rw [Bool.or_eq_true,Bool.or_eq_true] at hcond
        rcases hcond with (h | h) | h
        · exact filter_eq_nil.mpr fun r _ => by simp [CScalar.eval_of_constFalse h]
        · exact filter_eq_nil.mpr fun r _ => by simp [CScalar.eval_of_constNull h]
        · exact hctr h env
      rw [hzero]
      exact bounds_zero _
    case isFalse hcond =>
      have hl := ih child (by rw [maxCardInputs,if_neg hcond]; exact .head _) env
      exact hl.mono (card_le_card (filter_le _ _))
  | project child elements =>
    refine iff_of_true ?_ trivial
    rw [Within,deriveMaxCard]
    split
    case isTrue => exact bounds_unbounded _
    case isFalse hset =>
      have hl := ih child (by rw [maxCardInputs,if_neg hset]; exact .head _) env
      refine hl.mono (le_of_le_of_eq (card_bind_le fun r _ => ?_) (mul_one _))
      exact (card_expand_of_scalar (by simpa using hset) _ r).le
  | gbAgg child columns aggregates =>
    refine iff_of_true ?_ trivial
    rw [Within,deriveMaxCard]
    split
    case isTrue hemp =>
      refine bounds_ofUll ?_
      rw [rows,card_map,groupKeys,if_pos hemp,card_singleton]
    case isFalse =>
      split
      case isTrue hc =>
        rw [hctr hc env]
        exact bounds_zero _
      case isFalse => exact bounds_unbounded _
  | sequenceProject child partition functions =>
    refine iff_of_true ?_ trivial
    have hcard : ((sequenceProject child partition functions).rows tables env).card
        = (child.rows tables env).card := by
      conv_rhs => rw [← bind_withKey (Row.tuple partition) (child.rows tables env)]
      simp only [rows,card_bind,Function.comp_def,card_windowRows]
    rw [Within,hcard]
    exact ih child (.head _) env
  | maxOneRow child =>
    refine iff_of_true (bounds_ofUll ?_) trivial
    simp only [rows]
    split
    · assumption
    · exact Nat.zero_le _
  | setOp op output inputs children =>
    refine iff_of_true (within_setOp hwf (fun h => hctr h env) fun c hc => ih c hc env) trivial
  | cteProducer columns child =>
    refine iff_of_true ?_ trivial
    rw [Within,rows,card_map]
    exact ih child (.head _) env
  | cteConsumer columns producer =>
    refine iff_of_true ?_ trivial
    rw [Within,rows,card_map]
    exact ih producer (.head _) env

/-- The rows of all parts that a bound is read from, the expression itself among them, are within
their derived maximum cardinality exactly when each of these parts is covered. -/
theorem card_rows_within_maxCard_iff (t : CLogical C ν) (tables : Tables ν)
    (fContradiction : CLogical C ν → Bool) (hwf : t.WellFormed)
    (hcontra : ∀ s, Subtree s t → fContradiction s = true → ∀ env, s.rows tables env = 0)
    (hscalar : ∀ s, Subtree s t → s.ScalarInner tables) :
    (∀ s, Read (maxCardInputs fContradiction) s t →
      ∀ env, (s.deriveMaxCard fContradiction).Bounds (s.rows tables env).card) ↔
    ∀ s, Read (maxCardInputs fContradiction) s t →
      ∀ env, s.Covered tables fContradiction env := by
  refine forall_read_iff maxCardInputs_subset fun s hs ih => forall_congr' fun env => ?_
  have hsub := hs.subtree maxCardInputs_subset
  exact within_iff s (hwf s hsub) (hcontra s hsub) (hscalar s hsub) ih env

end

end CLogical

namespace SingleRows

open CLogical

def fullJoin (v w : ℕ) : CLogical (CScalarTest ℕ) ℕ :=
  .join .fullOuter (.constTableGet [0] [[some v]]) (.constTableGet [1] [[some w]])
    (.other (.equal 0 1))

theorem forall_subtree_fullJoin {P : CLogical (CScalarTest ℕ) ℕ → Prop} {v w : ℕ}
    (hroot : P (fullJoin v w)) (hleaf : ∀ column u, P (.constTableGet [column] [[some u]])) :
    ∀ s, Subtree s (fullJoin v w) → P s := by
  refine forall_subtree_iff.mpr ⟨hroot,fun c hc s hs => ?_⟩
  simp only [fullJoin,children,List.mem_cons,List.not_mem_nil,or_false] at hc
  rcases hc with rfl | rfl
  all_goals
    cases hs with
    | refl => exact hleaf _ _
    | child h _ => cases h

theorem wellFormed_fullJoin (v w : ℕ) : (fullJoin v w).WellFormed := by
  have hdisj : Disjoint ([0] : List ℕ).toFinset ([1] : List ℕ).toFinset := by decide
  exact forall_subtree_fullJoin hdisj fun _ _ => List.nodup_singleton _

theorem scalarInner_fullJoin (v w : ℕ) (tables : Tables ℕ) (s : CLogical (CScalarTest ℕ) ℕ)
    (hs : Subtree s (fullJoin v w)) : s.ScalarInner tables :=
  forall_subtree_fullJoin trivial (fun _ _ => trivial) s hs

/-- Neither row has a partner: two rows where one is derived. -/
theorem unmatched_exceeds_maxCard :
    (fullJoin 1 2).WellFormed ∧
      (∀ s, Subtree s (fullJoin 1 2) → s.ScalarInner fun _ => 0) ∧
      ((fullJoin 1 2).deriveMaxCard fun _ => false).ull = 1 ∧
      ((fullJoin 1 2).rows (fun _ => 0) Row.null).card = 2 :=
  ⟨wellFormed_fullJoin 1 2,scalarInner_fullJoin 1 2 _,by decide,by decide⟩

theorem covered_fullJoin (v : ℕ) (tables : Tables ℕ) (s : CLogical (CScalarTest ℕ) ℕ)
    (hs : Subtree s (fullJoin v v)) (env : Row ℕ ℕ) : s.Covered tables (fun _ => false) env := by
  refine forall_subtree_fullJoin (fun _ => .inl ?_) (fun _ _ => trivial) s hs
  refine ⟨Row.ofTuple [0] [some v],mem_singleton_self _,
    Row.ofTuple [1] [some v],mem_singleton_self _,?_⟩
  simp [CScalar.joinMatch,CScalar.eval,ScalarMeaning.eval,CScalarTest.equal,Row.scope,
    outputColumns,Row.merge,Row.ofTuple,Row.null,JoinType.isMatch]

theorem matched_within_maxCard :
    ((fullJoin 1 1).deriveMaxCard fun _ => false).Bounds
      ((fullJoin 1 1).rows (fun _ => 0) Row.null).card :=
  (card_rows_within_maxCard_iff (fullJoin 1 1) (fun _ => 0) (fun _ => false)
    (wellFormed_fullJoin 1 1) (fun _ _ h => absurd h Bool.false_ne_true)
    (scalarInner_fullJoin 1 1 _)).mpr
    (fun s hs => covered_fullJoin 1 _ s (hs.subtree maxCardInputs_subset)) _ (.refl _) Row.null

end SingleRows

end PgOrca
