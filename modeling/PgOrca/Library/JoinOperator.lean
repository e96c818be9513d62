import PgOrca.Library.JoinLaws

/-!
# Reorderable join operators

`Assoc` moves an operator to the other side of another one, `LeftAsscom` and `RightAsscom` exchange
two on the same side. Composing two of them along a path of a tree gives one again.
-/

namespace PgOrca

variable {κ ν : Type*}

inductive JoinKind where
  | left (k : LeftKind)
  | full
  deriving DecidableEq

structure JoinOp (κ ν : Type*) where
  kind : JoinKind
  cond : Row κ ν → Bool
  leftColumns : Set κ
  rightColumns : Set κ

variable (o : JoinOp κ ν)

namespace JoinOp

def rows (X Y : Multiset (Row κ ν)) : Multiset (Row κ ν) :=
  match o.kind with
  | .left k => leftJoin k o.cond X Y
  | .full => fullJoin o.cond X Y

/-- The condition fails on every row whose columns in `C` are all NULL. -/
def Rejects (C : Set κ) : Prop :=
  ∀ r : Row κ ν, (∀ c ∈ C, r c = none) → o.cond r = false

abbrev RejectsLeft : Prop := o.Rejects o.leftColumns

abbrev RejectsRight : Prop := o.Rejects o.rightColumns

/-- `e (f Y X) Z = f Y (e X Z)`. -/
def Assoc (f e : JoinOp κ ν) : Prop :=
  match f.kind, e.kind with
  | .left .inner, .left _ => True
  | .left .outer, .left .outer => e.RejectsLeft
  | .full, .left .outer => e.RejectsLeft
  | .full, .full => f.RejectsRight ∧ e.RejectsLeft
  | _, _ => False

/-- `e (f X Y) Z = f (e X Z) Y`. -/
def LeftAsscom (f e : JoinOp κ ν) : Prop :=
  match f.kind, e.kind with
  | .left _, .left _ => True
  | .left .outer, .full => f.RejectsLeft
  | .full, .left .outer => e.RejectsLeft
  | .full, .full => f.RejectsLeft ∧ e.RejectsLeft
  | _, _ => False

/-- `e Z (f Y X) = f Y (e Z X)`. -/
def RightAsscom (e f : JoinOp κ ν) : Prop :=
  match e.kind, f.kind with
  | .left .inner, .left .inner => True
  | .full, .full => e.RejectsRight ∧ f.RejectsRight
  | _, _ => False

/-! The relations are closed under composition along a path: each lemma is a
finite check over the kinds of the three operators. -/

section

variable {d e f : JoinOp κ ν}

theorem LeftAsscom.trans_assoc (h : LeftAsscom f d) (h' : Assoc d e) : LeftAsscom f e := by
  grind [Assoc,LeftAsscom,RightAsscom]

theorem Assoc.trans (h : Assoc f d) (h' : Assoc d e) : Assoc f e := by
  grind [Assoc,LeftAsscom,RightAsscom]

theorem Assoc.trans_leftAsscom (h : Assoc d f) (h' : LeftAsscom d e) : LeftAsscom f e := by
  grind [Assoc,LeftAsscom,RightAsscom]

theorem RightAsscom.trans_leftAsscom (h : RightAsscom d f) (h' : LeftAsscom d e) : Assoc f e := by
  grind [Assoc,LeftAsscom,RightAsscom]

theorem LeftAsscom.trans_rightAsscom (h : LeftAsscom f d) (h' : RightAsscom e d) : Assoc e f := by
  grind [Assoc,LeftAsscom,RightAsscom]

theorem Assoc.trans_rightAsscom (h : Assoc f d) (h' : RightAsscom e d) : RightAsscom e f := by
  grind [Assoc,LeftAsscom,RightAsscom]

theorem RightAsscom.trans_assoc (h : RightAsscom d f) (h' : Assoc e d) : RightAsscom e f := by
  grind [Assoc,LeftAsscom,RightAsscom]

end

section

variable {e f : JoinOp κ ν} {X Y Z : Multiset (Row κ ν)} {CX CY CZ : Set κ}

theorem rows_left {k : LeftKind} (h : e.kind = .left k) : e.rows X Y = leftJoin k e.cond X Y := by
  rw [rows,h]

theorem rows_full (h : e.kind = .full) : e.rows X Y = fullJoin e.cond X Y := by
  rw [rows,h]

theorem over_rows (e : JoinOp κ ν) (hX : Over X CX) (hY : Over Y CY) :
    Over (e.rows X Y) (CX ∪ CY) := by
  unfold rows
  split
  · exact hX.leftJoin hY
  · exact hX.fullJoin hY

theorem Rejects.failsOn_of_disjoint {C D : Set κ} (h : e.Rejects C) (hD : Disjoint D C) :
    FailsOn e.cond D := by
  intro r hr
  apply h
  intro c hc
  exact hr c fun hmem => Set.disjoint_left.mp hD hmem hc

/-- Where the condition ignores `CY` and no column of `CZ` belongs to the side that
has to be non-NULL, it fails on all rows over `CY` and `CZ`. -/
theorem Rejects.failsOn {C : Set κ} (h : e.Rejects C) (hY : Ignores e.cond CY)
    (hZ : Disjoint CZ C) : FailsOn e.cond (CY ∪ CZ) :=
  (h.failsOn_of_disjoint hZ).union_left hY

theorem LeftAsscom.rows_eq (h : LeftAsscom f e) (hY : Over Y CY) (hZ : Over Z CZ)
    (hYZ : Disjoint CY CZ) (he : Ignores e.cond CY) (hf : Ignores f.cond CZ)
    (hefail : e.RejectsLeft → FailsOn e.cond (CY ∪ CZ))
    (hffail : f.RejectsLeft → FailsOn f.cond (CY ∪ CZ)) :
    e.rows (f.rows X Y) Z = f.rows (e.rows X Z) Y := by
  unfold LeftAsscom at h
  split at h
  case h_1 hfk hek =>
    simp only [rows_left hfk,rows_left hek]
    exact leftJoin_comm hY hZ hYZ he hf
  case h_2 hfk hek =>
    simp only [rows_left hfk,rows_full hek]
    exact (fullJoin_leftJoin_comm hZ hY hYZ.symm hf he (Set.union_comm CY CZ ▸ hffail h)).symm
  case h_3 hfk hek =>
    simp only [rows_full hfk,rows_left hek]
    exact fullJoin_leftJoin_comm hY hZ hYZ he hf (hefail h)
  case h_4 hfk hek =>
    simp only [rows_full hfk,rows_full hek]
    exact fullJoin_comm_fullJoin hY hZ hYZ he hf (hefail h.2) (hffail h.1)
  case h_5 => exact h.elim

theorem Assoc.rows_eq (h : Assoc f e) (hX : Over X CX) (hY : Over Y CY) (hZ : Over Z CZ)
    (hXY : Disjoint CX CY) (hYZ : Disjoint CY CZ) (he : Ignores e.cond CY) (hf : Ignores f.cond CZ)
    (hefail : e.RejectsLeft → FailsOn e.cond (CY ∪ CZ))
    (hffail : f.RejectsRight → FailsOn f.cond (CY ∪ CZ)) :
    e.rows (f.rows Y X) Z = f.rows Y (e.rows X Z) := by
  unfold Assoc at h
  split at h
  case h_1 hfk hek =>
    simp only [rows_left hfk,rows_left hek]
    exact leftJoin_inner_assoc hY hZ he hf
  case h_2 hfk hek =>
    simp only [rows_left hfk,rows_left hek]
    exact leftJoin_outer_assoc hY hZ he hf (hefail h)
  case h_3 hfk hek =>
    simp only [rows_full hfk,rows_left hek]
    exact fullJoin_outer_assoc hY hZ hYZ he hf (hefail h)
  case h_4 hfk hek =>
    simp only [rows_full hfk,rows_full hek]
    have hdisj : Disjoint (CX ∪ CZ) CY := Set.disjoint_union_left.mpr ⟨hXY,hYZ.symm⟩
    calc fullJoin e.cond (fullJoin f.cond Y X) Z
        = fullJoin e.cond (fullJoin f.cond X Y) Z := by rw [fullJoin_swap hY hX hXY.symm]
      _ = fullJoin f.cond (fullJoin e.cond X Z) Y :=
          fullJoin_comm_fullJoin hY hZ hYZ he hf (hefail h.2) (hffail h.1)
      _ = fullJoin f.cond Y (fullJoin e.cond X Z) := fullJoin_swap (hX.fullJoin hZ) hY hdisj
  case h_5 => exact h.elim

theorem RightAsscom.rows_eq (h : RightAsscom e f) (hX : Over X CX) (hY : Over Y CY) (hZ : Over Z CZ)
    (hXY : Disjoint CX CY) (hXZ : Disjoint CX CZ) (hYZ : Disjoint CY CZ) (he : Ignores e.cond CY)
    (hf : Ignores f.cond CZ) (hefail : e.RejectsRight → FailsOn e.cond (CY ∪ CZ))
    (hffail : f.RejectsRight → FailsOn f.cond (CY ∪ CZ)) :
    e.rows Z (f.rows Y X) = f.rows Y (e.rows Z X) := by
  unfold RightAsscom at h
  split at h
  case h_1 hek hfk =>
    simp only [rows_left hfk,rows_left hek]
    rw [leftJoin_inner_swap_nested hX hY hZ hXY hXZ hYZ,leftJoin_comm hY hZ hYZ he hf,
      leftJoin_inner_swap_nested hX hZ hY hXZ hXY hYZ.symm]
  case h_2 hek hfk =>
    simp only [rows_full hfk,rows_full hek]
    rw [fullJoin_swap_nested hX hY hZ hXY hXZ hYZ,
      fullJoin_comm_fullJoin hY hZ hYZ he hf (hefail h.1) (hffail h.2),
      fullJoin_swap_nested hX hZ hY hXZ hXY hYZ.symm]
  case h_3 => exact h.elim

end

end JoinOp

end PgOrca
