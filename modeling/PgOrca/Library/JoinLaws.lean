import PgOrca.Library.Rows

/-!
# When two joins may change places

The three ways of moving a join with `Z` past a join with `Y`, for conditions that read `X` and one
of them. Around full joins the conditions also have to fail on rows in which `X` is NULL.
-/

namespace PgOrca

open Multiset LeftKind

variable {κ ν : Type*} {k ke kf : LeftKind} {m me mf : Row κ ν → Bool}
  {X Y Z : Multiset (Row κ ν)} {x w y : Row κ ν} {CX CY CZ : Set κ}

def FailsOn (m : Row κ ν → Bool) (C : Set κ) : Prop := ∀ r : Row κ ν, r.SupportedOn C → m r = false

theorem FailsOn.union_left (h : FailsOn m CZ) (hm : Ignores m CY) : FailsOn m (CY ∪ CZ) := by
  classical
  intro r hr
  have hag : Row.AgreeOff CY r fun c => if c ∈ CY then none else r c := by
    intro c hc
    exact (if_neg hc).symm
  rw [hm _ _ hag]
  apply h
  intro c hc
  by_cases hcY : c ∈ CY
  · exact if_pos hcY
  · exact (if_neg hcY).trans (hr c fun hmem => hmem.elim hcY hc)

theorem partners_merge_right (hw : w.SupportedOn CY) (hm : Ignores me CY) :
    partners me (x.merge w) Z = partners me x Z := by
  apply filter_congr
  intro z _
  rw [hm _ _ ((Row.agreeOff_merge_right hw).merge_congr z)]

theorem partners_merge_left (hy : y.SupportedOn CY) (hm : Ignores me CY) :
    partners me (y.merge x) Z = partners me x Z := by
  apply filter_congr
  intro z _
  rw [hm _ _ ((Row.agreeOff_merge_left hy).merge_congr z)]

theorem partners_leftJoin (hZ : Over Z CZ) (hm : Ignores mf CZ) :
    partners mf y (leftJoin k me X Z) = leftJoin k me (partners mf y X) Z := by
  unfold leftJoin
  rw [partners,partners,filter_bind,bind_filter]
  apply Multiset.bind_congr
  intro x _
  rw [filter_map]
  have hcst : ∀ w ∈ k.extensions (partners me x Z),
      mf (y.merge (x.merge w)) = mf (y.merge x) := fun w hw =>
    hm _ _ ((Row.agreeOff_merge_right (hZ.extension x w hw)).merge_left y)
  split
  case isTrue h =>
    rw [filter_eq_self.mpr]
    intro w hw
    exact (hcst w hw).trans h
  case isFalse h =>
    rw [filter_eq_nil.mpr,Multiset.map_zero]
    intro w hw
    change ¬ mf (y.merge (x.merge w)) = true
    rw [hcst w hw]
    exact h

theorem leftJoin_add (k : LeftKind) (m : Row κ ν → Bool) (X X' Y : Multiset (Row κ ν)) :
    leftJoin k m (X + X') Y = leftJoin k m X Y + leftJoin k m X' Y :=
  add_bind _ _ _

private theorem extensions_outer_zero :
    outer.extensions (0 : Multiset (Row κ ν)) = {Row.null} := rfl

private theorem extensions_outer_of_ne_zero (h : Y ≠ 0) : outer.extensions Y = Y :=
  if_neg fun h0 => h (card_eq_zero.mp h0)

private theorem extensions_outer_ne_zero (Y : Multiset (Row κ ν)) : outer.extensions Y ≠ 0 := by
  by_cases h : Y = 0
  · rw [h,extensions_outer_zero]
    exact singleton_ne_zero _
  · rw [extensions_outer_of_ne_zero h]
    exact h

private theorem extensions_anti_congr (h : X = 0 ↔ Y = 0) :
    anti.extensions X = anti.extensions Y := by
  simp only [extensions]
  rw [← card_eq_zero,← card_eq_zero] at h
  simp only [h]

theorem leftJoin_outer_eq_zero : leftJoin .outer m X Y = 0 ↔ X = 0 := by
  constructor
  · intro h
    by_contra hX
    obtain ⟨x,hx⟩ := exists_mem_of_ne_zero hX
    apply extensions_outer_ne_zero (partners m x Y)
    rw [← Multiset.map_eq_zero (f := x.merge)]
    apply eq_zero_of_forall_notMem
    intro r hr
    exact notMem_zero r (h ▸ mem_bind.mpr ⟨x,hx,hr⟩)
  · intro h
    rw [h]
    exact zero_bind _

theorem partners_eq_zero_of_failsOn (hx : x.SupportedOn CX) (hY : Over Y CY)
    (hm : FailsOn m (CX ∪ CY)) : partners m x Y = 0 := by
  rw [partners,filter_eq_nil]
  intro y hy
  rw [hm _ (hx.merge (hY y hy))]
  exact Bool.false_ne_true

theorem leftJoin_outer_unmatched (h : ∀ x ∈ X, partners m x Y = 0) :
    leftJoin .outer m X Y = X := by
  have hone : leftJoin .outer m X Y = X.bind fun x => {x} := by
    apply Multiset.bind_congr
    intro x hx
    rw [h x hx]
    exact (map_singleton _ _).trans (congrArg _ (Row.merge_null x))
  rw [hone,bind_singleton,map_id']

theorem leftJoin_comm (hY : Over Y CY) (hZ : Over Z CZ) (hYZ : Disjoint CY CZ) (he : Ignores me CY)
    (hf : Ignores mf CZ) :
    leftJoin ke me (leftJoin kf mf X Y) Z = leftJoin kf mf (leftJoin ke me X Z) Y := by
  unfold leftJoin
  rw [bind_assoc,bind_assoc]
  apply Multiset.bind_congr
  intro x _
  rw [bind_map,bind_map]
  -- the extensions of a row by either input do not depend on the other input
  have hl : ∀ w ∈ kf.extensions (partners mf x Y),
      (ke.extensions (partners me (x.merge w) Z)).map (x.merge w).merge =
        (ke.extensions (partners me x Z)).map fun v => (x.merge w).merge v := fun w hw => by
    rw [partners_merge_right (hY.extension x w hw) he]
  have hr : ∀ v ∈ ke.extensions (partners me x Z),
      (kf.extensions (partners mf (x.merge v) Y)).map (x.merge v).merge =
        (kf.extensions (partners mf x Y)).map fun w => (x.merge w).merge v := fun v hv => by
    rw [partners_merge_right (hZ.extension x v hv) hf]
    apply Multiset.map_congr rfl
    intro w hw
    exact Row.merge_right_comm (hZ.extension x v hv) (hY.extension x w hw) hYZ.symm
  rw [Multiset.bind_congr hl,Multiset.bind_congr hr,bind_map_comm]

private theorem bind_merge_left (hy : y.SupportedOn CY) (he : Ignores me CY) :
    (X.bind fun x => (k.extensions (partners me (y.merge x) Z)).map (y.merge x).merge) =
      (leftJoin k me X Z).map y.merge := by
  rw [leftJoin,Multiset.map_bind]
  apply Multiset.bind_congr
  intro x _
  rw [partners_merge_left hy he,map_map]
  apply Multiset.map_congr rfl
  intro w _
  exact Row.merge_assoc y x w

theorem leftJoin_inner_assoc (hY : Over Y CY) (hZ : Over Z CZ) (he : Ignores me CY)
    (hf : Ignores mf CZ) :
    leftJoin ke me (leftJoin .inner mf Y X) Z = leftJoin .inner mf Y (leftJoin ke me X Z) := by
  rw [leftJoin,leftJoin,bind_assoc,leftJoin]
  apply Multiset.bind_congr
  intro y hy
  rw [bind_map,partners_leftJoin hZ hf]
  exact bind_merge_left (hY y hy) he

theorem leftJoin_outer_assoc (hY : Over Y CY) (hZ : Over Z CZ) (he : Ignores me CY)
    (hf : Ignores mf CZ) (hfail : FailsOn me (CY ∪ CZ)) :
    leftJoin .outer me (leftJoin .outer mf Y X) Z =
      leftJoin .outer mf Y (leftJoin .outer me X Z) := by
  rw [leftJoin,leftJoin,bind_assoc,leftJoin]
  apply Multiset.bind_congr
  intro y hy
  rw [bind_map,partners_leftJoin hZ hf]
  by_cases h0 : partners mf y X = 0
  · -- an unmatched row stays unmatched by the second join
    have hnone : partners me y Z = 0 := partners_eq_zero_of_failsOn (hY y hy) hZ hfail
    rw [h0,leftJoin_outer_eq_zero.mpr rfl,extensions_outer_zero,singleton_bind,
      Row.merge_null,hnone,extensions_outer_zero]
  · rw [extensions_outer_of_ne_zero h0,bind_merge_left (hY y hy) he,
      extensions_outer_of_ne_zero (mt leftJoin_outer_eq_zero.mp h0)]

theorem leftJoin_anti_outer (hZ : Over Z CZ) (hf : Ignores mf CZ) :
    leftJoin .anti mf Y (leftJoin .outer me X Z) = leftJoin .anti mf Y X := by
  apply Multiset.bind_congr
  intro y _
  rw [partners_leftJoin hZ hf,extensions_anti_congr leftJoin_outer_eq_zero]

theorem leftJoin_anti_add (h : ∀ z ∈ Z, partners me z Y = 0) :
    leftJoin .anti me Z (X + Y) = leftJoin .anti me Z X := by
  apply Multiset.bind_congr
  intro z hz
  rw [partners,filter_add]
  change (anti.extensions (partners me z X + partners me z Y)).map z.merge = _
  rw [h z hz,Multiset.add_zero]

theorem fullJoin_leftJoin_comm (hY : Over Y CY) (hZ : Over Z CZ) (hYZ : Disjoint CY CZ)
    (he : Ignores me CY) (hf : Ignores mf CZ) (hfail : FailsOn me (CY ∪ CZ)) :
    leftJoin .outer me (fullJoin mf X Y) Z = fullJoin mf (leftJoin .outer me X Z) Y := by
  rw [fullJoin,fullJoin,leftJoin_add,leftJoin_comm hY hZ hYZ he hf,
    leftJoin_outer_unmatched fun y hy => partners_eq_zero_of_failsOn
      (hY.leftJoin_anti y hy) hZ hfail,
    leftJoin_anti_outer hZ hf]

theorem leftJoin_anti_eq_zero (h : ∀ y ∈ Y, ∃ x ∈ X, m (y.merge x) = true) :
    leftJoin .anti m Y X = 0 := by
  refine eq_zero_of_forall_notMem fun r hr => ?_
  obtain ⟨y,hy,hmem⟩ := mem_bind.mp hr
  obtain ⟨x,hx,hm⟩ := h y hy
  have hpa : (partners m y X).card ≠ 0 := fun hcard =>
    notMem_zero x (card_eq_zero.mp hcard ▸ mem_filter.mpr ⟨hx,hm⟩)
  rw [extensions,if_neg hpa,Multiset.map_zero] at hmem
  exact notMem_zero r hmem

section

variable (hY : Over Y CY) (hZ : Over Z CZ) (hYZ : Disjoint CY CZ) (he : Ignores me CY)
  (hf : Ignores mf CZ)

include hY hZ hYZ he hf

private theorem fullJoin_fullJoin (hfail : FailsOn me (CY ∪ CZ)) :
    fullJoin me (fullJoin mf X Y) Z =
      leftJoin .outer mf (leftJoin .outer me X Z) Y +
        (leftJoin .anti mf Y X + leftJoin .anti me Z X) := by
  have hout : leftJoin .outer me (fullJoin mf X Y) Z =
      leftJoin .outer mf (leftJoin .outer me X Z) Y + leftJoin .anti mf Y X := by
    rw [fullJoin_leftJoin_comm hY hZ hYZ he hf hfail,fullJoin,leftJoin_anti_outer hZ hf]
  have hanti : leftJoin .anti me Z (fullJoin mf X Y) = leftJoin .anti me Z X := by
    rw [fullJoin,leftJoin_anti_add fun z hz => partners_eq_zero_of_failsOn (hZ z hz)
      hY.leftJoin_anti (Set.union_comm CY CZ ▸ hfail),leftJoin_anti_outer hY he]
  rw [fullJoin,hout,hanti,Multiset.add_assoc]

theorem fullJoin_comm_fullJoin (hfaile : FailsOn me (CY ∪ CZ)) (hfailf : FailsOn mf (CY ∪ CZ)) :
    fullJoin me (fullJoin mf X Y) Z = fullJoin mf (fullJoin me X Z) Y := by
  rw [fullJoin_fullJoin hY hZ hYZ he hf hfaile,
    fullJoin_fullJoin hZ hY hYZ.symm hf he (Set.union_comm CY CZ ▸ hfailf),
    leftJoin_comm hY hZ hYZ he hf,Multiset.add_comm (leftJoin .anti mf Y X)]

theorem fullJoin_outer_assoc (hfail : FailsOn me (CY ∪ CZ)) :
    leftJoin .outer me (fullJoin mf Y X) Z = fullJoin mf Y (leftJoin .outer me X Z) := by
  rw [fullJoin,fullJoin,leftJoin_add,leftJoin_outer_assoc hY hZ he hf hfail,
    leftJoin_comm hY hZ hYZ he hf]

end

private theorem leftJoin_outer_eq_add :
    leftJoin .outer m X Y = leftJoin .inner m X Y + leftJoin .anti m X Y := by
  unfold leftJoin
  rw [← bind_add]
  apply Multiset.bind_congr
  intro x _
  rw [← Multiset.map_add]
  congr 1
  simp only [extensions]
  split
  case isTrue h => rw [card_eq_zero.mp h,Multiset.zero_add]
  case isFalse => rw [Multiset.add_zero]

theorem leftJoin_inner_swap (hX : Over X CX) (hY : Over Y CY) (hXY : Disjoint CX CY) :
    leftJoin .inner m X Y = leftJoin .inner m Y X := by
  have hbind : ∀ X Y : Multiset (Row κ ν), leftJoin .inner m X Y =
      X.bind fun x => Y.bind fun y => if m (x.merge y) then {x.merge y} else 0 := by
    intro X Y
    apply Multiset.bind_congr
    intro x _
    rw [← bind_filter,bind_singleton]
    rfl
  rw [hbind,hbind,bind_bind]
  apply Multiset.bind_congr
  intro y hy
  apply Multiset.bind_congr
  intro x hx
  rw [Row.merge_comm (hX x hx) (hY y hy) hXY]

theorem fullJoin_swap (hX : Over X CX) (hY : Over Y CY) (hXY : Disjoint CX CY) :
    fullJoin m X Y = fullJoin m Y X := by
  rw [fullJoin,fullJoin,leftJoin_outer_eq_add,leftJoin_outer_eq_add,leftJoin_inner_swap hX hY hXY,
    Multiset.add_assoc,Multiset.add_assoc,Multiset.add_comm (leftJoin .anti m X Y)]

section

variable (hX : Over X CX) (hY : Over Y CY) (hZ : Over Z CZ) (hXY : Disjoint CX CY)
  (hXZ : Disjoint CX CZ) (hYZ : Disjoint CY CZ)

include hX hY hZ hXY hXZ hYZ

theorem leftJoin_inner_swap_nested : leftJoin .inner me Z (leftJoin .inner mf Y X) =
    leftJoin .inner me (leftJoin .inner mf X Y) Z := by
  rw [leftJoin_inner_swap hZ (hY.leftJoin hX) (Set.disjoint_union_right.mpr ⟨hYZ.symm,hXZ.symm⟩),
    leftJoin_inner_swap hY hX hXY.symm]

theorem fullJoin_swap_nested :
    fullJoin me Z (fullJoin mf Y X) = fullJoin me (fullJoin mf X Y) Z := by
  rw [fullJoin_swap hZ (hY.fullJoin hX) (Set.disjoint_union_right.mpr ⟨hYZ.symm,hXZ.symm⟩),
    fullJoin_swap hY hX hXY.symm]

end

/-! ### When the laws hold for all bags of rows -/

private theorem bind_singleton_self (X : Multiset (Row κ ν)) : (X.bind fun x => {x}) = X :=
  (bind_singleton X id).trans (map_id X)

theorem leftJoin_outer_zero (m : Row κ ν → Bool) (X : Multiset (Row κ ν)) :
    leftJoin .outer m X 0 = X := by
  simp [leftJoin,partners,extensions,bind_singleton_self]

theorem fullJoin_zero_left (m : Row κ ν → Bool) (Y : Multiset (Row κ ν)) :
    fullJoin m 0 Y = Y := by
  simp [fullJoin,leftJoin,partners,extensions,bind_singleton_self]

theorem fullJoin_zero_right (m : Row κ ν → Bool) (X : Multiset (Row κ ν)) :
    fullJoin m X 0 = X := by
  simp [fullJoin,leftJoin,partners,extensions,bind_singleton_self]

/-- A second copy of a partner would show in the number of rows. -/
theorem failsOn_of_null_unmatched
    (h : ∀ Z, Over Z CZ → leftJoin .outer me {Row.null} Z = {Row.null}) : FailsOn me CZ := by
  intro z hz
  by_contra hne
  have hcard := congrArg card (h {z,z} (over_pair hz))
  simp [leftJoin,partners,extensions,filter_singleton,Bool.eq_true_of_not_eq_false hne] at hcard

section

variable (he : Ignores me CY) (hf : Ignores mf CZ)

include he hf

theorem leftJoin_outer_assoc_iff :
    (∀ X Y Z, Over X CX → Over Y CY → Over Z CZ →
      leftJoin .outer me (leftJoin .outer mf Y X) Z =
        leftJoin .outer mf Y (leftJoin .outer me X Z)) ↔ FailsOn me CZ := by
  constructor
  · intro h
    refine failsOn_of_null_unmatched fun Z hZ => ?_
    have heq := h 0 {Row.null} Z nofun (over_singleton (Row.null_supportedOn _)) hZ
    rwa [leftJoin_outer_zero,leftJoin_outer_eq_zero.mpr rfl,leftJoin_outer_zero] at heq
  · intro h X Y Z _ hY hZ
    exact leftJoin_outer_assoc hY hZ he hf (h.union_left he)

theorem fullJoin_outer_assoc_iff (hYZ : Disjoint CY CZ) :
    (∀ X Y Z, Over X CX → Over Y CY → Over Z CZ →
      leftJoin .outer me (fullJoin mf Y X) Z = fullJoin mf Y (leftJoin .outer me X Z)) ↔
        FailsOn me CZ := by
  constructor
  · intro h
    refine failsOn_of_null_unmatched fun Z hZ => ?_
    have heq := h 0 {Row.null} Z nofun (over_singleton (Row.null_supportedOn _)) hZ
    rwa [fullJoin_zero_right,leftJoin_outer_eq_zero.mpr rfl,fullJoin_zero_right] at heq
  · intro h X Y Z _ hY hZ
    exact fullJoin_outer_assoc hY hZ hYZ he hf (h.union_left he)

theorem fullJoin_leftJoin_comm_iff (hYZ : Disjoint CY CZ) :
    (∀ X Y Z, Over X CX → Over Y CY → Over Z CZ →
      leftJoin .outer me (fullJoin mf X Y) Z = fullJoin mf (leftJoin .outer me X Z) Y) ↔
        FailsOn me CZ := by
  constructor
  · intro h
    refine failsOn_of_null_unmatched fun Z hZ => ?_
    have heq := h 0 {Row.null} Z nofun (over_singleton (Row.null_supportedOn _)) hZ
    rwa [fullJoin_zero_left,leftJoin_outer_eq_zero.mpr rfl,fullJoin_zero_left] at heq
  · intro h X Y Z _ hY hZ
    exact fullJoin_leftJoin_comm hY hZ hYZ he hf (h.union_left he)

end

/-- Full joins of `X` with `Y` and with `Z` may change places. -/
def FullsExchange (mf me : Row κ ν → Bool) (CX CY CZ : Set κ) : Prop :=
  ∀ X Y Z, Over X CX → Over Y CY → Over Z CZ →
    fullJoin me (fullJoin mf X Y) Z = fullJoin mf (fullJoin me X Z) Y

/-- Both conditions depend on the common input alone, and in the same way. -/
def SameFirst (mf me : Row κ ν → Bool) (CX CY CZ : Set κ) : Prop :=
  ∀ x y z : Row κ ν, x.SupportedOn CX → y.SupportedOn CY → z.SupportedOn CZ →
    mf (x.merge y) = me (x.merge z)

section

variable (h : FullsExchange mf me CX CY CZ)

include h

theorem FullsExchange.symm : FullsExchange me mf CX CZ CY :=
  fun X Z Y hX hZ hY => (h X Y Z hX hY hZ).symm

variable {z : Row κ ν} (he : Ignores me CY) (hf : Ignores mf CZ) (hy : y.SupportedOn CY)
  (hz : z.SupportedOn CZ) (hYZ : Disjoint CY CZ)

include he hf hy hz hYZ

theorem FullsExchange.of_passes_null (hez : me z = true) : mf y = true := by
  by_contra hne
  rw [Bool.not_eq_true] at hne
  have hcard := congrArg card (h 0 {y} {z,z} nofun (over_singleton hy) (over_pair hz))
  have hzy : me (z.merge y) = true := by rw [he _ _ (Row.agreeOff_merge_right hy),hez]
  have hyz : mf (z.merge y) = false := by rw [hf _ _ (Row.agreeOff_merge_left hz),hne]
  rw [fullJoin_zero_left,fullJoin_zero_left] at hcard
  simp [fullJoin,leftJoin,partners,extensions,filter_singleton,filter_cons,
    Row.merge_comm hy hz hYZ,hzy,hyz] at hcard

theorem FullsExchange.of_passes (hXY : Disjoint CX CY) (hXZ : Disjoint CX CZ)
    (hx : x.SupportedOn CX) (hfy : mf y = true) (hfxy : mf (x.merge y) = true) :
    me (x.merge z) = true := by
  by_contra hne
  rw [Bool.not_eq_true] at hne
  have hcard := congrArg card (h {x} {y,y} {z} (over_singleton hx) (over_pair hy)
    (over_singleton hz))
  have hyz : mf (y.merge z) = true := by rw [hf _ _ (Row.agreeOff_merge_right hz),hfy]
  have hxyz : me ((x.merge y).merge z) = false := by
    rw [he _ _ ((Row.agreeOff_merge_right hy).merge_congr z),hne]
  have hzxy : z.merge (x.merge y) = (x.merge y).merge z := by
    rw [Row.merge_comm hz (hx.merge hy) (Set.disjoint_union_right.mpr ⟨hXZ.symm,hYZ.symm⟩)]
  simp [fullJoin,leftJoin,partners,extensions,filter_singleton,filter_cons,hfxy,hne,hyz,hxyz,hzxy,
    Row.merge_comm hy hx hXY.symm,Row.merge_comm hz hx hXZ.symm,Row.merge_comm hz hy hYZ.symm]
    at hcard

end

theorem fullJoin_add_unmatched
    (h : ∀ x ∈ X, ∀ z ∈ Z, m (x.merge z) = false ∧ m (z.merge x) = false) :
    fullJoin m (X + Y) Z = X + fullJoin m Y Z := by
  have hout : leftJoin .outer m X Z = X := by
    refine leftJoin_outer_unmatched fun x hx => filter_eq_nil.mpr fun z hz => ?_
    rw [(h x hx z hz).1]
    exact Bool.false_ne_true
  have hanti : leftJoin .anti m Z (Y + X) = leftJoin .anti m Z Y := by
    refine leftJoin_anti_add fun z hz => filter_eq_nil.mpr fun x hx => ?_
    rw [(h x hx z hz).2]
    exact Bool.false_ne_true
  rw [fullJoin,fullJoin,leftJoin_add,hout,Multiset.add_comm X Y,hanti,Multiset.add_assoc]

theorem fullJoin_congr {m' : Row κ ν → Bool}
    (h : ∀ x ∈ X, ∀ y ∈ Y, m (x.merge y) = m' (x.merge y) ∧ m (y.merge x) = m' (y.merge x)) :
    fullJoin m X Y = fullJoin m' X Y := by
  have hl (x : Row κ ν) (hx : x ∈ X) : partners m x Y = partners m' x Y :=
    filter_congr fun y hy => by rw [(h x hx y hy).1]
  have hr (y : Row κ ν) (hy : y ∈ Y) : partners m y X = partners m' y X :=
    filter_congr fun x hx => by rw [(h x hx y hy).2]
  exact congrArg₂ (· + ·) (Multiset.bind_congr fun x hx => by rw [hl x hx])
    (Multiset.bind_congr fun y hy => by rw [hr y hy])

section

variable (hXY : Disjoint CX CY) (hXZ : Disjoint CX CZ) (hYZ : Disjoint CY CZ)
  (he : Ignores me CY) (hf : Ignores mf CZ)

include hXY hXZ hYZ he hf

theorem SameFirst.fullsExchange (h : SameFirst mf me CX CY CZ) : FullsExchange mf me CX CY CZ := by
  intro X Y Z hX hY hZ
  have hnull : (Row.null : Row κ ν).SupportedOn CZ := Row.null_supportedOn CZ
  have hfx (x y : Row κ ν) (hx : x ∈ X) (hy : y ∈ Y) : mf (x.merge y) = me x := by
    rw [h x y _ (hX x hx) (hY y hy) hnull,Row.merge_null]
  have hex (x z : Row κ ν) (hx : x ∈ X) (hz : z ∈ Z) : me (x.merge z) = me x := by
    rw [← h x _ z (hX x hx) (Row.null_supportedOn CY) (hZ z hz),
      h x _ _ (hX x hx) (Row.null_supportedOn CY) hnull,Row.merge_null]
  have hyx (x y : Row κ ν) (hx : x ∈ X) (hy : y ∈ Y) : y.merge x = x.merge y :=
    Row.merge_comm (hY y hy) (hX x hx) hXY.symm
  have hzx (x z : Row κ ν) (hx : x ∈ X) (hz : z ∈ Z) : z.merge x = x.merge z :=
    Row.merge_comm (hZ z hz) (hX x hx) hXZ.symm
  by_cases hany : ∃ x ∈ X, me x = true
  · -- a row of `X` is a partner of every other row
    obtain ⟨x,hx,htrue⟩ := hany
    have hY0 : leftJoin .anti mf Y X = 0 := leftJoin_anti_eq_zero fun y hy =>
      ⟨x,hx,by rw [hyx x y hx hy,hfx x y hx hy,htrue]⟩
    have hZ0 : leftJoin .anti me Z X = 0 := leftJoin_anti_eq_zero fun z hz =>
      ⟨x,hx,by rw [hzx x z hx hz,hex x z hx hz,htrue]⟩
    have hl : fullJoin mf X Y = leftJoin .outer mf X Y := by rw [fullJoin,hY0,Multiset.add_zero]
    have hr : fullJoin me X Z = leftJoin .outer me X Z := by rw [fullJoin,hZ0,Multiset.add_zero]
    rw [hl,hr,fullJoin,fullJoin,leftJoin_anti_outer hY he,leftJoin_anti_outer hZ hf,hY0,hZ0,
      leftJoin_comm hY hZ hYZ he hf]
  · -- no row of `X` has a partner
    have hno (x : Row κ ν) (hx : x ∈ X) : me x = false :=
      Bool.eq_false_of_not_eq_true fun htrue => hany ⟨x,hx,htrue⟩
    have hl (W : Multiset (Row κ ν)) : fullJoin mf (X + W) Y = X + fullJoin mf W Y := by
      refine fullJoin_add_unmatched fun x hx y hy => ?_
      rw [hyx x y hx hy,hfx x y hx hy,hno x hx]
      exact ⟨rfl,rfl⟩
    have hr (W : Multiset (Row κ ν)) : fullJoin me (X + W) Z = X + fullJoin me W Z := by
      refine fullJoin_add_unmatched fun x hx z hz => ?_
      rw [hzx x z hx hz,hex x z hx hz,hno x hx]
      exact ⟨rfl,rfl⟩
    have hl0 := hl 0
    have hr0 := hr 0
    rw [Multiset.add_zero,fullJoin_zero_left] at hl0 hr0
    rw [hl0,hr0,hl,hr,fullJoin_swap hZ hY hYZ.symm]
    refine congrArg (X + ·) (fullJoin_congr fun y hy z hz => ?_)
    have hyz : me (y.merge z) = mf (y.merge z) := by
      have hone := h _ y z (Row.null_supportedOn CX) (hY y hy) (hZ z hz)
      rw [Row.null_merge,Row.null_merge] at hone
      rw [he _ _ (Row.agreeOff_merge_left (hY y hy)),hf _ _ (Row.agreeOff_merge_right (hZ z hz)),
        hone]
    rw [Row.merge_comm (hZ z hz) (hY y hy) hYZ.symm]
    exact ⟨hyz,hyz⟩

theorem fullsExchange_iff :
    FullsExchange mf me CX CY CZ ↔
      FailsOn me CZ ∧ FailsOn mf CY ∨ SameFirst mf me CX CY CZ := by
  have hnY : (Row.null : Row κ ν).SupportedOn CY := Row.null_supportedOn CY
  have hnZ : (Row.null : Row κ ν).SupportedOn CZ := Row.null_supportedOn CZ
  constructor
  · intro h
    by_cases hfail : FailsOn me CZ ∧ FailsOn mf CY
    · exact .inl hfail
    obtain ⟨z₀,hz₀,hez₀⟩ : ∃ z : Row κ ν, z.SupportedOn CZ ∧ me z = true := by
      rcases not_and_or.mp hfail with hne | hne
      · simpa [FailsOn] using hne
      · obtain ⟨y,hy,hfy⟩ : ∃ y : Row κ ν, y.SupportedOn CY ∧ mf y = true := by
          simpa [FailsOn] using hne
        exact ⟨_,hnZ,h.symm.of_passes_null hf he hnZ hy hYZ.symm hfy⟩
    have hfy (y : Row κ ν) (hy : y.SupportedOn CY) : mf y = true :=
      h.of_passes_null he hf hy hz₀ hYZ hez₀
    have hez (z : Row κ ν) (hz : z.SupportedOn CZ) : me z = true :=
      h.symm.of_passes_null hf he hz hnY hYZ.symm (hfy _ hnY)
    refine .inr fun x y z hx hy hz => Bool.eq_iff_iff.mpr ⟨?_,?_⟩
    · exact h.of_passes he hf hy hz hYZ hXY hXZ hx (hfy y hy)
    · exact h.symm.of_passes hf he hz hy hYZ.symm hXZ hXY hx (hez z hz)
  · rintro (⟨hez,hfy⟩ | h)
    · intro X Y Z _ hY hZ
      exact fullJoin_comm_fullJoin hY hZ hYZ he hf (hez.union_left he)
        (Set.union_comm CZ CY ▸ hfy.union_left hf)
    · exact h.fullsExchange hXY hXZ hYZ he hf

end

end PgOrca
