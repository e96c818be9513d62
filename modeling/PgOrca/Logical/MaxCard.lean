import PgOrca.Library.JoinSize
import PgOrca.Logical.Semantics

/-!
# Derived maximum cardinality

`CMaxCard` counts rows up to a saturated maximum that stands for no bound at all.
-/

namespace PgOrca

def gpoptMaxCard : ℕ := 2 ^ 32 - 1

structure CMaxCard where
  ull : ℕ
  ull_le : ull ≤ gpoptMaxCard
  deriving DecidableEq

namespace CMaxCard

variable {n k : ℕ} {m a b : CMaxCard}

/-- The constructor crops its argument. -/
def ofUll (ull : ℕ) : CMaxCard := ⟨min ull gpoptMaxCard, min_le_right _ _⟩

def unbounded : CMaxCard := ofUll gpoptMaxCard

/-- `operator*=`, in 64 bits. -/
def mul (a b : CMaxCard) : CMaxCard := ofUll (b.ull * a.ull % 2 ^ 64)

/-- `operator+=`, in 64 bits. -/
def add (a b : CMaxCard) : CMaxCard := ofUll ((b.ull + a.ull) % 2 ^ 64)

def Bounds (m : CMaxCard) (n : ℕ) : Prop := n ≤ m.ull ∨ m.ull = gpoptMaxCard

instance (m : CMaxCard) (n : ℕ) : Decidable (m.Bounds n) := inferInstanceAs (Decidable (_ ∨ _))

theorem bounds_unbounded (n : ℕ) : unbounded.Bounds n := .inr rfl

theorem bounds_zero (m : CMaxCard) : m.Bounds 0 := .inl (Nat.zero_le _)

theorem bounds_ofUll (h : n ≤ k) : (ofUll k).Bounds n := by
  simp only [Bounds,ofUll]
  omega

theorem Bounds.mono (h : m.Bounds n) (hk : k ≤ n) : m.Bounds k :=
  h.imp hk.trans id

theorem Bounds.of_ull_le {l : CMaxCard} (h : m.Bounds n) (hl : m.ull ≤ l.ull) : l.Bounds n := by
  have := l.ull_le
  simp only [Bounds] at h ⊢
  omega

theorem Bounds.ull_pos (h : m.Bounds n) (hn : 0 < n) : 0 < m.ull := by
  have : 0 < gpoptMaxCard := by decide
  rcases h with h | h <;> omega

theorem ull_mul (a b : CMaxCard) : (a.mul b).ull = min (a.ull * b.ull) gpoptMaxCard := by
  have hlt : b.ull * a.ull < 2 ^ 64 := by
    calc b.ull * a.ull ≤ gpoptMaxCard * gpoptMaxCard := Nat.mul_le_mul b.ull_le a.ull_le
      _ < 2 ^ 64 := by decide
  rw [mul,ofUll,Nat.mod_eq_of_lt hlt,mul_comm]

theorem ull_add (a b : CMaxCard) : (a.add b).ull = min (a.ull + b.ull) gpoptMaxCard := by
  have hlt : b.ull + a.ull < 2 ^ 64 := by
    calc b.ull + a.ull ≤ gpoptMaxCard + gpoptMaxCard := Nat.add_le_add b.ull_le a.ull_le
      _ < 2 ^ 64 := by decide
  rw [add,ofUll,Nat.mod_eq_of_lt hlt,add_comm]

theorem Bounds.mul (ha : a.Bounds n) (hb : b.Bounds k) : (a.mul b).Bounds (n * k) := by
  rcases Nat.eq_zero_or_pos n with rfl | hn
  · rw [zero_mul]
    exact bounds_zero _
  rcases Nat.eq_zero_or_pos k with rfl | hk
  · rw [mul_zero]
    exact bounds_zero _
  -- Both counts are positive, so neither bound is zero and a saturated one stays saturated.
  have hpos : 0 < gpoptMaxCard := by decide
  have ha0 : 0 < a.ull := by
    rcases ha with h | h <;> omega
  have hb0 : 0 < b.ull := by
    rcases hb with h | h <;> omega
  rw [Bounds,ull_mul]
  rcases ha with ha | ha
  · rcases hb with hb | hb
    · have := Nat.mul_le_mul ha hb
      omega
    · have := Nat.le_mul_of_pos_left b.ull ha0
      omega
  · have := Nat.le_mul_of_pos_right a.ull hb0
    omega

theorem Bounds.add (ha : a.Bounds n) (hb : b.Bounds k) : (a.add b).Bounds (n + k) := by
  simp only [Bounds,ull_add] at ha hb ⊢
  omega

theorem ull_le_mul (hb : 0 < b.ull) : a.ull ≤ (a.mul b).ull := by
  rw [ull_mul]
  exact le_min (Nat.le_mul_of_pos_right _ hb) a.ull_le

theorem Bounds.foldl_add {ns : List ℕ} {ms : List CMaxCard} (h : List.Forall₂ Bounds ms ns)
    (hm : m.Bounds n) : (ms.foldl CMaxCard.add m).Bounds (n + ns.sum) := by
  induction h generalizing m n with
  | nil => exact hm
  | cons hhead _ ih =>
    rw [List.foldl_cons,List.sum_cons,← add_assoc]
    exact ih (hm.add hhead)

end CMaxCard

/-- What a constant `int8` holds, read as an unsigned number. The value stored for NULL is
`LINT(gpos::ulong_max >> 1)`. -/
def int8Value : Option Int64 → ℕ
  | some value => value.toUInt64.toNat
  | none => 2 ^ 31 - 1

namespace CLogical

variable {C ν : Type*}

/-- `CLogical::Maxcard`: no row for a constant FALSE, unless the operator is an outer join, nor
for a contradiction. -/
def maxcard (fOuterJoin fConstFalse fContradiction : Bool) (m : CMaxCard) : CMaxCard :=
  if (fConstFalse && !fOuterJoin) || fContradiction then .ofUll 0 else m

/-- `DeriveMaxCard` of the join operators. The anti joins do not override it. -/
def joinMaxCard (fConstFalse fContradiction : Bool) (l r : CMaxCard) : JoinType → CMaxCard
  | .inner => maxcard false fConstFalse fContradiction (l.mul r)
  | .leftOuter => maxcard true fConstFalse fContradiction (if 0 < r.ull then l.mul r else l)
  | .rightOuter => maxcard true fConstFalse fContradiction (if 0 < l.ull then r.mul l else r)
  | .fullOuter =>
    if 0 < l.ull ∧ 0 < r.ull then l.mul r
    else if l.ull ≤ r.ull then r
    else l
  | .leftSemi => maxcard false fConstFalse fContradiction l
  | .leftAntiSemi => .unbounded
  | .leftAntiSemiNotIn => .unbounded

def applyMaxCard (fConstFalse fContradiction : Bool) (l r : CMaxCard) : EApplyType → CMaxCard
  | .inner => maxcard false fConstFalse fContradiction (l.mul r)
  | .leftOuter => maxcard false fConstFalse fContradiction l
  | .leftSemi => maxcard false fConstFalse fContradiction l
  | .leftAntiSemi => l
  | .leftAntiSemiNotIn => l

/-- `DeriveMaxCard` of the set operations; intersections look at two inputs. -/
def setOpMaxCard (fContradiction : Bool) : ESetOp → List CMaxCard → CMaxCard
  | _, [] => .unbounded
  | .union, m :: ms => ms.foldl CMaxCard.add m
  | .unionAll, m :: ms => ms.foldl CMaxCard.add m
  | .intersect, m :: ms => if fContradiction then .ofUll 0 else smaller m ms
  | .intersectAll, m :: ms => if fContradiction then .ofUll 0 else smaller m ms
  | .difference, m :: _ => if fContradiction then .ofUll 0 else m
  | .differenceAll, m :: _ => if fContradiction then .ofUll 0 else m
where
  smaller (m : CMaxCard) : List CMaxCard → CMaxCard
    | [] => m
    | n :: _ => if m.ull ≤ n.ull then m else n

section

variable [ScalarLeaf C] [ScalarMeaning C ν] (fContradiction : CLogical C ν → Bool)

mutual

/-- `DeriveMaxCard`, where `fContradiction` tells whether the derived constraint of an expression
is contradictory. -/
def deriveMaxCard : CLogical C ν → CMaxCard
  | get _ _ _ => .unbounded
  | constTableGet _ tuples => .ofUll tuples.length
  | tvf _ function => if function.returnsSet then .unbounded else .ofUll 1
  | select child predicate =>
    if predicate.fScalarConstFalse || predicate.fScalarConstBoolNull ν
        || fContradiction (select child predicate) then
      .ofUll 0
    else child.deriveMaxCard
  | project child elements =>
    if hasNonScalarFunction elements then .unbounded else child.deriveMaxCard
  | gbAgg child columns aggregates =>
    if columns.isEmpty then .ofUll 1
    else if fContradiction (gbAgg child columns aggregates) then .ofUll 0
    else .unbounded
  | sequenceProject child _ _ => child.deriveMaxCard
  | limit child l =>
    match l.rowCount with
    | .constInt8 value => .ofUll (int8Value value)
    | .computed _ => child.deriveMaxCard
  | maxOneRow _ => .ofUll 1
  | join joinType left right predicate =>
    joinMaxCard predicate.fScalarConstFalse
      (fContradiction (join joinType left right predicate)) left.deriveMaxCard
      right.deriveMaxCard joinType
  | apply applyType outer inner predicate =>
    applyMaxCard predicate.fScalarConstFalse
      (fContradiction (apply applyType outer inner predicate)) outer.deriveMaxCard
      inner.deriveMaxCard applyType
  | setOp op output inputs children =>
    setOpMaxCard (fContradiction (setOp op output inputs children)) op (deriveMaxCards children)
  | cteProducer _ child => child.deriveMaxCard
  | cteConsumer _ producer => producer.deriveMaxCard

def deriveMaxCards : List (CLogical C ν) → List CMaxCard
  | [] => []
  | t :: ts => t.deriveMaxCard :: deriveMaxCards ts

end

end

end CLogical

end PgOrca
