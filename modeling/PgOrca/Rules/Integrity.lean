import PgOrca.Library.Kleene
import PgOrca.Library.Tuples

/-!
# Integrity facts about the inputs of a rule

A rule may ask that the rows of an input are unique on some columns or that a column is never NULL.
The checker derives this from the keys and the columns that are derived not to be NULL, from the
filters above the input and, through joins, from the inputs of the input.
-/

namespace PgOrca.Rules

universe u

/-- An operand of a comparison. A cast that is binary coercible keeps the value. -/
inductive COperand (δ : Type u)
  | ident (colref : ℕ)
  | castIdent (colref : ℕ)
  | const (datum : Option δ)
  | castConst (datum : Option δ)
  | other (pcrsUsed : Finset ℕ) (value : Row ℕ δ → Option δ)

/-- A predicate, as far as the checker looks into it. -/
inductive CPredicate (δ : Type u)
  | and (children : List (CPredicate δ))
  | equality (left right : COperand δ)
  | other (pcrsUsed : Finset ℕ) (value : Row ℕ δ → Option Bool)

inductive EJoin
  | inner | leftOuter | rightOuter | leftSemi | leftAntiSemi | leftAntiSemiNotIn
  deriving DecidableEq, Repr

inductive EApply
  | inner | leftOuter
  deriving DecidableEq, Repr

/-- Logical expressions. A projection has a row of values for each row that its set-returning
functions give. The operators that the checker does not look through are known by the columns they
output. -/
inductive CLogicalExpression (δ : Type u)
  | select (child : CLogicalExpression δ) (predicate : CPredicate δ)
  | project (child : CLogicalExpression δ) (columns : List ℕ)
      (values : Row ℕ δ → List (List (Option δ)))
  | sequenceProject (child : CLogicalExpression δ) (columns : List ℕ)
      (window : List (Row ℕ δ) → ℕ → List (Option δ))
  | limit (child : CLogicalExpression δ) (order : ℕ) (offset : Row ℕ δ → ℕ)
      (count : Row ℕ δ → Option ℕ)
  | join (joinType : EJoin) (left right : CLogicalExpression δ) (predicate : CPredicate δ)
  | apply (applyType : EApply) (left right : CLogicalExpression δ) (predicate : CPredicate δ)
  | other (operator : ℕ) (output : Finset ℕ)

variable {δ : Type u}

namespace COperand

def value : COperand δ → Row ℕ δ → Option δ
  | ident colref, r => r colref
  | castIdent colref, r => r colref
  | const datum, _ => datum
  | castConst datum, _ => datum
  | other _ value, r => value r

def pcrsUsed : COperand δ → Finset ℕ
  | ident colref => {colref}
  | castIdent colref => {colref}
  | const _ => ∅
  | castConst _ => ∅
  | other pcrsUsed _ => pcrsUsed

/-- `PcrEqualityOperand` -/
def pcrEqualityOperand : COperand δ → Option ℕ
  | ident colref => some colref
  | castIdent colref => some colref
  | _ => none

def fConst : COperand δ → Bool
  | const _ => true
  | castConst _ => true
  | _ => false

theorem value_pcrEqualityOperand {operand : COperand δ} {pcr : ℕ}
    (h : operand.pcrEqualityOperand = some pcr) (r : Row ℕ δ) : operand.value r = r pcr := by
  cases operand with
  | ident colref | castIdent colref =>
    cases h
    rfl
  | _ => cases h

theorem value_fConst {operand : COperand δ} (h : operand.fConst = true) :
    ∃ datum, ∀ r, operand.value r = datum := by
  cases operand with
  | const datum | castConst datum => exact ⟨datum,fun _ => rfl⟩
  | _ => cases h

end COperand

namespace CPredicate

section Value

variable [Setoid δ] [DecidableRel fun a b : δ => a ≈ b]

mutual

/-- Values are compared by the equality of their type, which may be coarser than identity. -/
def value : CPredicate δ → Row ℕ δ → Option Bool
  | .and children, r => Kleene.all (valueAll children r)
  | .equality left right, r =>
    match left.value r, right.value r with
    | some a, some b => some (decide (a ≈ b))
    | _, _ => none
  | .other _ value, r => value r

def valueAll : List (CPredicate δ) → Row ℕ δ → List (Option Bool)
  | [], _ => []
  | predicate :: rest, r => predicate.value r :: valueAll rest r

end

end Value

mutual

/-- `DeriveUsedColumns` -/
def pcrsUsed : CPredicate δ → Finset ℕ
  | .and children => pcrsUsedAll children
  | .equality left right => left.pcrsUsed ∪ right.pcrsUsed
  | .other pcrsUsed _ => pcrsUsed

def pcrsUsedAll : List (CPredicate δ) → Finset ℕ
  | [] => ∅
  | predicate :: rest => predicate.pcrsUsed ∪ pcrsUsedAll rest

end

mutual

/-- A conjunct compares the column with a constant. -/
def fPredicateFixesColumn (pcr : ℕ) : CPredicate δ → Bool
  | .and children => fAnyFixesColumn pcr children
  | .equality left right =>
    (left.fConst && right.pcrEqualityOperand == some pcr) ||
      (right.fConst && left.pcrEqualityOperand == some pcr)
  | .other _ _ => false

def fAnyFixesColumn (pcr : ℕ) : List (CPredicate δ) → Bool
  | [] => false
  | predicate :: rest => fPredicateFixesColumn pcr predicate || fAnyFixesColumn pcr rest

end

mutual

/-- The candidate columns that a conjunct equates with a joined column. -/
def collectConnectedColumns (pcrsCandidate pcrsJoined : Finset ℕ) : CPredicate δ → Finset ℕ
  | .and children => collectConnectedColumnsAll pcrsCandidate pcrsJoined children
  | .equality left right =>
    match left.pcrEqualityOperand, right.pcrEqualityOperand with
    | some pcrLeft, some pcrRight =>
      if pcrLeft ∈ pcrsCandidate ∧ pcrRight ∈ pcrsJoined then {pcrLeft}
      else if pcrRight ∈ pcrsCandidate ∧ pcrLeft ∈ pcrsJoined then {pcrRight}
      else ∅
    | _, _ => ∅
  | .other _ _ => ∅

def collectConnectedColumnsAll (pcrsCandidate pcrsJoined : Finset ℕ) :
    List (CPredicate δ) → Finset ℕ
  | [] => ∅
  | predicate :: rest =>
    collectConnectedColumns pcrsCandidate pcrsJoined predicate ∪
      collectConnectedColumnsAll pcrsCandidate pcrsJoined rest

end

end CPredicate

namespace CLogicalExpression

/-- `DeriveOutputColumns` -/
def outputColumns : CLogicalExpression δ → Finset ℕ
  | .select child _ => child.outputColumns
  | .project child columns _ => child.outputColumns ∪ columns.toFinset
  | .sequenceProject child columns _ => child.outputColumns ∪ columns.toFinset
  | .limit child _ _ _ => child.outputColumns
  | .join joinType left right _ =>
    match joinType with
    | .inner | .leftOuter | .rightOuter => left.outputColumns ∪ right.outputColumns
    | .leftSemi | .leftAntiSemi | .leftAntiSemiNotIn => left.outputColumns
  | .apply _ left right _ => left.outputColumns ∪ right.outputColumns
  | .other _ output => output

/-- The columns that an operator defines are new and those of two inputs are different. -/
def WellFormed : CLogicalExpression δ → Prop
  | .select child _ => child.WellFormed
  | .project child columns _ => child.WellFormed ∧ ∀ c ∈ columns, c ∉ child.outputColumns
  | .sequenceProject child columns _ =>
    child.WellFormed ∧ ∀ c ∈ columns, c ∉ child.outputColumns
  | .limit child _ _ _ => child.WellFormed
  | .join _ left right _ =>
    left.WellFormed ∧ right.WellFormed ∧ Disjoint left.outputColumns right.outputColumns
  | .apply _ left right _ =>
    left.WellFormed ∧ right.WellFormed ∧ Disjoint left.outputColumns right.outputColumns
  | .other _ _ => True

/-- The expression and those below it. -/
def parts : CLogicalExpression δ → List (CLogicalExpression δ)
  | .select child predicate => .select child predicate :: child.parts
  | .project child columns values => .project child columns values :: child.parts
  | .sequenceProject child columns window => .sequenceProject child columns window :: child.parts
  | .limit child order offset count => .limit child order offset count :: child.parts
  | .join joinType left right predicate =>
    .join joinType left right predicate :: (left.parts ++ right.parts)
  | .apply applyType left right predicate =>
    .apply applyType left right predicate :: (left.parts ++ right.parts)
  | .other operator output => [.other operator output]

end CLogicalExpression

/-! ### Rows -/

/-- The rows of the operators that are not looked through, and how an execution sorts. -/
structure SDatabase (δ : Type u) where
  relation : ℕ → Row ℕ δ → List (Row ℕ δ)
  arrange : ℕ → List (Row ℕ δ) → List (Row ℕ δ)
  arrange_perm : ∀ order X, (arrange order X).Perm X

/-- The row with new values at `columns`. -/
def extend (columns : List ℕ) (values : List (Option δ)) (r : Row ℕ δ) : Row ℕ δ :=
  (Row.ofTuple columns values).scope columns.toFinset r

section Rows

variable [Setoid δ] [DecidableRel fun a b : δ => a ≈ b]

/-- The rows that a left row forms with those of `Y`. -/
def partners (predicate : CPredicate δ) (right : Finset ℕ) (Y : List (Row ℕ δ)) (x : Row ℕ δ) :
    List (Row ℕ δ) :=
  (Y.map fun y => y.scope right x).filter fun r => predicate.value r = some true

def outerPartners (predicate : CPredicate δ) (right : Finset ℕ) (Y : List (Row ℕ δ))
    (x : Row ℕ δ) : List (Row ℕ δ) :=
  if (partners predicate right Y x).isEmpty then [Row.null.scope right x]
  else partners predicate right Y x

def joinRows (joinType : EJoin) (predicate : CPredicate δ) (left right : Finset ℕ)
    (X Y : List (Row ℕ δ)) : List (Row ℕ δ) :=
  match joinType with
  | .inner => X.flatMap (partners predicate right Y)
  | .leftOuter => X.flatMap (outerPartners predicate right Y)
  | .rightOuter => Y.flatMap (outerPartners predicate left X)
  | .leftSemi => X.filter fun x => !(partners predicate right Y x).isEmpty
  | .leftAntiSemi => X.filter fun x => (partners predicate right Y x).isEmpty
  | .leftAntiSemiNotIn =>
    X.filter fun x => Y.all fun y => predicate.value (y.scope right x) = some false

/-- The rows of an expression below the row `env` of its outer references. -/
def CLogicalExpression.rows (db : SDatabase δ) :
    CLogicalExpression δ → Row ℕ δ → List (Row ℕ δ)
  | .select child predicate, env =>
    (child.rows db env).filter fun r => predicate.value r = some true
  | .project child columns values, env =>
    (child.rows db env).flatMap fun r => (values r).map fun v => extend columns v r
  | .sequenceProject child columns window, env =>
    (child.rows db env).mapIdx fun i r => extend columns (window (child.rows db env) i) r
  | .limit child order offset count, env =>
    let sorted := (db.arrange order (child.rows db env)).drop (offset env)
    match count env with
    | none => sorted
    | some n => sorted.take n
  | .join joinType left right predicate, env =>
    joinRows joinType predicate left.outputColumns right.outputColumns (left.rows db env)
      (right.rows db env)
  | .apply .inner left right predicate, env =>
    (left.rows db env).flatMap fun x => partners predicate right.outputColumns (right.rows db x) x
  | .apply .leftOuter left right predicate, env =>
    (left.rows db env).flatMap fun x =>
      outerPartners predicate right.outputColumns (right.rows db x) x
  | .other operator output, env => (db.relation operator env).map fun r => r.scope output env

end Rows

/-! ### The checker -/

/-- The properties that the checker takes from the derivation. -/
structure SDerivation (δ : Type u) where
  deriveKeyCollection : CLogicalExpression δ → Option (List (List ℕ))
  deriveNotNullColumns : CLogicalExpression δ → Finset ℕ
  fNullRejecting : CPredicate δ → Finset ℕ → Bool

section Checker

variable (derived : SDerivation δ)

variable {derived}

end Checker

/-! ### Agreement on columns -/

section Agreement

variable [Setoid δ]

/-- Neither value is NULL and they are equal. -/
def Same (x y : Option δ) : Prop := ∃ a b, x = some a ∧ y = some b ∧ a ≈ b

theorem Same.symm {x y : Option δ} (h : Same x y) : Same y x := by
  obtain ⟨a,b,hx,hy,hab⟩ := h
  exact ⟨b,a,hy,hx,Setoid.symm hab⟩

theorem Same.trans {x y z : Option δ} (h : Same x y) (h' : Same y z) : Same x z := by
  obtain ⟨a,b,hx,hy,hab⟩ := h
  obtain ⟨b',c,hy',hz,hbc⟩ := h'
  have hb : b = b' := Option.some.inj (hy.symm.trans hy')
  exact ⟨a,c,hx,hz,Setoid.trans hab (hb ▸ hbc)⟩

def Agree (A : Finset ℕ) (r s : Row ℕ δ) : Prop := ∀ c ∈ A, Same (r c) (s c)

theorem Agree.symm {A : Finset ℕ} {r s : Row ℕ δ} (h : Agree A r s) : Agree A s r :=
  fun c hc => (h c hc).symm

/-- No two rows agree on the columns with values that are not NULL. -/
def UniqueOn (A : Finset ℕ) (X : List (Row ℕ δ)) : Prop := X.Pairwise fun r s => ¬ Agree A r s

theorem UniqueOn.sublist {A : Finset ℕ} {X Y : List (Row ℕ δ)} (h : UniqueOn A Y)
    (hsub : X.Sublist Y) : UniqueOn A X :=
  List.Pairwise.sublist hsub h

end Agreement

section Scope

variable {L R : Finset ℕ}

variable [Setoid δ] {A : Finset ℕ}

end Scope

section Sound

variable [Setoid δ] [DecidableRel fun a b : δ => a ≈ b]

/-! ### What a predicate that holds says about columns -/

namespace CPredicate

theorem value_equality {left right : COperand δ} {r : Row ℕ δ}
    (h : (CPredicate.equality left right).value r = some true) :
    Same (left.value r) (right.value r) := by
  rw [value] at h
  cases hl : left.value r with
  | none => simp [hl] at h
  | some a =>
    cases hr : right.value r with
    | none => simp [hl,hr] at h
    | some b =>
      simp only [hl,hr,Option.some.injEq,decide_eq_true_eq] at h
      exact ⟨a,b,rfl,rfl,h⟩

theorem valueAll_eq_true {children : List (CPredicate δ)} {r : Row ℕ δ}
    (h : (CPredicate.and children).value r = some true) :
    ∀ t ∈ valueAll children r, t = some true := by
  rw [value] at h
  exact Kleene.all_eq_true_iff.mp h

mutual

/-- A column that a predicate fixes has one value where it holds. -/
theorem same_of_fPredicateFixesColumn {pcr : ℕ} :
    ∀ predicate : CPredicate δ, fPredicateFixesColumn pcr predicate = true →
      ∃ datum, ∀ r, predicate.value r = some true → Same (r pcr) datum
  | .and children, h => by
    rw [fPredicateFixesColumn] at h
    obtain ⟨datum,hdatum⟩ := same_of_fAnyFixesColumn children h
    exact ⟨datum,fun r hr => hdatum r (valueAll_eq_true hr)⟩
  | .equality left right, h => by
    rw [fPredicateFixesColumn,Bool.or_eq_true] at h
    rcases h with h | h
    · obtain ⟨hconst,hcolumn⟩ := Bool.and_eq_true_iff.mp h
      obtain ⟨datum,hdatum⟩ := COperand.value_fConst hconst
      refine ⟨datum,fun r hr => ?_⟩
      have hsame := value_equality hr
      rw [hdatum,COperand.value_pcrEqualityOperand (by simpa using hcolumn)] at hsame
      exact hsame.symm
    · obtain ⟨hconst,hcolumn⟩ := Bool.and_eq_true_iff.mp h
      obtain ⟨datum,hdatum⟩ := COperand.value_fConst hconst
      refine ⟨datum,fun r hr => ?_⟩
      have hsame := value_equality hr
      rw [hdatum,COperand.value_pcrEqualityOperand (by simpa using hcolumn)] at hsame
      exact hsame
  | .other _ _, h => by
    rw [fPredicateFixesColumn] at h
    cases h

theorem same_of_fAnyFixesColumn {pcr : ℕ} :
    ∀ children : List (CPredicate δ), fAnyFixesColumn pcr children = true →
      ∃ datum, ∀ r, (∀ t ∈ valueAll children r, t = some true) → Same (r pcr) datum
  | [], h => by
    rw [fAnyFixesColumn] at h
    cases h
  | predicate :: rest, h => by
    rw [fAnyFixesColumn,Bool.or_eq_true] at h
    rcases h with h | h
    · obtain ⟨datum,hdatum⟩ := same_of_fPredicateFixesColumn predicate h
      refine ⟨datum,fun r hr => hdatum r (hr _ ?_)⟩
      rw [valueAll]
      exact List.mem_cons_self
    · obtain ⟨datum,hdatum⟩ := same_of_fAnyFixesColumn rest h
      refine ⟨datum,fun r hr => hdatum r fun t ht => hr t ?_⟩
      rw [valueAll]
      exact List.mem_cons_of_mem _ ht

end

mutual

/-- A connected column has the value of a joined column where the predicate holds. -/
theorem same_of_mem_collectConnectedColumns {pcrsCandidate pcrsJoined : Finset ℕ} {c : ℕ} :
    ∀ predicate : CPredicate δ, c ∈ collectConnectedColumns pcrsCandidate pcrsJoined predicate →
      c ∈ pcrsCandidate ∧
        ∃ d ∈ pcrsJoined, ∀ r, predicate.value r = some true → Same (r c) (r d)
  | .and children, h => by
    rw [collectConnectedColumns] at h
    obtain ⟨hc,d,hd,hsame⟩ := same_of_mem_collectConnectedColumnsAll children h
    exact ⟨hc,d,hd,fun r hr => hsame r (valueAll_eq_true hr)⟩
  | .equality left right, h => by
    rw [collectConnectedColumns] at h
    split at h
    · rename_i pcrLeft pcrRight hleft hright
      have hsame : ∀ r, (CPredicate.equality left right).value r = some true →
          Same (r pcrLeft) (r pcrRight) := by
        intro r hr
        have hsame := value_equality hr
        rwa [COperand.value_pcrEqualityOperand hleft,
          COperand.value_pcrEqualityOperand hright] at hsame
      split_ifs at h with hl hr
      · rw [Finset.mem_singleton.mp h]
        exact ⟨hl.1,pcrRight,hl.2,hsame⟩
      · rw [Finset.mem_singleton.mp h]
        exact ⟨hr.1,pcrLeft,hr.2,fun r hvalue => (hsame r hvalue).symm⟩
      · exact absurd h (Finset.notMem_empty c)
    · exact absurd h (Finset.notMem_empty c)
  | .other _ _, h => by
    rw [collectConnectedColumns] at h
    exact absurd h (Finset.notMem_empty c)

theorem same_of_mem_collectConnectedColumnsAll {pcrsCandidate pcrsJoined : Finset ℕ} {c : ℕ} :
    ∀ children : List (CPredicate δ),
      c ∈ collectConnectedColumnsAll pcrsCandidate pcrsJoined children →
      c ∈ pcrsCandidate ∧
        ∃ d ∈ pcrsJoined, ∀ r, (∀ t ∈ valueAll children r, t = some true) → Same (r c) (r d)
  | [], h => by
    rw [collectConnectedColumnsAll] at h
    exact absurd h (Finset.notMem_empty c)
  | predicate :: rest, h => by
    rw [collectConnectedColumnsAll,Finset.mem_union] at h
    rcases h with h | h
    · obtain ⟨hc,d,hd,hsame⟩ := same_of_mem_collectConnectedColumns predicate h
      refine ⟨hc,d,hd,fun r hr => hsame r (hr _ ?_)⟩
      rw [valueAll]
      exact List.mem_cons_self
    · obtain ⟨hc,d,hd,hsame⟩ := same_of_mem_collectConnectedColumnsAll rest h
      refine ⟨hc,d,hd,fun r hr => hsame r fun t ht => hr t ?_⟩
      rw [valueAll]
      exact List.mem_cons_of_mem _ ht

end

end CPredicate

/-! ### Uniqueness of joined rows -/

section Join

variable {predicate : CPredicate δ} {L R A : Finset ℕ} {X Y : List (Row ℕ δ)}

end Join

/-! ### Filters above an input -/

/-- `pexpr` selects from `pexprKeySource`. -/
inductive SelectsFrom : CLogicalExpression δ → CLogicalExpression δ → Prop
  | refl (pexpr : CLogicalExpression δ) : SelectsFrom pexpr pexpr
  | select {child pexprKeySource : CLogicalExpression δ} (predicate : CPredicate δ)
      (h : SelectsFrom child pexprKeySource) : SelectsFrom (.select child predicate) pexprKeySource

section Filters

variable {db : SDatabase δ} {pexpr pexprKeySource : CLogicalExpression δ}

omit [Setoid δ] [DecidableRel fun a b : δ => a ≈ b] in
theorem SelectsFrom.child {predicate : CPredicate δ}
    (h : SelectsFrom pexpr (.select pexprKeySource predicate)) :
    SelectsFrom pexpr pexprKeySource := by
  generalize hsource : CLogicalExpression.select pexprKeySource predicate = source at h
  induction h with
  | refl =>
    subst hsource
    exact .select predicate (.refl _)
  | select top _ ih => exact .select top (ih hsource)

end Filters

/-! ### Soundness -/

/-- What is derived for the expression and those below it is true of the database. -/
structure SDerivation.Sound (derived : SDerivation δ) (db : SDatabase δ)
    (pexpr : CLogicalExpression δ) : Prop where
  keys : ∀ part ∈ pexpr.parts, ∀ pkc key, derived.deriveKeyCollection part = some pkc →
    key ∈ pkc → ∀ env, UniqueOn key.toFinset (part.rows db env)
  notNull : ∀ part ∈ pexpr.parts, ∀ pcr ∈ derived.deriveNotNullColumns part,
    ∀ env, ∀ r ∈ part.rows db env, r pcr ≠ none
  nullRejecting : ∀ child predicate, .select child predicate ∈ pexpr.parts →
    ∀ pcr, derived.fNullRejecting predicate {pcr} = true →
      ∀ r : Row ℕ δ, r pcr = none → predicate.value r ≠ some true

theorem SDerivation.Sound.mono {derived : SDerivation δ} {db : SDatabase δ}
    {pexpr part : CLogicalExpression δ} (h : derived.Sound db pexpr)
    (hsub : part.parts ⊆ pexpr.parts) : derived.Sound db part :=
  ⟨fun p hp => h.keys p (hsub hp),fun p hp => h.notNull p (hsub hp),
    fun child predicate hp => h.nullRejecting child predicate (hsub hp)⟩

theorem SDerivation.Sound.inputs {derived : SDerivation δ} {db : SDatabase δ}
    {pexpr left right : CLogicalExpression δ} (h : derived.Sound db pexpr)
    (hparts : pexpr.parts = pexpr :: (left.parts ++ right.parts)) :
    derived.Sound db left ∧ derived.Sound db right := by
  constructor <;> refine h.mono ?_ <;> rw [hparts]
  · exact List.subset_cons_of_subset _ (List.subset_append_left _ _)
  · exact List.subset_cons_of_subset _ (List.subset_append_right _ _)

section Facts

variable {db : SDatabase δ} {derived : SDerivation δ}

section Inputs

variable {predicate : CPredicate δ} {L R : Finset ℕ} {X Y : List (Row ℕ δ)} {c : ℕ}

end Inputs

section Operators

variable {pcr : ℕ} {left right : CLogicalExpression δ} {predicate : CPredicate δ}

end Operators

end Facts

end Sound

/-! ### A key with one column fixed by a filter -/

namespace FixedKeyColumn

structure Number where
  val : ℕ
  deriving DecidableEq

instance : Setoid Number := ⟨Eq, eq_equivalence⟩

instance : DecidableRel fun a b : Number => a ≈ b :=
  fun a b => inferInstanceAs (Decidable (a = b))

def pair (first second : ℕ) : Row ℕ Number :=
  fun c => if c = 1 then some ⟨first⟩ else if c = 2 then some ⟨second⟩ else none

/-- One table with the columns 1 and 2. -/
def db : SDatabase Number where
  relation _ _ := [pair 5 7, pair 5 8, pair 6 7]
  arrange _ X := X
  arrange_perm _ _ := .refl _

def derived : SDerivation Number where
  deriveKeyCollection
    | .other 0 output => if output = {1, 2} then some [[1, 2]] else none
    | _ => none
  deriveNotNullColumns _ := ∅
  fNullRejecting
    | .equality (.ident colref) (.const _), pcrs => decide (colref ∈ pcrs)
    | _, _ => false

/-- `SELECT * FROM t WHERE c1 = 5` -/
def filtered : CLogicalExpression Number :=
  .select (.other 0 {1, 2}) (.equality (.ident 1) (.const (some ⟨5⟩)))

end FixedKeyColumn

end PgOrca.Rules
