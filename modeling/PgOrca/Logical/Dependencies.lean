import PgOrca.Logical.KeySoundness

/-!
# Derived functional dependencies

An expression inherits every dependency of an input whose left side it outputs,
whatever it does with the rows, and adds one for each of its own keys.
-/

namespace PgOrca

variable {C ν : Type*}

def Determines (K D : Finset ℕ) (X : Multiset (Row ℕ ν)) : Prop :=
  ∀ r ∈ X, ∀ s ∈ X, Row.AgreeOn K r s → Row.AgreeOn D r s

section

variable {K D D' : Finset ℕ} {X Y : Multiset (Row ℕ ν)}

theorem IsKey.determines (h : IsKey K X) (D : Finset ℕ) : Determines K D X :=
  fun r hr _ hs hag => h.eq_of_agreeOn hr hs hag ▸ Row.AgreeOn.refl D r

theorem determines_empty (K : Finset ℕ) (X : Multiset (Row ℕ ν)) : Determines K ∅ X :=
  fun _ _ _ _ _ _ hc => absurd hc (Finset.notMem_empty _)

theorem Determines.transfer (h : Determines K D X)
    (hrows : ∀ r ∈ Y, ∃ x ∈ X, Row.AgreeOn K r x ∧ Row.AgreeOn D r x) : Determines K D Y := by
  intro r hr s hs hag
  obtain ⟨x,hx,hrxK,hrxD⟩ := hrows r hr
  obtain ⟨y,hy,hsyK,hsyD⟩ := hrows s hs
  have hxy := h x hx y hy ((hrxK.symm.trans hag).trans hsyK)
  exact (hrxD.trans hxy).trans hsyD.symm

end

structure CFunctionalDependency where
  key : Finset ℕ
  determined : Finset ℕ
  deriving DecidableEq

namespace CFunctionalDependency

def fIncluded (fd : CFunctionalDependency) (columns : Finset ℕ) : Bool :=
  decide (fd.key ⊆ columns) && decide (fd.determined ⊆ columns)

/-- What a parent with these output columns inherits: nothing unless it outputs the whole key and
some determined column. -/
def restrictTo (output : Finset ℕ) (fd : CFunctionalDependency) : Option CFunctionalDependency :=
  if fd.key ⊆ output ∧ fd.determined ∩ output ≠ ∅ then
    some ⟨fd.key, fd.determined ∩ output⟩
  else none

def ofKey (output key : Finset ℕ) : Option CFunctionalDependency :=
  if output \ key ≠ ∅ then some ⟨key, output \ key⟩ else none

end CFunctionalDependency

namespace CLogical

section

variable [ScalarLeaf C] [ScalarMeaning C ν] (fContradiction : CLogical C ν → Bool)

def deriveLocalFunctionalDependencies (t : CLogical C ν) : List CFunctionalDependency :=
  (t.deriveKeyCollection fContradiction).filterMap (CFunctionalDependency.ofKey t.outputColumns)

mutual

/-- `DeriveFunctionalDependencies`. A consumer has no child to inherit from. -/
def deriveFunctionalDependencies : CLogical C ν → List CFunctionalDependency
  | get table output keys => (get table output keys).deriveLocalFunctionalDependencies fContradiction
  | constTableGet output tuples =>
    (constTableGet output tuples).deriveLocalFunctionalDependencies fContradiction
  | tvf output function => (tvf output function).deriveLocalFunctionalDependencies fContradiction
  | select child predicate =>
    inherit (select child predicate) child.deriveFunctionalDependencies
  | project child elements =>
    inherit (project child elements) child.deriveFunctionalDependencies
  | gbAgg child columns aggregates =>
    inherit (gbAgg child columns aggregates) child.deriveFunctionalDependencies
  | sequenceProject child partition functions =>
    inherit (sequenceProject child partition functions) child.deriveFunctionalDependencies
  | limit child l => inherit (limit child l) child.deriveFunctionalDependencies
  | maxOneRow child => inherit (maxOneRow child) child.deriveFunctionalDependencies
  | join joinType left right predicate =>
    inherit (join joinType left right predicate)
      (left.deriveFunctionalDependencies ++ right.deriveFunctionalDependencies)
  | apply applyType outer inner predicate =>
    inherit (apply applyType outer inner predicate)
      (outer.deriveFunctionalDependencies ++ inner.deriveFunctionalDependencies)
  | setOp op output inputs children =>
    inherit (setOp op output inputs children) (childDependencies children)
  | cteProducer columns child =>
    inherit (cteProducer columns child) child.deriveFunctionalDependencies
  | cteConsumer columns producer =>
    (cteConsumer columns producer).deriveLocalFunctionalDependencies fContradiction
where
  /-- The applicable dependencies of the inputs, then the local ones. -/
  inherit (t : CLogical C ν) (fds : List CFunctionalDependency) : List CFunctionalDependency :=
    fds.filterMap (CFunctionalDependency.restrictTo t.outputColumns)
      ++ t.deriveLocalFunctionalDependencies fContradiction

def childDependencies : List (CLogical C ν) → List CFunctionalDependency
  | [] => []
  | t :: ts => t.deriveFunctionalDependencies ++ childDependencies ts

end

end

def fdChildren : CLogical C ν → List (CLogical C ν)
  | cteConsumer _ _ => []
  | t => t.children

theorem fdChildren_subset {c t : CLogical C ν} (h : c ∈ t.fdChildren) : c ∈ t.children := by
  cases t with
  | cteConsumer => cases h
  | _ => exact h

/-- `CXformSimplifyGbAgg::FDropGbAgg`: no aggregate, and the grouping columns include a key. -/
def fDropGbAgg (keys : List (Finset ℕ)) (columns : Finset ℕ)
    (aggregates : List (CScalarAggregate ν)) : Bool :=
  aggregates.isEmpty && keys.any fun key => decide (key ⊆ columns)

/-- The minimal grouping columns of `CXformSimplifyGbAgg::Transform`, if it produces any: the
dependencies among the grouping columns must cover them. -/
def pcrsMinimal (fds : List CFunctionalDependency) (columns : Finset ℕ) : Option (Finset ℕ) :=
  let included := fds.filter fun fd => fd.fIncluded columns
  let covered := included.foldr (fun fd acc => fd.determined ∪ fd.key ∪ acc) ∅
  if covered = columns then some (included.foldr (fun fd acc => fd.key ∪ acc) ∅) else none

section

variable [ScalarLeaf C] [ScalarMeaning C ν] {fContradiction : CLogical C ν → Bool}
  {fd : CFunctionalDependency}

theorem mem_childDependencies {ts : List (CLogical C ν)} :
    fd ∈ childDependencies fContradiction ts ↔
      ∃ t ∈ ts, fd ∈ t.deriveFunctionalDependencies fContradiction := by
  induction ts with
  | nil => simp [childDependencies]
  | cons t ts ih => simp [childDependencies,ih]

theorem mem_deriveFunctionalDependencies {t : CLogical C ν} :
    fd ∈ t.deriveFunctionalDependencies fContradiction ↔
      (∃ c ∈ t.fdChildren, ∃ fd' ∈ c.deriveFunctionalDependencies fContradiction,
        fd'.restrictTo t.outputColumns = some fd) ∨
      fd ∈ t.deriveLocalFunctionalDependencies fContradiction := by
  cases t with
  | setOp op output inputs ts =>
    simp only [deriveFunctionalDependencies,deriveFunctionalDependencies.inherit,
      List.mem_append,List.mem_filterMap,mem_childDependencies]
    refine or_congr_left ⟨?_,?_⟩
    · rintro ⟨fd',⟨t,ht,hfd'⟩,hfd⟩
      exact ⟨t,ht,fd',hfd',hfd⟩
    · rintro ⟨t,ht,fd',hfd',hfd⟩
      exact ⟨fd',⟨t,ht,hfd'⟩,hfd⟩
  | _ =>
    simp [deriveFunctionalDependencies,deriveFunctionalDependencies.inherit,fdChildren,
      children,or_and_right,exists_or,or_assoc]

end

end CLogical

end PgOrca
