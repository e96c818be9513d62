import PgOrca.Preprocess.Expression

/-!
# What an expression before the optimizer computes

A column that an expression does not output has the value of the outer row. How rows that compare
equal are arranged by a sort is up to the execution.
-/

namespace PgOrca.Preprocess

open Unnesting (CDatum scalarValue)

universe u

structure Preordered {n : ℕ} (cmp : Fin n → Fin n → Ordering) : Prop where
  total : ∀ i j, cmp i j ≠ .gt ∨ cmp j i ≠ .gt
  trans : ∀ i j k, cmp i j ≠ .gt → cmp j k ≠ .gt → cmp i k ≠ .gt

/-- The database, and what is left to the execution. -/
structure CExecution (β : Type u) where
  tables : ℕ → List (List (Option (CDatum β)))
  compare : ℕ → Bool → Option (CDatum β) → Option (CDatum β) → Ordering
  compare_self : ∀ mdidSortOp fNullsFirst value, compare mdidSortOp fNullsFirst value value = .eq
  arrange : (n : ℕ) → (Fin n → Fin n → Ordering) → List (Fin n)
  arrange_perm : ∀ n cmp, (arrange n cmp).Perm (List.finRange n)
  arrange_sorted : ∀ n cmp, Preordered cmp → (arrange n cmp).Pairwise fun i j => cmp i j ≠ .gt
  framePositions : CWindowFrame → List (List Ordering) → List (Option (CDatum β)) →
    Option (CDatum β) → Option (CDatum β) → ℕ → List ℕ

variable {β : Type u}

/-- An execution that sorts stably and whose frames end at the current row. -/
def CExecution.stable (tables : ℕ → List (List (Option (CDatum β))))
    (compare : ℕ → Bool → Option (CDatum β) → Option (CDatum β) → Ordering)
    (compare_self : ∀ mdidSortOp fNullsFirst value,
      compare mdidSortOp fNullsFirst value value = .eq) : CExecution β where
  tables := tables
  compare := compare
  compare_self := compare_self
  arrange n cmp := (List.finRange n).insertionSort fun i j => cmp i j ≠ .gt
  arrange_perm n _ := List.perm_insertionSort _ _
  arrange_sorted n cmp h := by
    have : Std.Total fun i j => cmp i j ≠ .gt := ⟨h.total⟩
    have : IsTrans (Fin n) fun i j => cmp i j ≠ .gt := ⟨h.trans⟩
    exact List.pairwise_insertionSort _ _
  framePositions _ _ _ _ _ i := List.range (i + 1)

def arrangement {α : Type*} (exec : CExecution β) (cmp : α → α → Ordering) (X : List α) : List α :=
  (exec.arrange X.length fun i j => cmp (X.get i) (X.get j)).map X.get

def representatives {α : Type*} (same : α → α → Bool) : List α → List α
  | [] => []
  | r :: rs =>
    if (representatives same rs).any (same r) then representatives same rs
    else r :: representatives same rs

def COrderSpec.compare (exec : CExecution β) (pos : COrderSpec) (r s : Row ℕ (CDatum β)) :
    Ordering :=
  pos.foldr (fun poe rest =>
    (exec.compare poe.mdidSortOp poe.fNullsFirst (r poe.colref) (s poe.colref)).then rest) .eq

/-- The values of one argument, given those of all arguments for each row. -/
def argumentValues (arguments : List (List (Option (CDatum β)))) (j : ℕ) :
    List (Option (CDatum β)) :=
  arguments.map fun values => (values[j]?).join

def aggregateValues (functions : List (CAggFunc β))
    (arguments : List (List (Option (CDatum β)))) : List (Option (CDatum β)) :=
  functions.mapIdx fun j f => f (argumentValues arguments j)

def sameOn [DecidableEq β] (columns : List ℕ) (r s : Row ℕ (CDatum β)) : Bool :=
  r.tuple columns = s.tuple columns

/-- The row of each group; without grouping columns there is always one. -/
def groupRows [DecidableEq β] (env : Row ℕ (CDatum β)) (pdrgpcr columns : List ℕ)
    (functions : List (CAggFunc β)) (arguments : Row ℕ (CDatum β) → List (Option (CDatum β)))
    (X : List (Row ℕ (CDatum β))) : List (Row ℕ (CDatum β)) :=
  if pdrgpcr = [] then [env.assign columns (aggregateValues functions (X.map arguments))]
  else
    (representatives (sameOn pdrgpcr) X).map fun rep =>
      (rep.scope pdrgpcr.toFinset env).assign columns
        (aggregateValues functions ((X.filter (sameOn pdrgpcr rep)).map arguments))

def frameKeys (pos : COrderSpec) (pwf : CWindowFrame) (X : List (Row ℕ (CDatum β))) :
    List (Option (CDatum β)) :=
  if pwf.fRangeOffset then
    match pos with
    | [poe] => X.map fun r => r poe.colref
    | _ => []
  else []

/-- The rows of one partition with the values of the window functions. -/
def windowRows (exec : CExecution β) (pos : COrderSpec) (pwf : CWindowFrame)
    (leading trailing : Row ℕ (CDatum β) → Option (CDatum β)) (columns : List ℕ)
    (functions : List (CWindowFunc β)) (arguments : Row ℕ (CDatum β) → List (Option (CDatum β)))
    (X : List (Row ℕ (CDatum β))) : List (Row ℕ (CDatum β)) :=
  let sorted := arrangement exec (COrderSpec.compare exec pos) X
  let order := sorted.map fun r => sorted.map fun s => COrderSpec.compare exec pos r s
  sorted.mapIdx fun i r =>
    r.assign columns (functions.mapIdx fun j f =>
      f (argumentValues (sorted.map arguments) j) order
        (exec.framePositions pwf order (frameKeys pos pwf sorted) (leading r) (trailing r) i) i)

/-- The offset or count of a limit; NULL or no number leaves it open. -/
def rowCount (value : Option (CDatum β)) : Option ℕ := (CDatum.toInt value).map Int.toNat

def limitRows (exec : CExecution β) (pos : COrderSpec) (offset count : Option ℕ)
    (X : List (Row ℕ (CDatum β))) : List (Row ℕ (CDatum β)) :=
  let sorted := (arrangement exec (COrderSpec.compare exec pos) X).drop (offset.getD 0)
  count.elim sorted sorted.take

def joined (isMatch : Row ℕ (CDatum β) → Bool) (right : Finset ℕ) (x : Row ℕ (CDatum β))
    (Y : List (Row ℕ (CDatum β))) : List (Row ℕ (CDatum β)) :=
  (Y.map fun y => y.scope right x).filter isMatch

def joinRows (joinType : JoinType) (isMatch : Row ℕ (CDatum β) → Bool) (left right : Finset ℕ)
    (X Y : List (Row ℕ (CDatum β))) : List (Row ℕ (CDatum β)) :=
  let leftOuter := X.flatMap fun x =>
    if (joined isMatch right x Y).isEmpty then [Row.null.scope right x]
    else joined isMatch right x Y
  match joinType with
  | .inner => X.flatMap fun x => joined isMatch right x Y
  | .leftOuter => leftOuter
  | .rightOuter => Y.flatMap fun y =>
    let partners := (X.map fun x => y.scope right x).filter isMatch
    if partners.isEmpty then [Row.null.scope left y] else partners
  | .fullOuter =>
    leftOuter ++ (Y.filter fun y => !X.any fun x => isMatch (y.scope right x)).map fun y =>
      Row.null.scope left y
  | .leftSemi => X.filter fun x => !(joined isMatch right x Y).isEmpty
  | .leftAntiSemi => X.filter fun x => (joined isMatch right x Y).isEmpty
  | .leftAntiSemiNotIn => X.filter fun x => (joined isMatch right x Y).isEmpty

def setOpTuples {τ : Type*} [DecidableEq τ] : ESetOp → List (List τ) → List τ
  | _, [] => []
  | .union, X :: Xs => (X ++ Xs.flatten).dedup
  | .unionAll, X :: Xs => X ++ Xs.flatten
  | .intersect, X :: Xs => (X.filter fun t => Xs.all fun Y => t ∈ Y).dedup
  | .intersectAll, X :: Xs => Xs.foldl List.bagInter X
  | .difference, X :: Xs => X.dedup.filter fun t => t ∉ Xs.flatten
  | .differenceAll, X :: Xs => X.diff Xs.flatten

section

variable [DecidableEq β] (exec : CExecution β)

mutual

def CScalarTree.eval : CScalarTree β → Row ℕ (CDatum β) → Option (CDatum β)
  | .ident colref, r => r colref
  | .const datum, _ => datum
  | .node pop children, r => pop.value (evalAll children r)
  | .subquery colref inner, r =>
    scalarValue (((inner.rows r).map fun y => y colref : List (Option (CDatum β))) :
      Multiset (Option (CDatum β)))
  | .existential negated inner, r => CDatum.ofBool (some ((inner.rows r).isEmpty = negated))
  | .quantified quantifier op colref inner scalar, r =>
    CDatum.ofBool (quantifier.value (((inner.rows r).map fun y =>
      op.value (scalar.eval r) (y colref) : List (Option Bool)) : Multiset (Option Bool)))

def evalAll : List (CScalarTree β) → Row ℕ (CDatum β) → List (Option (CDatum β))
  | [], _ => []
  | e :: es, r => e.eval r :: evalAll es r

def CLogicalTree.rows : CLogicalTree β → Row ℕ (CDatum β) → List (Row ℕ (CDatum β))
  | .get table pdrgpcrOutput, env =>
    (exec.tables table).map fun tuple => env.assign pdrgpcrOutput tuple
  | .select child predicate, env =>
    (child.rows env).filter fun r => CDatum.toBool (predicate.eval r) = some true
  | .project child columns values, env =>
    (child.rows env).map fun r => r.assign columns (evalAll values r)
  | .gbAgg child pdrgpcr columns functions arguments, env =>
    groupRows env pdrgpcr columns functions (fun r => evalAll arguments r) (child.rows env)
  | .sequenceProject child pds pos pwf pexprLeading pexprTrailing columns functions arguments,
      env =>
      let X := child.rows env
      (representatives (fun r s => evalAll pds r = evalAll pds s) X).flatMap fun rep =>
        windowRows exec pos pwf (fun r => pexprLeading.eval r) (fun r => pexprTrailing.eval r)
          columns functions (fun r => evalAll arguments r)
          (X.filter fun r => evalAll pds rep = evalAll pds r)
  | .limit child pos pexprOffset fHasCount pexprCount, env =>
    limitRows exec pos (rowCount (pexprOffset.eval env))
      (if fHasCount then rowCount (pexprCount.eval env) else none) (child.rows env)
  | .join joinType left right predicate, env =>
    joinRows joinType (fun r => joinType.isMatch (CDatum.toBool (predicate.eval r)))
      left.outputColumns right.outputColumns (left.rows env) (right.rows env)
  | .setOp op pdrgpcrOutput pdrgpdrgpcrInput children, env =>
    (setOpTuples op (childTuples pdrgpdrgpcrInput children env)).map fun tuple =>
      env.assign pdrgpcrOutput tuple

/-- The tuples of each input of a set operation, read at its input columns. -/
def childTuples : List (List ℕ) → List (CLogicalTree β) → Row ℕ (CDatum β) →
    List (List (List (Option (CDatum β))))
  | _, [], _ => []
  | [], _ :: _, _ => []
  | input :: inputs, child :: children, env =>
    ((child.rows env).map fun r => r.tuple input) :: childTuples inputs children env

end

theorem evalAll_eq_map (es : List (CScalarTree β)) (r : Row ℕ (CDatum β)) :
    evalAll exec es r = es.map fun e => e.eval exec r := by
  induction es with
  | nil => simp only [evalAll,List.map_nil]
  | cons e es ih => simp only [evalAll,List.map_cons,ih]

end

end PgOrca.Preprocess
