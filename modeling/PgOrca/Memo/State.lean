import PgOrca.Library.Digraph
import PgOrca.Library.Links

/-!
# The memo

Groups of equivalent expressions, the links between groups found to be duplicates, and the hash
table of group expressions, with insertion, duplicate marking and rehashing as the engine does
them.
-/

namespace PgOrca.Search

/-- What the memo asks of an operator. The bucket of an expression depends on its operator and on
the numbers its groups are hashed by. -/
class COperator (α : Type*) where
  fScalar : α → Bool
  fLogical : α → Bool
  fInputOrderSensitive : α → Bool
  fMatches : α → α → Bool
  getBucketIndex : α → List ℕ → ℕ
  deriveOutputColumns : α → List (Finset ℕ) → Finset ℕ
  fScalar_of_fMatches : ∀ a b, fMatches a b = true → fScalar a = fScalar b

/-- `CGroupExpression`, with the group that owns it. `FHasDSLProvenance` walks an immutable chain
of origins, so its answer is stored. -/
structure CGroupExpression (α : Type*) where
  pop : α
  pdrgpgroup : List ℕ
  pgroup : ℕ
  fHasDSLProvenance : Bool
  deriving DecidableEq

/-- `CMemo`: the members of the groups are maps from group ids, which are handed out in order. The
lists `m_listGExprs` of all groups are kept in one list, in the order of insertion; an entry of
the hash table remembers the bucket it was put into. -/
structure CMemo (α : Type*) where
  aul : ℕ
  fScalar : ℕ → Bool
  outputColumns : ℕ → Finset ℕ
  pgroupDuplicate : ℕ → Option ℕ
  listGExprs : List (CGroupExpression α)
  sht : List (ℕ × CGroupExpression α)

/-- An expression to be inserted: a part bound to a group of the memo, or a new node. -/
inductive CExpression (α : Type*) where
  | bound (pgroup : ℕ)
  | node (pop : α) (children : List (CExpression α))

namespace CMemo

variable {α : Type*} [COperator α] (M : CMemo α)

open COperator

/-! ## Groups -/

variable (g : ℕ)

def pgroupDuplicateMaster : ℕ := follow M.pgroupDuplicate M.aul g

/-- The non-scalar inputs of the logical expressions that the group itself owns. -/
def relationalInputs : List ℕ :=
  ((M.listGExprs.filter fun e => e.pgroup = g ∧ fLogical e.pop).flatMap (·.pdrgpgroup)).filter
    fun c => !M.fScalar c

def fReachable (start target : ℕ) : Bool :=
  !(M.fScalar start || M.fScalar target) &&
    (search M.pgroupDuplicateMaster M.relationalInputs (M.pgroupDuplicateMaster target)
      (M.aul + 1) start ∅).1

variable (fst snd : ℕ)

def fDuplicateGroups : Bool :=
  fst = snd || M.pgroupDuplicate snd = some fst || M.pgroupDuplicate fst = some snd ||
    (M.pgroupDuplicate fst).isSome && M.pgroupDuplicate fst = M.pgroupDuplicate snd

def addDuplicateGrp : CMemo α :=
  { M with pgroupDuplicate :=
      if fst > snd then addLink M.pgroupDuplicate (M.aul + M.aul) snd fst
      else addLink M.pgroupDuplicate (M.aul + M.aul) fst snd }

def resolveDuplicateMaster : CMemo α :=
  { M with pgroupDuplicate := compress M.pgroupDuplicate M.aul g }

def markDuplicates : CMemo α :=
  ((M.addDuplicateGrp fst snd).resolveDuplicateMaster fst).resolveDuplicateMaster snd

/-! ## Hash table -/

/-- `CGroup::HashValue`: a group without expressions has been merged into its duplicate. -/
def hashId : ℕ :=
  match M.pgroupDuplicate g with
  | some h => if M.listGExprs.all fun e => e.pgroup ≠ g then h else g
  | none => g

variable (e : CGroupExpression α)

def bucketIndex : ℕ :=
  getBucketIndex e.pop (e.pdrgpgroup.map M.hashId)

def fMatchGroups (fst snd : List ℕ) : Bool :=
  (fst.zip snd).all fun pair => pair.1 = pair.2 || M.fDuplicateGroups pair.1 pair.2

def fMatches (e e' : CGroupExpression α) : Bool :=
  e.pdrgpgroup.length = e'.pdrgpgroup.length && COperator.fMatches e.pop e'.pop &&
    if e.pdrgpgroup.length ≤ 1 || fInputOrderSensitive e.pop then
      M.fMatchGroups e.pdrgpgroup e'.pdrgpgroup
    else
      M.fMatchGroups (e.pdrgpgroup.mergeSort fun a b => a ≤ b)
        (e'.pdrgpgroup.mergeSort fun a b => a ≤ b)

def find : Option (CGroupExpression α) :=
  (M.sht.find? fun entry => entry.1 = M.bucketIndex e ∧ M.fMatches e entry.2).map Prod.snd

def insertEntry : CMemo α :=
  { M with sht := (M.bucketIndex e, e) :: M.sht }

/-! ## Insertion -/

/-- `CMemo::PgroupInsert`: an expression that is not in the table goes to the target group, or to
a new group when there is no target. -/
def pgroupInsert (pgroupTarget : Option ℕ) (pop : α) (pdrgpgroup : List ℕ)
    (fDSLProvenance : Bool) : CMemo α × ℕ :=
  let target := pgroupTarget.getD M.aul
  let e : CGroupExpression α := ⟨pop, pdrgpgroup, target, fDSLProvenance⟩
  match M.find e with
  | some found => (M, found.pgroup)
  | none =>
    let M₁ := { M.insertEntry e with listGExprs := M.listGExprs ++ [e] }
    match pgroupTarget with
    | some _ => (M₁, target)
    | none =>
      ({ M₁ with
          aul := M.aul + 1
          fScalar := Function.update M.fScalar M.aul (COperator.fScalar pop)
          outputColumns := Function.update M.outputColumns M.aul
            (deriveOutputColumns pop (pdrgpgroup.map M.outputColumns)) }, target)

end CMemo

namespace CEngine

variable {α : Type*} [COperator α] (M : CMemo α)

/-- `CEngine::PgroupInsert` after the children are in the memo: the guard of alternatives with DSL
provenance, then the insertion. -/
def insertRoot (pgroupTarget : Option ℕ) (fDSLProvenance : Bool) (pop : α)
    (pdrgpgroup : List ℕ) : CMemo α × ℕ :=
  match pgroupTarget with
  | some target =>
    if fDSLProvenance && pdrgpgroup.any fun c => !M.fScalar c && M.fReachable c target then
      (M, target)
    else M.pgroupInsert (some target) pop pdrgpgroup fDSLProvenance
  | none => M.pgroupInsert none pop pdrgpgroup fDSLProvenance

mutual

/-- `CEngine::PgroupInsert` -/
def pgroupInsert (M : CMemo α) (pgroupTarget : Option ℕ) (fDSLProvenance : Bool) :
    CExpression α → CMemo α × ℕ
  | .bound pgroup => (M, pgroup)
  | .node pop children =>
    let inserted := insertExpressionChildren M fDSLProvenance children
    insertRoot inserted.1 pgroupTarget fDSLProvenance pop inserted.2

def insertExpressionChildren (M : CMemo α) (fDSLProvenance : Bool) :
    List (CExpression α) → CMemo α × List ℕ
  | [] => (M, [])
  | child :: children =>
    let first := pgroupInsert M none fDSLProvenance child
    let rest := insertExpressionChildren first.1 fDSLProvenance children
    (rest.1, first.2 :: rest.2)

end

def fPossibleDuplicateGroups (fst snd : ℕ) : Bool :=
  M.outputColumns fst = M.outputColumns snd

/-- `CEngine::InsertXformResult` for one result of the xform. -/
def insertXformResult (pgroupOrigin : ℕ) (fDSLProvenance : Bool)
    (pexpr : CExpression α) : CMemo α :=
  let inserted := pgroupInsert M (some pgroupOrigin) fDSLProvenance pexpr
  let M := inserted.1
  let pgroupContainer := inserted.2
  if pgroupContainer ≠ pgroupOrigin ∧ fPossibleDuplicateGroups M pgroupContainer pgroupOrigin ∧
      (!fDSLProvenance || !M.fReachable pgroupContainer pgroupOrigin &&
        !M.fReachable pgroupOrigin pgroupContainer) then
    M.markDuplicates pgroupOrigin pgroupContainer
  else M

end CEngine

namespace CMemo

variable {α : Type*} [COperator α] [DecidableEq α] (M : CMemo α)

/-! ## Rehashing -/

def moveDuplicateGExpr (e : CGroupExpression α) : CMemo α :=
  { M with listGExprs := M.listGExprs.erase e }

/-- One round of the loop of `FRehash`; the flag tells whether groups were merged. -/
def rehashStep (state : CMemo α × Bool) (e : CGroupExpression α) : CMemo α × Bool :=
  let M := state.1
  match M.find e with
  | none => (M.insertEntry e, state.2)
  | some found =>
    if found.pgroup = e.pgroup then (M.moveDuplicateGExpr e, state.2)
    else
      let M := (M.resolveDuplicateMaster e.pgroup).resolveDuplicateMaster found.pgroup
      let fMergeGroups := !M.fDuplicateGroups e.pgroup found.pgroup
      let fDSLProvenance := e.fHasDSLProvenance || found.fHasDSLProvenance
      if fMergeGroups && fDSLProvenance &&
          (M.fReachable e.pgroup found.pgroup || M.fReachable found.pgroup e.pgroup) then
        (M, state.2)
      else if fMergeGroups then
        ((M.moveDuplicateGExpr e).markDuplicates e.pgroup found.pgroup, true)
      else (M.moveDuplicateGExpr e, state.2)

/-- `CMemo::FRehash`: the table is emptied and its expressions are inserted again. -/
def fRehash : CMemo α × Bool :=
  (M.sht.map Prod.snd).foldl rehashStep ({ M with sht := [] }, false)

end CMemo

/-! ## The dependency graph -/

namespace CMemo

variable {α : Type*} [COperator α] (M : CMemo α)

/-- An edge of the dependency graph with groups identified along duplicate links. -/
def Edge (a b : ℕ) : Prop :=
  ∃ e ∈ M.listGExprs, M.pgroupDuplicateMaster e.pgroup = a ∧
    ∃ c ∈ e.pdrgpgroup, M.fScalar c = false ∧ M.pgroupDuplicateMaster c = b

def Reaches (g h : ℕ) : Prop :=
  Relation.ReflTransGen M.Edge (M.pgroupDuplicateMaster g) (M.pgroupDuplicateMaster h)

/-- An edge of a logical expression that is owned by the group itself. -/
def OwnEdge (a b : ℕ) : Prop :=
  ∃ e ∈ M.listGExprs, e.pgroup = a ∧ COperator.fLogical e.pop = true ∧
    ∃ c ∈ e.pdrgpgroup, M.fScalar c = false ∧ M.pgroupDuplicateMaster c = b

/-- A path between non-scalar groups along the logical expressions that duplicate masters own. -/
def OwnPath (g h : ℕ) : Prop :=
  M.fScalar g = false ∧ M.fScalar h = false ∧
    Relation.ReflTransGen M.OwnEdge (M.pgroupDuplicateMaster g) (M.pgroupDuplicateMaster h)

/-- What every state of the memo satisfies: links follow the order of the group ids, and table
entries are live expressions over known groups. -/
structure Valid : Prop where
  ascending : Ascending M.aul M.pgroupDuplicate
  owner : ∀ e ∈ M.listGExprs, e.pgroup < M.aul
  inputs : ∀ e ∈ M.listGExprs, ∀ c ∈ e.pdrgpgroup, c < M.aul
  table : (M.sht.map Prod.snd).Subperm M.listGExprs

/-- Duplicate groups, and a group and its expressions, are of one kind. -/
structure Kinds : Prop where
  link : ∀ g h, M.pgroupDuplicate g = some h → M.fScalar g = M.fScalar h
  expression : ∀ e ∈ M.listGExprs, COperator.fScalar e.pop = M.fScalar e.pgroup

end CMemo

end PgOrca.Search
