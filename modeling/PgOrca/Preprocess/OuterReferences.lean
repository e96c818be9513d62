import PgOrca.Preprocess.Congruence

/-!
# Removing superfluous outer references

Outer references are dropped where they are constant. A grouping that is left without grouping
columns turns into a scalar aggregate, which has a row for an empty input.
-/

namespace PgOrca.Preprocess

open List
open CTree (Everywhere)

open Unnesting (CDatum)

universe u

variable {β : Type u}

def pdrgpcrExcludeColumns (pdrgpcr : List ℕ) (pcrs : Finset ℕ) : List ℕ :=
  pdrgpcr.filter fun colref => colref ∉ pcrs

/-- `PdshashedExcludeColumns`; when nothing is left the spec is a singleton one. -/
def pdsExcludeColumns (pds : List (CScalarTree β)) (pcrs : Finset ℕ) : List (CScalarTree β) :=
  pds.filter fun
    | .ident colref => colref ∉ pcrs
    | _ => true

mutual

/-- The number is the next one of the column factory. -/
def CScalarTree.removeSuperfluousOuterRefs : CScalarTree β → ℕ → CScalarTree β × ℕ
  | .ident colref, next => (.ident colref, next)
  | .const datum, next => (.const datum, next)
  | .node pop children, next =>
    let new := removeOuterRefsAll children next
    (.node pop new.1, new.2)
  | .subquery colref inner, next =>
    let new := inner.removeSuperfluousOuterRefs next
    (.subquery colref new.1, new.2)
  | .existential negated inner, next =>
    let new := inner.removeSuperfluousOuterRefs next
    (.existential negated new.1, new.2)
  | .quantified quantifier op colref inner scalar, next =>
    let newInner := inner.removeSuperfluousOuterRefs next
    let newScalar := scalar.removeSuperfluousOuterRefs newInner.2
    (.quantified quantifier op colref newInner.1 newScalar.1, newScalar.2)

def removeOuterRefsAll : List (CScalarTree β) → ℕ → List (CScalarTree β) × ℕ
  | [], next => ([], next)
  | e :: es, next =>
    let new := e.removeSuperfluousOuterRefs next
    let rest := removeOuterRefsAll es new.2
    (new.1 :: rest.1, rest.2)

def CLogicalTree.removeSuperfluousOuterRefs : CLogicalTree β → ℕ → CLogicalTree β × ℕ
  | .get table pdrgpcrOutput, next => (.get table pdrgpcrOutput, next)
  | .select child predicate, next =>
    let newChild := child.removeSuperfluousOuterRefs next
    let newPredicate := predicate.removeSuperfluousOuterRefs newChild.2
    (.select newChild.1 newPredicate.1, newPredicate.2)
  | .project child columns values, next =>
    let newChild := child.removeSuperfluousOuterRefs next
    let newValues := removeOuterRefsAll values newChild.2
    (.project newChild.1 columns newValues.1, newValues.2)
  | .gbAgg child pdrgpcr columns functions arguments, next =>
    let outerRefs :=
      (CLogicalTree.gbAgg child pdrgpcr columns functions arguments).outerReferences
    let colrefArray := pdrgpcrExcludeColumns pdrgpcr outerRefs
    if outerRefs = ∅ ∨ 0 < columns.length ∨ 0 < colrefArray.length then
      let newChild := child.removeSuperfluousOuterRefs next
      let newArguments := removeOuterRefsAll arguments newChild.2
      (.gbAgg newChild.1 colrefArray columns functions newArguments.1, newArguments.2)
    else
      let newGroupingCols := List.range' next pdrgpcr.length
      let newChild := child.removeSuperfluousOuterRefs (next + pdrgpcr.length)
      let newArguments := removeOuterRefsAll arguments newChild.2
      (.gbAgg (.project newChild.1 newGroupingCols (pdrgpcr.map .ident)) newGroupingCols
        columns functions newArguments.1, newArguments.2)
  | .sequenceProject child pds pos pwf pexprLeading pexprTrailing columns functions arguments,
      next =>
      let outerRefs := (CLogicalTree.sequenceProject child pds pos pwf pexprLeading pexprTrailing
        columns functions arguments).outerReferences
      let newChild := child.removeSuperfluousOuterRefs next
      let newArguments := removeOuterRefsAll arguments newChild.2
      -- the partition columns and the frame belong to the operator and are not descended into
      (.sequenceProject newChild.1 (pdsExcludeColumns pds outerRefs)
        (COrderSpec.posExcludeColumns pos outerRefs) pwf pexprLeading pexprTrailing columns
        functions newArguments.1, newArguments.2)
  | .limit child pos pexprOffset fHasCount pexprCount, next =>
    let outerRefs :=
      (CLogicalTree.limit child pos pexprOffset fHasCount pexprCount).outerReferences
    let newChild := child.removeSuperfluousOuterRefs next
    let newOffset := pexprOffset.removeSuperfluousOuterRefs newChild.2
    let newCount := pexprCount.removeSuperfluousOuterRefs newOffset.2
    (.limit newChild.1 (COrderSpec.posExcludeColumns pos outerRefs) newOffset.1 fHasCount
      newCount.1, newCount.2)
  | .join joinType left right predicate, next =>
    let newLeft := left.removeSuperfluousOuterRefs next
    let newRight := right.removeSuperfluousOuterRefs newLeft.2
    let newPredicate := predicate.removeSuperfluousOuterRefs newRight.2
    (.join joinType newLeft.1 newRight.1 newPredicate.1, newPredicate.2)
  | .setOp op pdrgpcrOutput pdrgpdrgpcrInput children, next =>
    let new := removeOuterRefsTrees children next
    (.setOp op pdrgpcrOutput pdrgpdrgpcrInput new.1, new.2)

def removeOuterRefsTrees : List (CLogicalTree β) → ℕ → List (CLogicalTree β) × ℕ
  | [], next => ([], next)
  | t :: ts, next =>
    let new := t.removeSuperfluousOuterRefs next
    let rest := removeOuterRefsTrees ts new.2
    (new.1 :: rest.1, rest.2)

end

/-! ### Operators over rows that are constant on the dropped columns -/

variable {pds : List (CScalarTree β)}

section

variable (exec : CExecution β) {X : List (Row ℕ (CDatum β))} {env : Row ℕ (CDatum β)}
  {pcrs : Finset ℕ} {pos : COrderSpec} {r s : Row ℕ (CDatum β)} {pdrgpcr : List ℕ}

theorem posExcludeColumns_eq_self (h : ∀ poe ∈ pos, poe.colref ∉ pcrs) :
    COrderSpec.posExcludeColumns pos pcrs = pos :=
  filter_eq_self.mpr fun poe hpoe => decide_eq_true (h poe hpoe)

theorem compare_posExcludeColumns (h : ∀ c ∈ pcrs, r c = s c) :
    COrderSpec.compare exec (COrderSpec.posExcludeColumns pos pcrs) r s =
      COrderSpec.compare exec pos r s := by
  induction pos with
  | nil => rfl
  | cons poe pos ih =>
    rw [COrderSpec.posExcludeColumns,filter_cons]
    by_cases hmem : poe.colref ∈ pcrs
    · -- a dropped sort key compares a value with itself
      have hself : exec.compare poe.mdidSortOp poe.fNullsFirst (r poe.colref) (s poe.colref) =
          .eq := by rw [h _ hmem,exec.compare_self]
      rw [if_neg (by simpa using hmem)]
      simp only [COrderSpec.compare,foldr_cons,hself]
      exact ih
    · rw [if_pos (by simpa using hmem)]
      simp only [COrderSpec.compare,foldr_cons]
      exact congrArg _ ih

theorem arrangement_congr {α : Type*} {cmp cmp' : α → α → Ordering} {X : List α}
    (h : ∀ a ∈ X, ∀ b ∈ X, cmp a b = cmp' a b) :
    arrangement exec cmp X = arrangement exec cmp' X := by
  have hcmp : (fun i j => cmp (X.get i) (X.get j)) = fun i j => cmp' (X.get i) (X.get j) :=
    funext fun i => funext fun j => h _ (X.get_mem i) _ (X.get_mem j)
  rw [arrangement,arrangement,hcmp]

variable (hX : ∀ r ∈ X, ∀ c ∈ pcrs, r c = env c)

include hX

theorem constant_eq (hr : r ∈ X) (hs : s ∈ X) : ∀ c ∈ pcrs, r c = s c :=
  fun c hc => (hX r hr c hc).trans (hX s hs c hc).symm

theorem arrangement_posExcludeColumns (pos : COrderSpec) :
    arrangement exec (COrderSpec.compare exec (COrderSpec.posExcludeColumns pos pcrs)) X =
      arrangement exec (COrderSpec.compare exec pos) X :=
  arrangement_congr exec fun _ hr _ hs => compare_posExcludeColumns exec (constant_eq hX hr hs)

theorem limitRows_posExcludeColumns (pos : COrderSpec) (offset count : Option ℕ) :
    limitRows exec (COrderSpec.posExcludeColumns pos pcrs) offset count X =
      limitRows exec pos offset count X := by
  rw [limitRows,limitRows,arrangement_posExcludeColumns exec hX]

theorem windowRows_posExcludeColumns {pwf : CWindowFrame}
    (hpwf : pwf.fRangeOffset → ∀ poe ∈ pos, poe.colref ∉ pcrs)
    (leading trailing : Row ℕ (CDatum β) → Option (CDatum β)) (columns : List ℕ)
    (functions : List (CWindowFunc β)) (arguments : Row ℕ (CDatum β) → List (Option (CDatum β))) :
    windowRows exec (COrderSpec.posExcludeColumns pos pcrs) pwf leading trailing columns functions
      arguments X = windowRows exec pos pwf leading trailing columns functions arguments X := by
  by_cases hoff : pwf.fRangeOffset
  · rw [posExcludeColumns_eq_self (hpwf hoff)]
  · have hkeys (pos : COrderSpec) (Y : List (Row ℕ (CDatum β))) : frameKeys pos pwf Y = [] :=
      if_neg hoff
    have horder : ∀ sorted ⊆ X,
        (sorted.map fun r => sorted.map fun s =>
          COrderSpec.compare exec (COrderSpec.posExcludeColumns pos pcrs) r s) =
        sorted.map fun r => sorted.map fun s => COrderSpec.compare exec pos r s :=
      fun sorted hsub => map_congr_left fun r hr => map_congr_left fun s hs =>
        compare_posExcludeColumns exec (constant_eq hX (hsub hr) (hsub hs))
    unfold windowRows
    simp only [arrangement_posExcludeColumns exec hX,hkeys,
      horder _ fun r hr => (mem_arrangement exec).mp hr]

variable [DecidableEq β]

omit [DecidableEq β] in
theorem tuple_pdrgpcrExcludeColumns (hr : r ∈ X)
    (hs : s ∈ X) : r.tuple (pdrgpcrExcludeColumns pdrgpcr pcrs) =
      s.tuple (pdrgpcrExcludeColumns pdrgpcr pcrs) ↔ r.tuple pdrgpcr = s.tuple pdrgpcr := by
  rw [Row.tuple,Row.tuple,Row.tuple,Row.tuple,map_inj_left,map_inj_left]
  constructor
  · intro h c hc
    by_cases hmem : c ∈ pcrs
    · exact constant_eq hX hr hs c hmem
    · exact h c (mem_filter.mpr ⟨hc,decide_eq_true hmem⟩)
  · exact fun h c hc => h c (mem_of_mem_filter hc)

theorem evalAll_pdsExcludeColumns (hr : r ∈ X)
    (hs : s ∈ X) : evalAll exec (pdsExcludeColumns pds pcrs) r =
      evalAll exec (pdsExcludeColumns pds pcrs) s ↔ evalAll exec pds r = evalAll exec pds s := by
  simp only [evalAll_eq_map,map_inj_left]
  constructor
  · intro h e he
    by_cases hmem : ∃ c ∈ pcrs, e = .ident c
    · obtain ⟨c,hc,rfl⟩ := hmem
      rw [CScalarTree.eval,CScalarTree.eval]
      exact constant_eq hX hr hs c hc
    · refine h e (mem_filter.mpr ⟨he,?_⟩)
      cases e with
      | ident c => exact decide_eq_true fun hc => hmem ⟨c,hc,rfl⟩
      | _ => rfl
  · exact fun h e he => h e (mem_of_mem_filter he)

omit hX in
theorem representatives_eq_singleton {α : Type*} {same : α → α → Bool} {X : List α}
    (h : ∀ a ∈ X, ∀ b ∈ X, same a b = true) (hne : X ≠ []) :
    ∃ a ∈ X, representatives same X = [a] := by
  induction X with
  | nil => exact absurd rfl hne
  | cons a X ih =>
    cases X with
    | nil => exact ⟨a,mem_cons_self,rfl⟩
    | cons b X =>
      obtain ⟨rep,hrep,heq⟩ := ih (fun x hx y hy =>
        h x (mem_cons_of_mem _ hx) y (mem_cons_of_mem _ hy)) (cons_ne_nil _ _)
      refine ⟨rep,mem_cons_of_mem _ hrep,?_⟩
      have hsame := h a mem_cons_self rep (mem_cons_of_mem _ hrep)
      rw [representatives,heq,List.any_cons,hsame,Bool.true_or,if_pos rfl]

omit hX in
theorem groupRows_of_sameOn (hne : X ≠ []) (hcols : pdrgpcr ≠ [])
    (hsame : ∀ r ∈ X, ∀ s ∈ X, sameOn pdrgpcr r s = true) (columns : List ℕ)
    (functions : List (CAggFunc β)) (arguments : Row ℕ (CDatum β) → List (Option (CDatum β))) :
    ∃ rep ∈ X, groupRows env pdrgpcr columns functions arguments X =
      [(rep.scope pdrgpcr.toFinset env).assign columns
        (aggregateValues functions (X.map arguments))] := by
  obtain ⟨rep,hrep,heq⟩ := representatives_eq_singleton hsame hne
  refine ⟨rep,hrep,?_⟩
  rw [groupRows,if_neg hcols,heq,map_singleton,filter_eq_self.mpr (hsame rep hrep)]

theorem groupRows_of_constant (hne : X ≠ []) (hcols : pdrgpcr ≠ [])
    (hpcrs : ∀ c ∈ pdrgpcr, c ∈ pcrs) (columns : List ℕ) (functions : List (CAggFunc β))
    (arguments : Row ℕ (CDatum β) → List (Option (CDatum β))) :
    groupRows env pdrgpcr columns functions arguments X =
      [env.assign columns (aggregateValues functions (X.map arguments))] := by
  have hsame : ∀ r ∈ X, ∀ s ∈ X, sameOn pdrgpcr r s = true := fun r hr s hs =>
    decide_eq_true (map_congr_left fun c hc => constant_eq hX hr hs c (hpcrs c hc))
  obtain ⟨rep,hrep,heq⟩ := groupRows_of_sameOn hne hcols hsame columns functions arguments
  have hsc : rep.scope pdrgpcr.toFinset env = env := by
    funext c
    by_cases hc : c ∈ pdrgpcr.toFinset
    · rw [scope_of_mem _ hc]
      exact hX rep hrep c (hpcrs c (mem_toFinset.mp hc))
    · rw [scope_of_notMem _ hc]
  rw [heq,hsc]

theorem groupRows_pdrgpcrExcludeColumns {columns : List ℕ}
    (hemp : pdrgpcr ≠ [] → pdrgpcrExcludeColumns pdrgpcr pcrs = [] → X ≠ [])
    (functions : List (CAggFunc β)) (arguments : Row ℕ (CDatum β) → List (Option (CDatum β))) :
    groupRows env (pdrgpcrExcludeColumns pdrgpcr pcrs) columns functions arguments X =
      groupRows env pdrgpcr columns functions arguments X := by
  by_cases hcols : pdrgpcr = []
  · rw [hcols]; rfl
  by_cases hex : pdrgpcrExcludeColumns pdrgpcr pcrs = []
  · have hpcrs : ∀ c ∈ pdrgpcr, c ∈ pcrs := by
      simpa [pdrgpcrExcludeColumns,filter_eq_nil_iff] using hex
    rw [groupRows_of_constant hX (hemp hcols hex) hcols hpcrs,hex]
    rfl
  · have hsame : ∀ r ∈ X, ∀ s ∈ X, sameOn (pdrgpcrExcludeColumns pdrgpcr pcrs) r s =
        sameOn pdrgpcr r s :=
      fun r hr s hs => decide_eq_decide.mpr (tuple_pdrgpcrExcludeColumns hX hr hs)
    have hsc : ∀ rep ∈ X, rep.scope (pdrgpcrExcludeColumns pdrgpcr pcrs).toFinset env =
        rep.scope pdrgpcr.toFinset env := by
      intro rep hrep
      funext c
      by_cases hmem : c ∈ pcrs
      · -- the value of a dropped column comes from the outer row either way
        have hout (cols : Finset ℕ) : rep.scope cols env c = env c := by
          rw [Row.scope,hX rep hrep c hmem,ite_self]
        rw [hout,hout]
      · simp [Row.scope,pdrgpcrExcludeColumns,hmem]
    rw [groupRows,groupRows,if_neg hex,if_neg hcols,representatives_congr hsame]
    refine map_congr_left fun rep hmem => ?_
    have hrep := of_mem_representatives hmem
    rw [hsc rep hrep,filter_congr (hsame rep hrep)]

end

/-! ### The whole pass -/

theorem tuple_assign (r s : Row ℕ (CDatum β)) (columns : List ℕ)
    (values : List (Option (CDatum β))) :
    (r.assign columns values).tuple columns = (s.assign columns values).tuple columns :=
  map_congr_left fun c hc => by rw [Row.assign,Row.assign,if_pos hc,if_pos hc]

theorem assign_nil (r : Row ℕ (CDatum β)) (values : List (Option (CDatum β))) :
    r.assign [] values = r := funext fun _ => assign_of_notMem _ not_mem_nil

section

variable [DecidableEq β] (exec : CExecution β) {pdrgpcr columns : List ℕ}
  {functions : List (CAggFunc β)} {outerRefs : Finset ℕ}

/-- What the pass needs of an operator: a grouping by outer references only, with
aggregates, never has an empty input, and a frame with offsets is not ordered
by an outer reference. -/
def CLogicalTree.KeepsMeaning : CLogicalTree β → Prop
  | .gbAgg child pdrgpcr columns functions arguments =>
    pdrgpcr ≠ [] → columns ≠ [] → pdrgpcr.toFinset ⊆
      (CLogicalTree.gbAgg child pdrgpcr columns functions arguments).outerReferences →
      ∀ env, child.rows exec env ≠ []
  | .sequenceProject child pds pos pwf pexprLeading pexprTrailing columns functions arguments =>
    pwf.fRangeOffset → ∀ poe ∈ pos, poe.colref ∉
      (CLogicalTree.sequenceProject child pds pos pwf pexprLeading pexprTrailing columns
        functions arguments).outerReferences
  | _ => True

variable {exec} {C : Set ℕ} {child' child : CLogicalTree β}
  {arguments' arguments : List (CScalarTree β)}

namespace CLogicalTree.Interchangeable

variable (hchild : child'.Interchangeable exec C child)

include hchild

theorem gbAgg_exclude (hout : outerRefs =
      (CLogicalTree.gbAgg child pdrgpcr columns functions arguments).outerReferences)
    (hkp : (CLogicalTree.gbAgg child pdrgpcr columns functions arguments).KeepsMeaning exec)
    (hsome : outerRefs = ∅ ∨ 0 < columns.length ∨
      0 < (pdrgpcrExcludeColumns pdrgpcr outerRefs).length) (hcols : ∀ c ∈ pdrgpcr, c ∈ C)
    (hargs : List.Forall₂ (CScalarTree.Interchangeable exec C) arguments' arguments) :
    Interchangeable exec C
      (.gbAgg child' (pdrgpcrExcludeColumns pdrgpcr outerRefs) columns functions arguments')
      (.gbAgg child pdrgpcr columns functions arguments) := by
  have hnm : ∀ c ∈ outerRefs, c ∉ child.outputColumns := by
    rw [hout]
    exact fun c hc => (Finset.mem_sdiff.mp hc).2
  refine (gbAgg hchild (fun c hc => hcols c (mem_of_mem_filter hc)) hargs).of_rows_eq ?_ ?_
  · intro c _
    by_cases hmem : c ∈ outerRefs
    · simp [CLogicalTree.outputColumns,hnm c hmem]
    · simp [CLogicalTree.outputColumns,hmem]
  · intro env
    rw [CLogicalTree.rows,CLogicalTree.rows]
    refine groupRows_pdrgpcrExcludeColumns
      (fun r hr c hc => child.rows_outside exec env r hr c (hnm c hc)) ?_ _ _
    intro hne hex
    -- all grouping columns are dropped, so there is an aggregate
    have hall : ∀ c ∈ pdrgpcr, c ∈ outerRefs := by
      simpa [pdrgpcrExcludeColumns,filter_eq_nil_iff] using hex
    have hcolumns : columns ≠ [] := by
      rintro rfl
      rcases hsome with hemp | hlt | hlt
      · obtain ⟨c,hc⟩ := exists_mem_of_ne_nil _ hne
        exact Finset.notMem_empty c (hemp ▸ hall c hc)
      · exact Nat.lt_irrefl 0 hlt
      · rw [hex] at hlt
        exact Nat.lt_irrefl 0 hlt
    exact hkp hne hcolumns (fun c hc => hout ▸ hall c (mem_toFinset.mp hc)) env

theorem gbAgg_echo {newGroupingCols : List ℕ} (hout : ∀ c ∈ pdrgpcr, c ∉ child.outputColumns)
    (hlen : newGroupingCols.length = pdrgpcr.length) (hnew : ∀ c ∈ newGroupingCols, c ∉ C)
    (hcols : ∀ c ∈ pdrgpcr, c ∈ C) :
    Interchangeable exec C
      (.gbAgg (.project child' newGroupingCols (pdrgpcr.map .ident)) newGroupingCols [] functions
        arguments')
      (.gbAgg child pdrgpcr [] functions arguments) where
  outputColumns c hc := by
    have hnm : c ∉ newGroupingCols := fun h => hnew c h hc
    have hnm' : c ∈ pdrgpcr → c ∉ child.outputColumns := hout c
    simpa [CLogicalTree.outputColumns,hnm] using hnm'
  rows env' env henv := by
    have hX := hchild.rows env' env henv
    have hecho : ∀ r' ∈ child'.rows exec env',
        evalAll exec (pdrgpcr.map .ident) r' = Row.tuple pdrgpcr env' := by
      intro r' hr'
      rw [evalAll_eq_map,map_map]
      refine map_congr_left fun c hc => ?_
      rw [Function.comp_apply,CScalarTree.eval]
      exact child'.rows_outside exec env' r' hr' c fun h =>
        hout c hc ((hchild.outputColumns c (hcols c hc)).mp h)
    rw [CLogicalTree.rows,CLogicalTree.rows,CLogicalTree.rows,
      map_congr_left fun r' hr' => by rw [hecho r' hr']]
    by_cases hnil : pdrgpcr = []
    · have hnil' : newGroupingCols = [] := length_eq_zero_iff.mp (by rw [hlen,hnil]; rfl)
      rw [groupRows,groupRows,if_pos hnil',if_pos hnil,assign_nil,assign_nil]
      exact .cons henv .nil
    have hnil' : newGroupingCols ≠ [] := fun h =>
      hnil (length_eq_zero_iff.mp (by rw [← hlen,h]; rfl))
    by_cases hemp : child.rows exec env = []
    · have hemp' : child'.rows exec env' = [] :=
        List.isEmpty_iff.mp ((isEmpty_eq_of_aligned hX).trans (List.isEmpty_iff.mpr hemp))
      rw [hemp,hemp',groupRows,groupRows,if_neg hnil,if_neg hnil']
      exact .nil
    · have hemp' : child'.rows exec env' ≠ [] := fun h =>
        hemp (List.isEmpty_iff.mp ((isEmpty_eq_of_aligned hX).symm.trans (List.isEmpty_iff.mpr h)))
      have hsame : ∀ r ∈ (child'.rows exec env').map fun r =>
            r.assign newGroupingCols (Row.tuple pdrgpcr env'),
          ∀ s ∈ (child'.rows exec env').map fun r =>
            r.assign newGroupingCols (Row.tuple pdrgpcr env'), sameOn newGroupingCols r s = true := by
        simp only [mem_map,forall_exists_index,and_imp,forall_apply_eq_imp_iff₂]
        exact fun r _ s _ => decide_eq_true (tuple_assign r s _ _)
      obtain ⟨rep,_,heq⟩ := @groupRows_of_sameOn _ _ env' _ _
        (fun h => hemp' (map_eq_nil_iff.mp h)) hnil' hsame [] functions
        fun r => evalAll exec arguments' r
      have hcst : ∀ r ∈ child.rows exec env, ∀ c ∈ pdrgpcr.toFinset, r c = env c :=
        fun r hr c hc => child.rows_outside exec env r hr c (hout c (mem_toFinset.mp hc))
      rw [heq,groupRows_of_constant hcst hemp hnil fun c hc => mem_toFinset.mpr hc,
        assign_nil,assign_nil]
      refine .cons (fun c hc => ?_) .nil
      rw [scope_of_notMem _ fun h => hnew c (mem_toFinset.mp h) hc]
      exact henv hc

theorem sequenceProject_exclude {pos : COrderSpec} {pwf : CWindowFrame}
    {pexprLeading pexprTrailing : CScalarTree β} {functions : List (CWindowFunc β)}
    (hout : ∀ c ∈ outerRefs, c ∉ child.outputColumns)
    (hkp : pwf.fRangeOffset → ∀ poe ∈ pos, poe.colref ∉ outerRefs)
    (hpos : ∀ poe ∈ pos, poe.colref ∈ C)
    (hpds : List.Forall₂ (CScalarTree.Interchangeable exec C) pds pds)
    (hlea : pexprLeading.Interchangeable exec C pexprLeading)
    (htra : pexprTrailing.Interchangeable exec C pexprTrailing)
    (hargs : List.Forall₂ (CScalarTree.Interchangeable exec C) arguments' arguments) :
    Interchangeable exec C
      (.sequenceProject child' (pdsExcludeColumns pds outerRefs)
        (COrderSpec.posExcludeColumns pos outerRefs) pwf pexprLeading pexprTrailing columns
        functions arguments')
      (.sequenceProject child pds pos pwf pexprLeading pexprTrailing columns functions
        arguments) := by
  have hpds' : ∀ e ∈ pdsExcludeColumns pds outerRefs, e.Interchangeable exec C e :=
    fun e he => forall₂_same.mp hpds e (mem_of_mem_filter he)
  have hpos' : ∀ poe ∈ COrderSpec.posExcludeColumns pos outerRefs, poe.colref ∈ C :=
    fun poe hpoe => hpos poe (mem_of_mem_filter hpoe)
  refine (sequenceProject hchild hpos' (forall₂_same.mpr hpds') hlea htra hargs).of_rows_eq
    (fun _ _ => Iff.rfl) fun env => ?_
  have hcst : ∀ r ∈ child.rows exec env, ∀ c ∈ outerRefs, r c = env c :=
    fun r hr c hc => child.rows_outside exec env r hr c (hout c hc)
  have hsame : ∀ r ∈ child.rows exec env, ∀ s ∈ child.rows exec env,
      decide (evalAll exec (pdsExcludeColumns pds outerRefs) r =
        evalAll exec (pdsExcludeColumns pds outerRefs) s) =
      decide (evalAll exec pds r = evalAll exec pds s) :=
    fun r hr s hs => decide_eq_decide.mpr (evalAll_pdsExcludeColumns exec hcst hr hs)
  rw [CLogicalTree.rows,CLogicalTree.rows,representatives_congr hsame]
  refine flatMap_congr fun rep hrep => ?_
  rw [filter_congr (hsame rep (of_mem_representatives hrep))]
  exact windowRows_posExcludeColumns exec (fun r hr => hcst r (mem_of_mem_filter hr)) hkp _ _ _ _ _

theorem limit_exclude {pos : COrderSpec}
    {pexprOffset' pexprOffset pexprCount' pexprCount : CScalarTree β} {fHasCount : Bool}
    (hout : ∀ c ∈ outerRefs, c ∉ child.outputColumns) (hpos : ∀ poe ∈ pos, poe.colref ∈ C)
    (hoff : pexprOffset'.Interchangeable exec C pexprOffset)
    (hcnt : pexprCount'.Interchangeable exec C pexprCount) :
    Interchangeable exec C
      (.limit child' (COrderSpec.posExcludeColumns pos outerRefs) pexprOffset' fHasCount
        pexprCount')
      (.limit child pos pexprOffset fHasCount pexprCount) := by
  refine (limit hchild (fun poe hpoe => hpos poe (mem_of_mem_filter hpoe)) hoff
    hcnt).of_rows_eq (fun _ _ => Iff.rfl) fun env => ?_
  rw [CLogicalTree.rows,CLogicalTree.rows]
  exact limitRows_posExcludeColumns exec
    (fun r hr c hc => child.rows_outside exec env r hr c (hout c hc)) _ _ _

end CLogicalTree.Interchangeable

variable {n : ℕ}

theorem notMem_Iio_of_mem_range' {m k : ℕ} (hm : n ≤ m) : ∀ c ∈ range' m k, c ∉ Set.Iio n := by
  intro c hc hlt
  obtain ⟨i,_,rfl⟩ := mem_range'.mp hc
  exact absurd (Set.mem_Iio.mp hlt) (by omega)

def CLogicalTree.FrameDefined : CLogicalTree β → Prop
  | .sequenceProject _ _ pos pwf _ _ _ _ _ => pwf.fRangeOffset → pos.length = 1
  | _ => True

/-- The columns are no new ones, the frame is defined, and the pass keeps the meaning. -/
structure CLogicalTree.Ready (exec : CExecution β) (n : ℕ) (t : CLogicalTree β) : Prop where
  columns : ∀ c ∈ t.localColumns, c ∈ Set.Iio n
  frame : t.FrameDefined
  keeps : t.KeepsMeaning exec

abbrev CScalarTree.Ready (n : ℕ) (e : CScalarTree β) : Prop := ∀ c ∈ e.localColumns, c ∈ Set.Iio n

theorem CScalarTree.Everywhere.interchangeable {e : CScalarTree β}
    (h : e.Everywhere (Ready n) (CLogicalTree.Ready exec n)) :
    e.Interchangeable exec (Set.Iio n) e :=
  e.interchangeable
    (CTree.Everywhere.imp (x := .inl e) (fun _ h => h.root) (fun _ h => h.root.columns) h)

theorem CScalarTree.Everywhere.framed {e : CScalarTree β}
    (h : e.Everywhere (Ready n) (CLogicalTree.Ready exec n)) :
    e.Everywhere (fun _ => True) CLogicalTree.FrameDefined :=
  CTree.Everywhere.imp (x := .inl e) (fun _ _ => trivial) (fun _ h => h.root.frame) h

/-- What the pass makes of an expression from the next column on. -/
structure Rewritten {α : Type*} (Framed Same : α → Prop) (m : ℕ) (new : α × ℕ) : Prop where
  le : m ≤ new.2
  framed : Framed new.1
  same : Same new.1

mutual

/-- The rewritten expression is interchangeable with the original one, as long
as the new columns are none of the original ones. -/
theorem CScalarTree.rewritten : (e : CScalarTree β) →
    e.Everywhere (CScalarTree.Ready n) (CLogicalTree.Ready exec n) → ∀ m, n ≤ m →
      Rewritten (·.Everywhere (fun _ => True) CLogicalTree.FrameDefined)
        (·.Interchangeable exec (Set.Iio n) e) m (e.removeSuperfluousOuterRefs m)
  | .ident colref, h, _, _ => ⟨le_rfl,trivial,.ident (h colref mem_cons_self)⟩
  | .const datum, _, _, _ => ⟨le_rfl,trivial,.const datum⟩
  | .node _ children, h, m, hm =>
    have hchs := rewritten_all children h.2 m hm
    ⟨hchs.le,⟨trivial,hchs.framed⟩,.node hchs.same⟩
  | .subquery colref inner, h, m, hm =>
    have hinn := inner.rewritten h.2 m hm
    ⟨hinn.le,⟨trivial,hinn.framed⟩,.subquery (h.1 colref mem_cons_self) hinn.same⟩
  | .existential _ inner, h, m, hm =>
    have hinn := inner.rewritten h.2 m hm
    ⟨hinn.le,⟨trivial,hinn.framed⟩,.existential hinn.same⟩
  | .quantified _ _ colref inner scalar, h, m, hm =>
    have hinn := inner.rewritten h.2.1 m hm
    have hsc := scalar.rewritten h.2.2 _ (hm.trans hinn.le)
    ⟨hinn.le.trans hsc.le,⟨trivial,hinn.framed,hsc.framed⟩,
      .quantified (h.1 colref mem_cons_self) hinn.same hsc.same⟩

theorem rewritten_all : (es : List (CScalarTree β)) →
    everywhereAll (CScalarTree.Ready n) (CLogicalTree.Ready exec n) es → ∀ m, n ≤ m →
      Rewritten (everywhereAll (fun _ => True) CLogicalTree.FrameDefined)
        (List.Forall₂ (CScalarTree.Interchangeable exec (Set.Iio n)) · es) m
        (removeOuterRefsAll es m)
  | [], _, _, _ => ⟨le_rfl,trivial,.nil⟩
  | e :: es, h, m, hm =>
    have he := e.rewritten h.1 m hm
    have hes := rewritten_all es h.2 _ (hm.trans he.le)
    ⟨he.le.trans hes.le,⟨he.framed,hes.framed⟩,.cons he.same hes.same⟩

theorem CLogicalTree.rewritten : (t : CLogicalTree β) →
    t.Everywhere (CScalarTree.Ready n) (CLogicalTree.Ready exec n) → ∀ m, n ≤ m →
      Rewritten (·.Everywhere (fun _ => True) CLogicalTree.FrameDefined)
        (·.Interchangeable exec (Set.Iio n) t) m (t.removeSuperfluousOuterRefs m)
  | .get _ _, _, _, _ => ⟨le_rfl,trivial,.get⟩
  | .select child predicate, h, m, hm =>
    have hch := child.rewritten h.2.1 m hm
    have hp := predicate.rewritten h.2.2 _ (hm.trans hch.le)
    ⟨hch.le.trans hp.le,⟨trivial,hch.framed,hp.framed⟩,.select hch.same hp.same⟩
  | .project child _ values, h, m, hm =>
    have hch := child.rewritten h.2.1 m hm
    have hvs := rewritten_all values h.2.2 _ (hm.trans hch.le)
    ⟨hch.le.trans hvs.le,⟨trivial,hch.framed,hvs.framed⟩,.project hch.same hvs.same⟩
  | .gbAgg child pdrgpcr columns functions arguments, h, m, hm => by
    have hcols : ∀ c ∈ pdrgpcr, c ∈ Set.Iio n :=
      fun c hc => h.1.columns c (mem_append_left _ hc)
    rw [CLogicalTree.removeSuperfluousOuterRefs]
    simp only
    split_ifs with hsome
    · have hch := child.rewritten h.2.1 m hm
      have hargs := rewritten_all arguments h.2.2 _ (hm.trans hch.le)
      exact ⟨hch.le.trans hargs.le,⟨trivial,hch.framed,hargs.framed⟩,
        .gbAgg_exclude hch.same rfl h.1.keeps hsome hcols hargs.same⟩
    · have hm' := hm.trans (Nat.le_add_right m pdrgpcr.length)
      have hch := child.rewritten h.2.1 _ hm'
      have hargs := rewritten_all arguments h.2.2 _ (hm'.trans hch.le)
      obtain ⟨_,hcolumns,hex⟩ := not_or.mp hsome |>.imp_right not_or.mp
      obtain rfl : columns = [] := length_eq_zero_iff.mp (by omega)
      have hnil := length_eq_zero_iff.mp (Nat.eq_zero_of_not_pos hex)
      have hout : ∀ c ∈ pdrgpcr, c ∉ child.outputColumns := by
        intro c hc
        have hmem : c ∈ (CLogicalTree.gbAgg child pdrgpcr [] functions
            arguments).outerReferences := by
          simpa using filter_eq_nil_iff.mp hnil c hc
        exact (Finset.mem_sdiff.mp hmem).2
      exact ⟨(Nat.le_add_right m _).trans (hch.le.trans hargs.le),⟨trivial,⟨trivial,hch.framed,
          everywhereAll_iff_forall.mpr (forall_mem_map.mpr fun _ _ => trivial)⟩,hargs.framed⟩,
        .gbAgg_echo hch.same hout length_range' (notMem_Iio_of_mem_range' hm) hcols⟩
  | .sequenceProject child pds pos pwf pexprLeading pexprTrailing columns functions arguments,
      h, m, hm =>
      have hch := child.rewritten h.2.1 m hm
      have hargs := rewritten_all arguments h.2.2.2.2.2 _ (hm.trans hch.le)
      have hpds := everywhereAll_iff_forall.mp h.2.2.1
      ⟨hch.le.trans hargs.le,⟨fun hoff => (congrArg List.length
            (posExcludeColumns_eq_self (h.1.keeps hoff))).trans (h.1.frame hoff),
          hch.framed,everywhereAll_iff_forall.mpr fun e he =>
            (hpds e (mem_of_mem_filter he)).framed,
          h.2.2.2.1.framed,h.2.2.2.2.1.framed,hargs.framed⟩,
        .sequenceProject_exclude hch.same (fun _ hc => (Finset.mem_sdiff.mp hc).2) h.1.keeps
          (fun _ hpoe => h.1.columns _ (mem_append_left _ (mem_map_of_mem hpoe)))
          (forall₂_same.mpr fun e he => (hpds e he).interchangeable)
          h.2.2.2.1.interchangeable h.2.2.2.2.1.interchangeable hargs.same⟩
  | .limit child pos pexprOffset _ pexprCount, h, m, hm =>
    have hch := child.rewritten h.2.1 m hm
    have hoff := pexprOffset.rewritten h.2.2.1 _ (hm.trans hch.le)
    have hle := hch.le.trans hoff.le
    have hcnt := pexprCount.rewritten h.2.2.2 _ (hm.trans hle)
    ⟨hle.trans hcnt.le,⟨trivial,hch.framed,hoff.framed,hcnt.framed⟩,
      .limit_exclude hch.same (fun _ hc => (Finset.mem_sdiff.mp hc).2)
        (fun _ hpoe => h.1.columns _ (mem_map_of_mem hpoe)) hoff.same hcnt.same⟩
  | .join _ left right predicate, h, m, hm =>
    have hleft := left.rewritten h.2.1 m hm
    have hr := right.rewritten h.2.2.1 _ (hm.trans hleft.le)
    have hle := hleft.le.trans hr.le
    have hp := predicate.rewritten h.2.2.2 _ (hm.trans hle)
    ⟨hle.trans hp.le,⟨trivial,hleft.framed,hr.framed,hp.framed⟩,.join hleft.same hr.same hp.same⟩
  | .setOp _ _ _ children, h, m, hm =>
    have hchs := rewritten_trees children h.2 m hm
    ⟨hchs.le,⟨trivial,hchs.framed⟩,.setOp (fun input hin c hc =>
      h.1.columns c (mem_append_right _ (mem_flatten.mpr ⟨input,hin,hc⟩))) hchs.same⟩

theorem rewritten_trees : (ts : List (CLogicalTree β)) →
    everywhereTrees (CScalarTree.Ready n) (CLogicalTree.Ready exec n) ts → ∀ m, n ≤ m →
      Rewritten (everywhereTrees (fun _ => True) CLogicalTree.FrameDefined)
        (List.Forall₂ (CLogicalTree.Interchangeable exec (Set.Iio n)) · ts) m
        (removeOuterRefsTrees ts m)
  | [], _, _, _ => ⟨le_rfl,trivial,.nil⟩
  | t :: ts, h, m, hm =>
    have ht := t.rewritten h.1 m hm
    have hts := rewritten_trees ts h.2 _ (hm.trans ht.le)
    ⟨ht.le.trans hts.le,⟨ht.framed,hts.framed⟩,.cons ht.same hts.same⟩

end

/-! ### When the pass preserves an expression -/

variable (exec)

/-- The first expression denotes rows, and below every outer row they are those of
the second one, in the same order, at all columns that are not new. -/
structure CLogicalTree.DenotesRowsOf (n : ℕ) (t' t : CLogicalTree β) : Prop where
  frames : t'.Everywhere (fun _ => True) CLogicalTree.FrameDefined
  rows : ∀ env, Alike (Set.Iio n) (t'.rows exec env) (t.rows exec env)

variable {exec}

theorem CLogicalTree.DenotesRowsOf.keepsMeaning {t : CLogicalTree β} (hframe : t.FrameDefined)
    (h : (t.removeSuperfluousOuterRefs n).1.DenotesRowsOf exec n t) : t.KeepsMeaning exec := by
  cases t with
  | gbAgg child pdrgpcr columns functions arguments =>
    intro hne hcols hsub env hemp
    -- the grouping has no row, what is left of it has one
    have hex : pdrgpcrExcludeColumns pdrgpcr (CLogicalTree.gbAgg child pdrgpcr columns
        functions arguments).outerReferences = [] :=
      filter_eq_nil_iff.mpr fun c hc => by simpa using hsub (mem_toFinset.mpr hc)
    have hlen := (h.rows env).length_eq
    rw [CLogicalTree.removeSuperfluousOuterRefs] at hlen
    simp only at hlen
    rw [if_pos (.inr (.inl (length_pos_iff.mpr hcols))),hex,CLogicalTree.rows,
      CLogicalTree.rows,hemp,groupRows,groupRows,if_pos rfl,if_neg hne] at hlen
    exact absurd hlen (by simp [representatives])
  | sequenceProject child pds pos pwf pexprLeading pexprTrailing columns functions arguments =>
    intro hoff
    have hlen := (h.frames.root hoff).trans (hframe hoff).symm
    exact fun poe hpoe => of_decide_eq_true (length_filter_eq_length_iff.mp hlen poe hpoe)
  | _ => trivial

/-- The pass preserves an expression and all expressions in it exactly when no
grouping by outer references with aggregates has an empty input, and no frame
with offsets is ordered by an outer reference. -/
theorem CLogicalTree.removeSuperfluousOuterRefs_denotesRowsOf_iff (t : CLogicalTree β)
    (hcolumns : t.Within (Set.Iio n))
    (hframes : t.Everywhere (fun _ => True) CLogicalTree.FrameDefined) :
    t.Everywhere (fun _ => True)
        (fun s => (s.removeSuperfluousOuterRefs n).1.DenotesRowsOf exec n s) ↔
      t.Everywhere (fun _ => True) (CLogicalTree.KeepsMeaning exec) := by
  constructor
  · intro h
    have hboth := Everywhere.and (x := .inr t) hframes h
    exact hboth.imp (fun _ _ => trivial) fun s hs => hs.root.2.keepsMeaning hs.root.1
  · intro h
    have hall := Everywhere.and (x := .inr t) hcolumns (Everywhere.and (x := .inr t) hframes h)
    refine hall.imp (fun _ _ => trivial) fun s hs => ?_
    have hrd : s.Everywhere (CScalarTree.Ready n) (CLogicalTree.Ready exec n) :=
      Everywhere.imp (x := .inr s) (fun _ h => h.root.1)
        (fun _ h => ⟨h.root.1,h.root.2.1,h.root.2.2⟩) hs
    have hnew := s.rewritten hrd n le_rfl
    exact ⟨hnew.framed,fun env => hnew.same.rows env env fun _ _ => rfl⟩

end

/-! ### Counts by an outer reference -/

namespace CountByOuterReference

/-- `select count(s.j) from s group by t.b`, with `t.b` as column 0 and `s.j` as column 1. -/
def counted : CLogicalTree ℕ :=
  .gbAgg (.get 0 [1]) [0] [2] [fun values => some (.int (values.filter Option.isSome).length)]
    [.ident 1]

def database (rows : List (List (Option (CDatum ℕ)))) : CExecution ℕ :=
  .stable (fun _ => rows) (fun _ _ _ _ => .eq) fun _ _ _ => rfl

theorem counted_within : counted.Within (Set.Iio 3) := by
  simp [counted,CLogicalTree.Within,CLogicalTree.Everywhere,CLogicalTree.localColumns,
    everywhereAll,CScalarTree.Everywhere,CScalarTree.localColumns]

theorem counted_frameDefined : counted.Everywhere (fun _ => True) CLogicalTree.FrameDefined :=
  ⟨trivial,trivial,trivial,trivial⟩

/-- For an empty table the query has no row, and the rewritten one counts zero. -/
theorem counted_of_empty :
    counted.Within (Set.Iio 3) ∧
      counted.Everywhere (fun _ => True) CLogicalTree.FrameDefined ∧
      counted.rows (database []) Row.null = [] ∧
      ((counted.removeSuperfluousOuterRefs 3).1.rows (database []) Row.null).map (fun r => r 2) =
        [some (.int 0)] := by
  refine ⟨counted_within,counted_frameDefined,?_,?_⟩ <;> decide +kernel

theorem counted_of_row :
    counted.Everywhere (fun _ => True) (fun s =>
      (s.removeSuperfluousOuterRefs 3).1.DenotesRowsOf (database [[some (.int 5)]]) 3 s) := by
  refine (counted.removeSuperfluousOuterRefs_denotesRowsOf_iff counted_within
    counted_frameDefined).mpr ⟨?_,trivial,trivial,trivial⟩
  intro _ _ _ env
  simp [CLogicalTree.rows,database,CExecution.stable]

end CountByOuterReference

end PgOrca.Preprocess
