import PgOrca.Subquery.Counting

/-!
# The value of a subquery unnested as a value

The residual expression has the value of the subquery for every outer row, except that the test for
a NULL operand answers NULL for an empty subquery as well.
-/

namespace PgOrca.Unnesting

open Finset Row
open CValueExpr (quantifiedCmp usedColumns eval eval_node conjuncts quantified eval_ident
  eval_constBool ident isNull isNotNull isNotFalse eval_const)

universe u

variable {β : Type u} [DecidableEq β] (t : CRelExpr β)

namespace CRelExpr

theorem card_rows_belowProjects (env : Row ℕ (CDatum β)) :
    (t.belowProjects.rows env).card = (t.rows env).card := by
  fun_induction belowProjects t with
  | case1 child columns values ih => rw [ih,rows,Multiset.card_map]
  | case2 => rfl

omit [DecidableEq β] in
theorem outputColumns_belowProjects : t.belowProjects.outputColumns ⊆ t.outputColumns := by
  fun_induction belowProjects t with
  | case1 child columns values ih => exact ih.trans subset_union_left
  | case2 => rfl

theorem card_rows_existentialInput (next : ℕ) (env : Row ℕ (CDatum β)) :
    ((t.existentialInput next).1.rows env).card = (t.rows env).card := by
  rw [existentialInput]
  split
  · rw [rows_addProjection,Multiset.card_map,card_rows_belowProjects]
  · exact card_rows_belowProjects t env

end CRelExpr

/-- The outer columns that the residual expression reads are still there. -/
def CUnnested.Readable (t : CUnnested β) (outer : CRelExpr β) : Prop :=
  ∀ c ∈ t.residual.usedColumns, c ∈ outer.outputColumns → c ∈ t.newOuter.outputColumns

variable (values : List Bool) {t : CUnnested β}

namespace CSubqueryHandler

section

variable {ctx : CSubqueryContext β} {outer subquery inner : CRelExpr β} {op : CScalarCmp β}
  {operand scalar : CValueExpr β} {columns : List ℕ} {column next : ℕ}
  {fOuterRefsUnderInner value : Bool} {env E : Row ℕ (CDatum β)}

/-- What grouping above the apply relies on: a key, if one is derived, is one. -/
def TrueKey (ctx : CSubqueryContext β) (outer : CRelExpr β) : Prop :=
  ∀ key, ctx.groupingKey outer = some key → key ≠ [] ∧ key.toFinset ⊆ outer.outputColumns ∧
    ∀ env, ((outer.rows env).map (Row.tuple key)).Nodup

omit [DecidableEq β] in
theorem eq_of_outerGrpCols (h : outerGrpCols ctx outer = some columns) :
    ∃ key, ctx.groupingKey outer = some key ∧ columns = groupingKeyColumns ctx outer key := by
  rw [outerGrpCols] at h
  split at h
  · cases h
  · rename_i key hkey
    split at h
    · exact ⟨key,hkey,(Option.some.inj h).symm⟩
    · cases h

omit [DecidableEq β] in
theorem mem_groupingKeyColumns {key : List ℕ} {c : ℕ} :
    c ∈ groupingKeyColumns ctx outer key ↔
      c ∈ outer.outputColumns ∧ (ctx.used c && !ctx.isSystemCol c) = true ∨ c ∈ key := by
  rw [groupingKeyColumns,Finset.mem_sort,Finset.mem_union,Finset.mem_filter,List.mem_toFinset]

section

variable (hkey : TrueKey ctx outer) (h : outerGrpCols ctx outer = some columns)

include hkey h

theorem outerGrpCols_ne_nil : columns ≠ [] := by
  obtain ⟨key,hk,rfl⟩ := eq_of_outerGrpCols h
  obtain ⟨c,hc⟩ := List.exists_mem_of_ne_nil key (hkey key hk).1
  exact List.ne_nil_of_mem (mem_groupingKeyColumns.mpr (.inr hc))

theorem outerGrpCols_subset : columns.toFinset ⊆ outer.outputColumns := by
  obtain ⟨key,hk,rfl⟩ := eq_of_outerGrpCols h
  intro c hc
  rcases mem_groupingKeyColumns.mp (List.mem_toFinset.mp hc) with hc | hc
  · exact hc.1
  · exact (hkey key hk).2.1 (List.mem_toFinset.mpr hc)

theorem nodup_outerGrpCols (env : Row ℕ (CDatum β)) :
    ((outer.rows env).map (tuple columns)).Nodup := by
  obtain ⟨key,hk,rfl⟩ := eq_of_outerGrpCols h
  have hnd := (hkey key hk).2.2 env
  refine Multiset.Nodup.map_on (fun x hx y hy hxy => ?_) hnd.of_map
  refine Multiset.inj_on_of_nodup_map hnd x hx y hy (tuple_eq_iff.mpr fun c hc => ?_)
  exact tuple_eq_iff.mp hxy c (mem_groupingKeyColumns.mpr (.inr hc))

end

def witnessValue (inner : CRelExpr β) (E : Row ℕ (CDatum β)) : Option (CDatum β) :=
  if (inner.rows E).card = 0 then none else some (.bool true)

def witnessed (outer inner : CRelExpr β) (next : ℕ) (env x : Row ℕ (CDatum β)) : Row ℕ (CDatum β) :=
  x.assign [next] [witnessValue inner (x.scope outer.outputColumns env)]

theorem witnessed_of_ne {c : ℕ} (hc : c ≠ next) (x : Row ℕ (CDatum β)) :
    witnessed outer inner next env x c = x c := by
  rw [witnessed,assign_singleton,if_neg hc]

theorem witnessed_next (x : Row ℕ (CDatum β)) : witnessed outer inner next env x next
    = witnessValue inner (x.scope outer.outputColumns env) := by
  rw [witnessed,assign_singleton,if_pos rfl]

theorem extension_witness {w : Row ℕ (CDatum β)}
    (hw : w ∈ LeftKind.outer.extensions ((inner.addProjection next (.constBool true)).rows E)) :
    w next = witnessValue inner E ∧ ∀ c ∉ inner.outputColumns, c ≠ next → w c = none := by
  rw [CRelExpr.rows_addProjection,LeftKind.extensions,Multiset.card_map] at hw
  rw [witnessValue]
  split at hw
  · rw [Multiset.mem_singleton.mp hw,if_pos (by assumption)]
    exact ⟨rfl,fun c _ _ => rfl⟩
  · obtain ⟨y,hy,rfl⟩ := Multiset.mem_map.mp hw
    rw [assign_singleton,if_pos rfl,if_neg (by assumption),eval_constBool]
    refine ⟨rfl,fun c hc hne => ?_⟩
    rw [assign_singleton,if_neg hne]
    exact inner.over_rows _ y hy c hc

omit [DecidableEq β] in
theorem outputColumns_existentialGroupBy (hsub : columns.toFinset ⊆ outer.outputColumns) :
    (existentialGroupBy (outerApply outer (inner.addProjection next (.constBool true))) columns
      next).outputColumns = columns.toFinset ∪ {next} := by
  rw [existentialGroupBy,CRelExpr.outputColumns,CRelExpr.outputColumns_outerApply,
    CRelExpr.columns_addProjection,List.toFinset_append,List.map_nil,List.toFinset_nil,
    Finset.union_empty,List.toFinset_cons,List.toFinset_nil,insert_empty_eq]
  exact inter_eq_left.mpr (union_subset_union hsub subset_union_right)

theorem exists_rows_existential (h : Placed outer inner ∅ next)
    (hsub : columns.toFinset ⊆ outer.outputColumns)
    (hkey : ((outer.rows env).map (tuple columns)).Nodup) :
    ∃ f : Row ℕ (CDatum β) → Row ℕ (CDatum β),
      (existentialGroupBy (outerApply outer (inner.addProjection next (.constBool true))) columns
        next).rows env = (outer.rows env).map f ∧
      ∀ x ∈ outer.rows env, (∀ c ∈ columns, f x c = x c) ∧
        f x next = witnessValue inner (x.scope outer.outputColumns env) := by
  have hcol {c : ℕ} (hc : c ∈ columns ++ [next]) : c ∈ outer.outputColumns ∨ c = next := by
    rcases List.mem_append.mp hc with hc | hc
    · exact .inl (hsub (List.mem_toFinset.mpr hc))
    · exact .inr (List.mem_singleton.mp hc)
  have hne {c : ℕ} (hc : c ∈ columns) : c ≠ next :=
    (h.outer_lt c (hsub (List.mem_toFinset.mpr hc))).ne
  have hout := CRelExpr.outputColumns_outerApply outer (inner.addProjection next (.constBool true))
  rw [CRelExpr.columns_addProjection] at hout
  have hnd : ((outer.rows env).map fun x =>
      (witnessed outer inner next env x).tuple (columns ++ [next])).Nodup := by
    refine Multiset.Nodup.map_on (fun x hx y hy hxy => ?_) hkey.of_map
    refine Multiset.inj_on_of_nodup_map hkey x hx y hy (tuple_eq_iff.mpr fun c hc => ?_)
    have hc' := tuple_eq_iff.mp hxy c (List.mem_append_left _ hc)
    rwa [witnessed_of_ne (hne hc),witnessed_of_ne (hne hc)] at hc'
  have hrows := CRelExpr.rows_gbAgg_bind (CRelExpr.rows_outerApply outer _ env)
    (List.append_ne_nil_of_right_ne_nil columns (List.cons_ne_nil next []))
    (fun x _ => by
      rw [ne_eq,Multiset.map_eq_zero,LeftKind.extensions]
      split
      · exact Multiset.singleton_ne_zero _
      · exact fun hzero => absurd (congrArg Multiset.card hzero) (by assumption))
    (fun x hx r hr => by
      obtain ⟨w,hw,rfl⟩ := Multiset.mem_map.mp hr
      obtain ⟨hnext,hnone⟩ := extension_witness hw
      refine tuple_eq_iff.mpr fun c hc => ?_
      rcases hcol hc with hc | hc
      · have hcn := (h.outer_lt c hc).ne
        rw [scope,hout,if_pos (mem_union_left _ hc),witnessed_of_ne hcn,merge,
          hnone c (Finset.disjoint_left.mp h.disjoint hc) hcn,Option.or_none]
      · have hxc := outer.over_rows env x hx next fun hmem => (h.outer_lt next hmem).false
        rw [hc,scope,hout,if_pos (by simp),witnessed_next,merge,hxc,Option.none_or,hnext])
    hnd []
  have hmem {c : ℕ} (hc : c ∈ columns ++ [next]) : c ∈ (existentialGroupBy (outerApply outer
      (inner.addProjection next (.constBool true))) columns next).outputColumns := by
    rw [outputColumns_existentialGroupBy hsub]
    simpa [or_comm] using hc
  have hread {c : ℕ} (hc : c ∈ columns ++ [next]) (x : Row ℕ (CDatum β)) :
      ((ofTuple (columns ++ [next]) ((witnessed outer inner next env x).tuple
        (columns ++ [next]))).assign [] []).restrict (existentialGroupBy (outerApply outer
          (inner.addProjection next (.constBool true))) columns next).outputColumns c =
        witnessed outer inner next env x c :=
    (if_pos (hmem hc)).trans (ofTuple_tuple hc)
  refine ⟨_,hrows,fun x _ => ⟨fun c hc => ?_,?_⟩⟩
  · exact (hread (List.mem_append_left _ hc) x).trans (witnessed_of_ne (hne hc) x)
  · exact (hread (List.mem_append_right _ (List.mem_singleton_self next)) x).trans
      (witnessed_next x)

variable {r : Row ℕ (CDatum β)}

theorem eval_existentialIf {c : ℕ} :
    (existentialIf value c : CValueExpr β).eval r
      = some (.bool (if r c = none then !value else value)) := by
  simp only [existentialIf,isNotNull,isNull,eval_node,List.map_cons,List.map_nil,eval_ident,
    eval_constBool,CScalarOp.value,CDatum.toBool_ofBool]
  rcases r c with _ | v <;> rfl

omit [DecidableEq β] in
theorem Placed.existentialInput (h : Placed outer inner ∅ next) :
    Placed outer (inner.existentialInput next).1 ∅ (inner.existentialInput next).2 := by
  rw [CRelExpr.existentialInput]
  split
  · rename_i hemp
    have hout : (inner.belowProjects.addProjection next (.constBool true)).outputColumns
        = {next} := by
      rw [CRelExpr.columns_addProjection,hemp,empty_union]
    refine ⟨fun c hc => (h.outer_lt c hc).trans next.lt_succ_self,fun c hc => ?_,
      fun c hc => absurd hc (notMem_empty c),?_⟩
    · rw [hout,Finset.mem_singleton] at hc
      omega
    · rw [hout,disjoint_singleton_right]
      exact fun hmem => (h.outer_lt next hmem).false
  · exact ⟨h.outer_lt,fun c hc => h.inner_lt c (inner.outputColumns_belowProjects hc),h.used_lt,
      h.disjoint.mono_right inner.outputColumns_belowProjects⟩

omit [DecidableEq β] in
theorem operand_of_fGbOnInner
    (h : fGbOnInner ctx op operand column inner fOuterRefsUnderInner = true) :
    useNotNullableInnerOpt ctx op column inner = true ∧ op.fEquality = true ∧
      ∃ a, operand = .ident a ∧ (a ∈ inner.outputColumns ∨ column ∈ inner.outputColumns) := by
  rw [fGbOnInner,Bool.and_eq_true,innerPredicate] at h
  have hsim := h.2
  by_cases hopt : useNotNullableInnerOpt ctx op column inner = true
  · rw [if_pos hopt,quantifiedCmp,CValueExpr.fSimpleEqualityUsingCols,
      conjuncts,List.all_cons,List.all_nil,Bool.and_true] at hsim
    · cases operand with
      | ident a =>
        rw [CValueExpr.isEqualityUsingCols,Bool.and_eq_true,decide_eq_true_eq] at hsim
        exact ⟨hopt,hsim.1,a,rfl,hsim.2⟩
      | _ => exact absurd hsim Bool.false_ne_true
    · simp
  · rw [if_neg hopt,isNotFalse,CValueExpr.fSimpleEqualityUsingCols,
      conjuncts,List.all_cons,List.all_nil,Bool.and_true] at hsim
    · exact absurd hsim Bool.false_ne_true
    · simp

variable (ctx op operand column outer inner scalar fOuterRefsUnderInner) in
/-- The grouping above the apply does not return an outer column of the operand: a system column
outside of the key. -/
def DropsOperand : Prop :=
  fGbOnInner ctx op operand column inner fOuterRefsUnderInner = false ∧
    ∃ columns ∈ outerGrpCols ctx outer, ∃ c ∈ scalar.usedColumns,
      c ∈ outer.outputColumns ∧ c ∉ columns

variable (ctx op operand column outer inner scalar fOuterRefsUnderInner) in
/-- The test for a NULL operand cannot be made above the grouping, or it answers NULL for an empty
subquery. -/
def Misread (E : Row ℕ (CDatum β)) : Prop :=
  useNotNullableInnerOpt ctx op column inner = true ∧
    (DropsOperand ctx outer inner op operand scalar column fOuterRefsUnderInner ∨
      scalar.eval E = none ∧ (inner.rows E).card = 0)

/-- What the handler finds when it compares `operand` with the column of `inner` for the operand
`scalar` of a subquery. -/
structure Comparable (ctx : CSubqueryContext β) (outer subquery inner : CRelExpr β)
    (column next : ℕ) (scalar operand : CValueExpr β) : Prop where
  placed : Placed outer inner (operand.usedColumns ∪ {column} ∪ scalar.usedColumns) next
  operandOver : OperandOver subquery inner column scalar operand
  notNull : NotNullSound ctx inner
  scalar_outside : Disjoint scalar.usedColumns inner.outputColumns

omit [DecidableEq β] in
theorem usedColumns_quantifiedCmp :
    (quantifiedCmp op operand column).usedColumns = operand.usedColumns ∪ {column} := by
  simp only [quantifiedCmp,usedColumns,usedColumnsAll,union_empty]

variable (h : Comparable ctx outer subquery inner column next scalar operand)

include h in
theorem Comparable.placedCmp (op : CScalarCmp β) :
    Placed outer (pexprInnerSelect ctx op operand column inner)
      (quantifiedCmp op operand column).usedColumns next where
  __ := h.placed
  used_lt c hc := h.placed.used_lt c (mem_union_left _ (usedColumns_quantifiedCmp.subset hc))

theorem eval_operandIf (e : CValueExpr β) (r : Row ℕ (CDatum β)) :
    (operandIf scalar e).eval r = if scalar.eval r = none then none else e.eval r := by
  simp only [operandIf,eval_node,List.map_cons,List.map_nil,
    CValueExpr.eval_isNull,eval_const,CScalarOp.value,CDatum.toBool_some_bool]
  rcases scalar.eval r with _ | v <;> rfl

variable (ctx op column inner scalar value) in
/-- The residual expression over the columns of the count and of the sum. -/
def quantifiedResidual (count sum : ℕ) : CValueExpr β :=
  if useNotNullableInnerOpt ctx op column inner then
    operandIf scalar (quantifiedIf value count sum) else quantifiedIf value count sum

variable (ctx op operand column outer inner scalar fOuterRefsUnderInner value t) in
/-- The residual expression can be evaluated to the quantified value, unless the test for a NULL
operand goes wrong. -/
def Answers (E : Row ℕ (CDatum β)) (v : Option (CDatum β)) : Prop :=
  t.Readable outer ∧
      v = CDatum.ofBool (quantifiedValue value (comparisons op operand column inner E)) ↔
    ¬ Misread ctx outer inner op operand scalar column fOuterRefsUnderInner E

include h in
theorem eval_residual_eq_iff (hr : Counts (pexprInnerSelect ctx op operand column inner)
      (quantifiedCmp op operand column) next E r)
    (hread : useNotNullableInnerOpt ctx op column inner = true → scalar.eval r = scalar.eval E) :
    (quantifiedResidual ctx inner op scalar column value (next + 1) (next + 3)).eval r
        = CDatum.ofBool (quantifiedValue value (comparisons op operand column inner E)) ↔
      ¬ (useNotNullableInnerOpt ctx op column inner = true ∧ scalar.eval E = none ∧
        (inner.rows E).card = 0) := by
  rw [quantifiedResidual]
  have hif : (quantifiedIf value (next + 1) (next + 3)).eval r = CDatum.ofBool (rebuilt value
      (keptRows ctx op operand column inner E).card (nullRows ctx op operand column inner E)) := by
    rw [← rows_pexprInnerSelect,← nullsAmong_pexprInnerSelect]
    exact eval_quantifiedIf hr.count fun hpos => hr.sum (Multiset.card_pos.mp hpos)
  by_cases hopt : useNotNullableInnerOpt ctx op column inner = true
  · rw [if_pos hopt,eval_operandIf,hif,hread hopt]
    by_cases hsc : scalar.eval E = none
    · -- no comparison with a NULL operand is TRUE, so no inner row is kept
      have hkept : keptRows ctx op operand column inner E = 0 := by
        refine Multiset.card_eq_zero.mp (card_keptRows.trans (Multiset.countP_eq_zero.mpr ?_))
        rintro v hv htrue
        rw [if_pos hopt] at htrue
        have hsome := isSome_of_mem_comparisons h.operandOver h.notNull hopt (htrue ▸ hv)
        rw [hsc] at hsome
        exact Bool.false_ne_true hsome.symm
      rw [quantifiedValue_of_not_kept h.operandOver h.notNull hopt hkept]
      by_cases hcard : (inner.rows E).card = 0 <;> simp [hsc,hcard,hopt,CDatum.ofBool]
    · rw [if_neg hsc,rebuilt_keptRows fun _ =>
        none_notMem_comparisons h.operandOver h.notNull hopt hsc]
      exact iff_of_true rfl fun hmis => hsc hmis.2.1
  · rw [if_neg hopt,hif,rebuilt_keptRows fun h => absurd h hopt]
    exact iff_of_true rfl fun hmis => hopt hmis.1

include h in
theorem answers_residual
    (hres : t.residual = quantifiedResidual ctx inner op scalar column value (next + 1) (next + 3))
    (hreadable : t.Readable outer ↔ ¬ (useNotNullableInnerOpt ctx op column inner = true ∧
      DropsOperand ctx outer inner op operand scalar column fOuterRefsUnderInner))
    (hr : Counts (pexprInnerSelect ctx op operand column inner)
      (quantifiedCmp op operand column) next E r)
    (hread : ¬ DropsOperand ctx outer inner op operand scalar column fOuterRefsUnderInner →
      scalar.eval r = scalar.eval E) :
    Answers t ctx outer inner op operand scalar column fOuterRefsUnderInner value E
      (t.residual.eval r) := by
  rw [Answers,Misread,and_or_left,not_or,hreadable,hres]
  refine and_congr_right fun hkept => eval_residual_eq_iff h hr fun hopt => hread fun hdrops => ?_
  exact hkept ⟨hopt,hdrops⟩

omit [DecidableEq β] in
theorem mem_usedColumns_quantifiedResidual {c : ℕ} (hc : c < next) :
    c ∈ (quantifiedResidual ctx inner op scalar column value (next + 1) (next + 3)).usedColumns ↔
      useNotNullableInnerOpt ctx op column inner = true ∧ c ∈ scalar.usedColumns := by
  have hnew : c ≠ next + 1 ∧ c ≠ next + 3 := by omega
  by_cases hopt : useNotNullableInnerOpt ctx op column inner = true <;>
    simp [quantifiedResidual,hopt,operandIf,quantifiedIf,isNull,CValueExpr.constBool,
      CValueExpr.constInt,usedColumns,usedColumnsAll,hnew]

/-- Every outer row comes out once, with the outer columns that are kept, all used ones but system
columns among them; `Q` relates what is in reach of the outer row to the value of the residual
expression. -/
def ReturnsOnce (ctx : CSubqueryContext β) (outer : CRelExpr β) (t : CUnnested β)
    (env : Row ℕ (CDatum β)) (Q : Row ℕ (CDatum β) → Option (CDatum β) → Prop) : Prop :=
  (∀ c ∈ outer.outputColumns, (ctx.used c && !ctx.isSystemCol c) = true →
    c ∈ t.newOuter.outputColumns) ∧
  ∃ f : Row ℕ (CDatum β) → Row ℕ (CDatum β), t.newOuter.rows env = (outer.rows env).map f ∧
    ∀ x ∈ outer.rows env,
      (∀ c ∈ outer.outputColumns, c ∈ t.newOuter.outputColumns → f x c = x c) ∧
      Q (x.scope outer.outputColumns env)
        (t.residual.eval ((f x).scope t.newOuter.outputColumns env))

include h in
theorem quantified_above (hkey : TrueKey ctx outer)
    (hpl : ¬ fGbOnInner ctx op operand column inner fOuterRefsUnderInner = true)
    (hcols : outerGrpCols ctx outer = some columns)
    (ht : t =
      { newOuter := quantifiedGroupBy (outerApply outer ((pexprInnerSelect ctx op operand column
          inner).addProjection next (.constBool true))) columns next
          (quantifiedCmp op operand column) (next + 1)
        residual := quantifiedResidual ctx inner op scalar column value (next + 1) (next + 3)
        next := next + 4 }) :
    ReturnsOnce ctx outer t env
      (Answers t ctx outer inner op operand scalar column fOuterRefsUnderInner value) := by
  have hsub := outerGrpCols_subset hkey hcols
  have hout {c : ℕ} (hc : c ∈ columns) : c ∈ outer.outputColumns :=
    hsub (List.mem_toFinset.mpr hc)
  have hlt : ∀ c ∈ columns, c < next := fun c hc => h.placed.outer_lt c (hout hc)
  have hmem {c : ℕ} (hc : c ∈ outer.outputColumns) : c ∈ t.newOuter.outputColumns ↔
      c ∈ columns := by
    have hnew : c ≠ next + 1 ∧ c ≠ next + 3 := by
      have := h.placed.outer_lt c hc
      omega
    simp [ht,mem_quantifiedGroupBy hlt,CRelExpr.outputColumns_outerApply,hc,hnew]
  have hdrops : DropsOperand ctx outer inner op operand scalar column fOuterRefsUnderInner ↔
      ∃ c ∈ scalar.usedColumns, c ∈ outer.outputColumns ∧ c ∉ columns := by
    simp [DropsOperand,hpl,hcols]
  obtain ⟨f,hrows,hf⟩ := exists_rows_above env (h.placedCmp op)
    (outerGrpCols_ne_nil hkey hcols) hsub (nodup_outerGrpCols hkey hcols env)
    (congrArg CUnnested.newOuter ht)
  refine ⟨fun c hc hused => ?_,f,hrows,fun x hx => ⟨fun c hc hc' => ?_,
    answers_residual h (congrArg CUnnested.residual ht) ?_ (hf x hx).1 fun hkept => ?_⟩⟩
  · obtain ⟨key,_,rfl⟩ := eq_of_outerGrpCols hcols
    exact (hmem hc).mpr (mem_groupingKeyColumns.mpr (.inl ⟨hc,hused⟩))
  · have hread := (hf x hx).2 c (h.placed.outer_lt c hc)
    rwa [scope,if_pos hc',if_pos ((hmem hc).mp hc')] at hread
  · rw [hdrops,CUnnested.Readable,congrArg CUnnested.residual ht]
    push Not
    refine ⟨fun hall hopt c hc hco => ?_,fun hall c hc hco => ?_⟩
    · exact (hmem hco).mp (hall c ((mem_usedColumns_quantifiedResidual
        (h.placed.outer_lt c hco)).mpr ⟨hopt,hc⟩) hco)
    · obtain ⟨hopt,hc⟩ := (mem_usedColumns_quantifiedResidual (h.placed.outer_lt c hco)).mp hc
      exact (hmem hco).mpr (hall hopt c hc hco)
  · rw [hdrops] at hkept
    push Not at hkept
    refine scalar.eval_congr fun c hc => ?_
    rw [(hf x hx).2 c (h.placed.used_lt c (mem_union_right _ hc)),scope]
    by_cases hco : c ∈ outer.outputColumns
    · rw [if_pos (hkept c hc hco),if_pos hco]
    · rw [if_neg fun hcc => hco (hout hcc),if_neg hco]

theorem scope_eq_of_mem_keptRows {a : ℕ}
    (hope : OperandOver subquery inner column scalar (.ident a))
    (hopt : useNotNullableInnerOpt ctx op column inner = true) (heq : op.fEquality = true)
    {y y' : Row ℕ (CDatum β)} (hy : y ∈ keptRows ctx op (.ident a) column inner E)
    (hy' : y' ∈ keptRows ctx op (.ident a) column inner E) {c : ℕ} (hc : c = a ∨ c = column) :
    y.scope inner.outputColumns E c = y'.scope inner.outputColumns E c := by
  have hs : op.fVeryStrict = true := (Bool.and_eq_true _ _ ▸ hopt).2
  have hv {z : Row ℕ (CDatum β)} (hz : z ∈ keptRows ctx op (.ident a) column inner E) :
      z.scope inner.outputColumns E a = scalar.eval E ∧
        op.value (scalar.eval E) (z.scope inner.outputColumns E column) = some true := by
    have hmem : z ∈ inner.rows E := Multiset.mem_of_mem_filter hz
    have hcmp := (Multiset.mem_filter.mp hz).2
    rw [if_pos hopt,cmpValue,hope.eval_operand hmem] at hcmp
    have hread := hope.eval_operand hmem
    rw [eval_ident] at hread
    exact ⟨hread,hcmp⟩
  rcases hc with rfl | rfl
  · rw [(hv hy).1,(hv hy').1]
  · exact op.partner_unique hs heq _ _ _ (hv hy).2 (hv hy').2

include h in
theorem quantified_below
    (hpl : fGbOnInner ctx op operand column inner fOuterRefsUnderInner = true)
    (ht : t =
      { newOuter := outerApply outer (quantifiedGroupBy ((pexprInnerSelect ctx op operand column
          inner).addProjection next (.constBool true))
          (innerGrpCols ctx outer (innerPredicate ctx op operand column inner)) next
          (quantifiedCmp op operand column) (next + 1))
        residual := quantifiedResidual ctx inner op scalar column value (next + 1) (next + 3)
        next := next + 4 }) :
    ReturnsOnce ctx outer t env
      (Answers t ctx outer inner op operand scalar column fOuterRefsUnderInner value) := by
  obtain ⟨hopt,heq,a,rfl,hinn⟩ := operand_of_fGbOnInner hpl
  have hgrp {c : ℕ} : c ∈ innerGrpCols ctx outer (innerPredicate ctx op (.ident a) column inner) ↔
      (c = a ∨ c = column) ∧ c ∉ usedOuter ctx outer := by
    rw [innerGrpCols,Finset.mem_sort,mem_sdiff,innerPredicate,if_pos hopt,usedColumns_quantifiedCmp,
      usedColumns,Finset.mem_union,Finset.mem_singleton,Finset.mem_singleton]
  have hlt {c : ℕ} (hc : c = a ∨ c = column) : c < next := by
    refine h.placed.used_lt c (mem_union_left _ ?_)
    rw [usedColumns,Finset.mem_union,Finset.mem_singleton,Finset.mem_singleton]
    exact hc
  have hne : innerGrpCols ctx outer (innerPredicate ctx op (.ident a) column inner) ≠ [] := by
    have hnot {c : ℕ} (hc : c ∈ inner.outputColumns) : c ∉ usedOuter ctx outer := fun hmem =>
      Finset.disjoint_right.mp h.placed.disjoint hc (Finset.mem_filter.mp hmem).1
    rcases hinn with hc | hc
    · exact List.ne_nil_of_mem (hgrp.mpr ⟨.inl rfl,hnot hc⟩)
    · exact List.ne_nil_of_mem (hgrp.mpr ⟨.inr rfl,hnot hc⟩)
  obtain ⟨f,hrows,hf⟩ := exists_rows_below env (h.placedCmp op) hne
    (fun c hc => hlt (hgrp.mp hc).1) (fun E y hy y' hy' c hc => by
      rw [rows_pexprInnerSelect] at hy hy'
      exact scope_eq_of_mem_keptRows h.operandOver hopt heq hy hy' (hgrp.mp hc).1)
    (congrArg CUnnested.newOuter ht)
  have hin {c : ℕ} (hc : c ∈ outer.outputColumns) : c ∉ inner.outputColumns :=
    Finset.disjoint_left.mp h.placed.disjoint hc
  have hmem {c : ℕ} (hc : c ∈ outer.outputColumns) : c ∈ t.newOuter.outputColumns := by
    rw [ht,CRelExpr.outputColumns_outerApply]
    exact mem_union_left _ hc
  have hdrops : ¬ DropsOperand ctx outer inner op (.ident a) scalar column
      fOuterRefsUnderInner := by
    simp [DropsOperand,hpl]
  refine ⟨fun c hc _ => hmem hc,f,hrows,fun x hx => ⟨fun c hc hc' => ?_,
    answers_residual h (congrArg CUnnested.residual ht)
      (iff_of_true (fun c _ => hmem) fun hall => hdrops hall.2) (hf x hx).1 fun _ => ?_⟩⟩
  · have hread := (hf x hx).2 c (h.placed.outer_lt c hc) (hin hc)
    rwa [scope,if_pos hc',scope,if_pos hc] at hread
  · exact scalar.eval_congr fun c hc =>
      (hf x hx).2 c (h.placed.used_lt c (mem_union_right _ hc))
        (Finset.disjoint_left.mp h.scalar_outside hc)

include h in
theorem quantified_returned (hkey : TrueKey ctx outer)
    (hsome : fCreateOuterApplyForQuant ctx outer inner op operand column scalar value
      fOuterRefsUnderInner next = some t) (env : Row ℕ (CDatum β)) :
    ReturnsOnce ctx outer t env
      (Answers t ctx outer inner op operand scalar column fOuterRefsUnderInner value) := by
  rw [fCreateOuterApplyForQuant] at hsome
  by_cases hpl : fGbOnInner ctx op operand column inner fOuterRefsUnderInner = true
  · rw [if_pos hpl] at hsome
    exact quantified_below h hpl (Option.some.inj hsome).symm
  · rw [if_neg hpl] at hsome
    obtain ⟨columns,hcols,ht⟩ := Option.map_eq_some_iff.mp hsome
    exact quantified_above h hkey hpl hcols ht.symm

theorem existential_returned {negated : Bool} (hkey : TrueKey ctx outer)
    (h : Placed outer subquery ∅ next)
    (hsome : fCreateOuterApplyForExist ctx outer (subquery.existentialInput next).1 (!negated)
      (subquery.existentialInput next).2 = some t) (env : Row ℕ (CDatum β)) :
    ReturnsOnce ctx outer t env fun E v =>
      t.Readable outer ∧ v = (CValueExpr.existential negated subquery).eval E := by
  obtain ⟨columns,hcols,rfl⟩ := Option.map_eq_some_iff.mp hsome
  have hpl := h.existentialInput
  have hsub := outerGrpCols_subset hkey hcols
  obtain ⟨f,hrows,hf⟩ :=
    exists_rows_existential hpl hsub (nodup_outerGrpCols hkey hcols env)
  have hcard := subquery.card_rows_existentialInput next
  generalize (subquery.existentialInput next).1 = input at *
  generalize (subquery.existentialInput next).2 = witness at *
  refine ⟨fun c hc hused => ?_,f,hrows,fun x hx => ⟨fun c hc hc' => ?_,?_,?_⟩⟩
  · obtain ⟨key,_,rfl⟩ := eq_of_outerGrpCols hcols
    rw [outputColumns_existentialGroupBy hsub]
    exact mem_union_left _ (List.mem_toFinset.mpr (mem_groupingKeyColumns.mpr (.inl ⟨hc,hused⟩)))
  · rw [outputColumns_existentialGroupBy hsub,Finset.mem_union,List.mem_toFinset,
      Finset.mem_singleton] at hc'
    exact (hf x hx).1 c (hc'.resolve_right (hpl.outer_lt c hc).ne)
  · intro c hc hco
    simp only [existentialIf,isNotNull,isNull,CValueExpr.constBool,usedColumns,usedColumnsAll,
      union_empty,Finset.mem_singleton] at hc
    exact absurd hc (hpl.outer_lt c hco).ne
  · have hread : (f x).scope (columns.toFinset ∪ {witness}) env witness
        = witnessValue input (x.scope outer.outputColumns env) := by
      rw [scope,if_pos (mem_union_right _ (Finset.mem_singleton_self witness)),(hf x hx).2]
    rw [outputColumns_existentialGroupBy hsub,eval_existentialIf,hread,witnessValue,hcard]
    simp only [CValueExpr.eval_existential]
    by_cases hzero : (subquery.rows (x.scope outer.outputColumns env)).card = 0 <;>
      cases negated <;> simp [hzero,CDatum.ofBool]

/-- What the handler finds for a subquery. -/
def Prepared (ctx : CSubqueryContext β) (outer inner : CRelExpr β) (operand : CValueExpr β)
    (next : ℕ) : CValueExpr β → Prop
  | .quantified .any _ subquery column scalar =>
    Comparable ctx outer subquery inner column next scalar operand
  | .quantified .all _ subquery column scalar =>
    Comparable ctx outer subquery subquery column next scalar scalar
  | .existential _ subquery => Placed outer subquery ∅ next
  | _ => True

/-- The test for a NULL operand goes wrong for the subquery. -/
def MisreadSubquery (ctx : CSubqueryContext β) (outer inner : CRelExpr β)
    (operand : CValueExpr β) : CValueExpr β → Row ℕ (CDatum β) → Prop
  | .quantified .any op subquery column scalar, E =>
    Misread ctx outer inner op operand scalar column subquery.hasOuterRefs E
  | .quantified .all op subquery column scalar, E =>
    Misread ctx outer subquery (ctx.inverse op) scalar scalar column false E
  | _, _ => False

theorem ReturnsOnce.imp {P Q : Row ℕ (CDatum β) → Option (CDatum β) → Prop}
    (h : ReturnsOnce ctx outer t env P)
    (hPQ : ∀ E v, P E v → Q E v) : ReturnsOnce ctx outer t env Q := by
  obtain ⟨hused,f,hrows,hf⟩ := h
  exact ⟨hused,f,hrows,fun x hx => ⟨(hf x hx).1,hPQ _ _ (hf x hx).2⟩⟩

theorem eval_any_eq (h : OperandOver subquery inner column scalar operand) :
    (quantified .any op subquery column scalar).eval E
      = CDatum.ofBool (quantifiedValue true (comparisons op operand column inner E)) := by
  rw [eval,EQuantifier.value,quantifiedValue,if_pos rfl,h.comparisons_eq]

theorem eval_all_eq (hinv : ∀ op v w, (ctx.inverse op).value v w = Kleene.not (op.value v w))
    (h : OperandOver subquery inner column scalar operand) :
    (quantified .all op subquery column scalar).eval E = CDatum.ofBool
      (quantifiedValue false (comparisons (ctx.inverse op) operand column inner E)) := by
  have hnot (t : Option Bool) : Kleene.not (Kleene.not t) = t := by
    rcases t with _ | _ | _ <;> rfl
  rw [eval,EQuantifier.value,quantifiedValue,if_neg Bool.false_ne_true,
    h.comparisons_eq,← Kleene.allOf_map_not,Multiset.map_map]
  simp only [Function.comp_def,hinv,hnot]

/-- Every outer row comes out once, and the residual expression can be evaluated to the value of the
subquery for it exactly when the test for a NULL operand does not go wrong. -/
theorem value_of_unnested_subquery (hkey : TrueKey ctx outer)
    (hinverse : ∀ op v w, (ctx.inverse op).value v w = Kleene.not (op.value v w))
    {subquery : CValueExpr β} (hprepared : Prepared ctx outer inner operand next subquery)
    {t : CUnnested β}
    (hsome : fRemoveSubqueryAsValue ctx outer inner operand next subquery = some t)
    (env : Row ℕ (CDatum β)) :
    ReturnsOnce ctx outer t env fun E v => (t.Readable outer ∧ v = subquery.eval E ↔
      ¬ MisreadSubquery ctx outer inner operand subquery E) := by
  match subquery, hprepared, hsome with
  | .quantified .any op subquery column scalar, hprepared, hsome =>
    have h : Comparable ctx outer subquery inner column next scalar operand := hprepared
    refine (quantified_returned h hkey hsome env).imp fun E v hv => ?_
    rwa [Answers,← eval_any_eq h.operandOver] at hv
  | .quantified .all op subquery column scalar, hprepared, hsome =>
    have h : Comparable ctx outer subquery subquery column next scalar scalar := hprepared
    rw [fRemoveSubqueryAsValue] at hsome
    split at hsome
    · cases hsome
    · refine (quantified_returned h hkey hsome env).imp fun E v hv => ?_
      rwa [Answers,← eval_all_eq hinverse h.operandOver] at hv
  | .existential negated subquery, hprepared, hsome =>
    refine (existential_returned hkey hprepared hsome env).imp fun E v hv => ?_
    exact iff_of_true hv id

end

namespace EqualAny

def equal : CScalarCmp Empty where
  value v w := v.bind fun v => w.map fun w => v = w
  fEquality := true
  fVeryStrict := true
  isSome_value _ v w := by cases v <;> cases w <;> rfl
  partner_unique _ _ v w w' h h' := by
    rcases v with _ | v
    · cases h
    · rcases w with _ | w
      · cases h
      · rcases w' with _ | w'
        · cases h'
        · simp only [Option.bind_some,Option.map_some,Option.some.injEq,decide_eq_true_eq] at h h'
          rw [← h, ← h']

def inverse (op : CScalarCmp Empty) : CScalarCmp Empty where
  value v w := Kleene.not (op.value v w)
  fEquality := false
  fVeryStrict := op.fVeryStrict
  isSome_value h v w := by rw [Kleene.not, Option.isSome_map, op.isSome_value h]
  partner_unique _ h := nomatch h

def ctx : CSubqueryContext Empty where
  marked _ := true
  isSystemCol _ := false
  systemCols := ∅
  groupingKey _ := some [0]
  notNullColumns t := t.outputColumns ∩ {1}
  inverse := inverse

variable (value : Option (CDatum Empty))

def outer : CRelExpr Empty := .relation [0] [] fun _ => {[value]}

def inner : CRelExpr Empty :=
  .relation [1] [] fun _ => (values : Multiset Bool).map fun value => [some (.bool value)]

def subquery : CValueExpr Empty :=
  .quantified .any equal (inner values) 1 (.ident 0)

/-- A NULL operand and an empty subquery: ANY is FALSE, the residual expression NULL. -/
theorem null_operand_hides_empty_subquery :
    ((outer none).rows Row.null).map (fun x =>
      (subquery []).eval (x.scope (outer none).outputColumns Row.null)) = {some (.bool false)} ∧
    (fRemoveSubqueryAsValue ctx (outer none) (inner []) (.ident 0) 2 (subquery [])).map (fun t =>
      (t.newOuter.rows Row.null).map fun r =>
        t.residual.eval (r.scope t.newOuter.outputColumns Row.null)) = some {none} := by
  constructor
  · decide +kernel
  · decide +kernel

theorem trueKey_outer : TrueKey ctx (outer value) := by
  intro key hkey
  obtain rfl : [0] = key := Option.some.inj hkey
  refine ⟨List.cons_ne_nil 0 [],Finset.Subset.refl _,fun env => ?_⟩
  rw [outer,CRelExpr.rows,Multiset.map_singleton,Multiset.map_singleton]
  exact Multiset.nodup_singleton _

theorem comparable_inner :
    Comparable ctx (outer value) (inner values) (inner values) 1 2 (.ident 0) (.ident 0) where
  placed := by
    have hout : (outer value).outputColumns = {0} := rfl
    have hin : (inner values).outputColumns = {1} := rfl
    have hused : (ident 0 : CValueExpr Empty).usedColumns = {0} := by
      rw [usedColumns]
    refine ⟨?_,?_,?_,?_⟩ <;> simp [hout,hin,hused]
  operandOver := by
    refine OperandOver.self ?_
    rw [usedColumns]
    exact Finset.disjoint_singleton.mpr zero_ne_one
  notNull := by
    intro E y hy c hc
    obtain rfl : c = 1 := Finset.mem_singleton.mp (Finset.mem_inter.mp hc).2
    rw [inner,CRelExpr.rows,Multiset.map_map] at hy
    obtain ⟨b,_,rfl⟩ := Multiset.mem_map.mp hy
    rfl
  scalar_outside := by
    rw [usedColumns]
    exact Finset.disjoint_singleton.mpr zero_ne_one

theorem matching_operand_valued : ∃ t,
    fRemoveSubqueryAsValue ctx (outer (some (.bool true))) (inner [true, false]) (.ident 0) 2
      (subquery [true, false]) = some t ∧
    ReturnsOnce ctx (outer (some (.bool true))) t Row.null fun E v =>
      (t.Readable (outer (some (.bool true))) ∧ v = (subquery [true, false]).eval E ↔
        ¬ MisreadSubquery ctx (outer (some (.bool true))) (inner [true, false]) (.ident 0)
          (subquery [true, false]) E) := by
  obtain ⟨t,ht⟩ := Option.isSome_iff_exists.mp (show (fRemoveSubqueryAsValue ctx
    (outer (some (.bool true))) (inner [true,false]) (.ident 0) 2
    (subquery [true,false])).isSome = true by decide +kernel)
  have hpre : Prepared ctx (outer (some (.bool true))) (inner [true,false]) (.ident 0) 2
      (subquery [true,false]) := comparable_inner _ _
  exact ⟨t,ht,value_of_unnested_subquery (trueKey_outer _) (fun _ _ _ => rfl) hpre ht null⟩

end EqualAny

end CSubqueryHandler

end PgOrca.Unnesting
